import Transclude.Proofs.Nearest
import Transclude.Proofs.RowOrder
import Transclude.Proofs.Selection

/-!
# What a recall prefers

A sentence with a word of the question has a positive score, and a positive score stays positive when it is weighted
(`Between`). So these sentences rank before all others, and the note that none was found tells the truth.
-/

namespace Transclude

open List Sorting

/-! ## Positive numbers -/

namespace Number.Binary64

variable {x y : Binary64} {num den : Nat} {low high low' high' : Int}

/-- Whether a number is positive, from `2 ^ low` to `2 ^ high`. -/
def Between (low high : Int) (x : Binary64) : Prop :=
  ∃ (m : Nat) (e : Int), x = .finite false m e ∧ (2 : ℚ) ^ low ≤ m * 2 ^ e ∧ (m : ℚ) * 2 ^ e ≤ 2 ^ high

theorem pow_toNat_mul {e j : Int} (h : e ≤ j) : ((Nat.pow 2 (j - e).toNat : Nat) : ℚ) * 2 ^ e = 2 ^ j := by
  rw [Nat.pow_eq, Nat.cast_pow, Nat.cast_ofNat, ← zpow_natCast, Int.toNat_of_nonneg (by omega),
    ← zpow_add₀ two_ne_zero, sub_add_cancel]

theorem between_ofRatio (hden : 0 < den) (hlow : -1074 ≤ low) (hhigh : high ≤ 1023) (hge : (2 : ℚ) ^ low ≤ num / den)
    (hle : (num : ℚ) / den ≤ 2 ^ high) : Between low high (ofRatio false num den) := by
  have hnum : 0 < num := by
    refine Nat.pos_of_ne_zero fun hzero => ?_
    rw [hzero, Nat.cast_zero, zero_div] at hge
    exact (zpow_pos two_pos low).not_ge hge
  obtain ⟨k, e, m, he, hleads, hround, heq⟩ := exists_rounds hnum hden
  rw [heq]
  have hpow : (0 : ℚ) < 2 ^ e := zpow_pos two_pos e
  have hlowk : low ≤ k := hleads.ge_of_le one_lt_two (by exact_mod_cast hge)
  have hkhigh : k ≤ high := (zpow_le_zpow_iff_right₀ (one_lt_two (α := ℚ))).1 (by exact_mod_cast hleads.le.trans hle)
  have hm : (2 : ℚ) ^ low ≤ m * 2 ^ e := by
    have hreach : Nat.pow 2 (k - e).toNat ≤ m := by
      refine hround.ge_of_ge ?_
      rw [le_div_iff₀ hpow, pow_toNat_mul (by omega)]
      exact_mod_cast hleads.le
    calc (2 : ℚ) ^ low ≤ 2 ^ k := zpow_le_zpow_right₀ one_le_two hlowk
      _ = (Nat.pow 2 (k - e).toNat : Nat) * 2 ^ e := (pow_toNat_mul (by omega)).symm
      _ ≤ m * 2 ^ e := mul_le_mul_of_nonneg_right (Nat.cast_le.2 hreach) hpow.le
  have hm' : (m : ℚ) * 2 ^ e ≤ 2 ^ high := by
    have hbelow : m ≤ Nat.pow 2 (high - e).toNat := by
      refine hround.le_of_le ?_
      rwa [div_le_iff₀ hpow, pow_toNat_mul (by omega)]
    rw [← pow_toNat_mul (show e ≤ high by omega)]
    exact mul_le_mul_of_nonneg_right (Nat.cast_le.2 hbelow) hpow.le
  split_ifs with hcarry hover hover
  · rw [hcarry, ← Int.toNat_natCast 53, ← add_sub_cancel_right ((53 : Nat) : Int) e, pow_toNat_mul (by omega)] at hm'
    have hexp := (zpow_le_zpow_iff_right₀ (one_lt_two (α := ℚ))).1 hm'
    omega
  · have hval : ((Nat.pow 2 52 : Nat) : ℚ) * 2 ^ (e + 1) = m * 2 ^ e := by
      rw [hcarry, zpow_add_one₀ two_ne_zero, Nat.pow_eq, Nat.pow_eq]
      ring
    exact ⟨_, _, rfl, hval ▸ hm, hval ▸ hm'⟩
  · omega
  · exact ⟨m, e, rfl, hm, hm'⟩

theorem ratio_value (m : Nat) (e : Int) :
    0 < (ratio m e).2 ∧ ((ratio m e).1 : ℚ) / (ratio m e).2 = m * 2 ^ e := by
  rw [← Nat.cast_ofNat (R := ℚ), ← pow_toNat_div two_pos e, ratio]
  split_ifs with he
  · rw [Int.toNat_of_nonpos (z := -e) (by omega)]
    exact ⟨one_pos, by simp⟩
  · rw [Int.toNat_of_nonpos (z := e) (by omega)]
    exact ⟨Nat.pow_pos two_pos, by simp [div_eq_mul_inv]⟩

theorem ratio_zero (e : Int) : (ratio 0 e).1 = 0 := by
  rw [ratio]
  split_ifs <;> simp

theorem mul_finite (s t : Bool) (m n : Nat) (e f : Int) : (Binary64.finite s m e).mul (.finite t n f) =
    ofRatio (s != t) ((ratio m e).1 * (ratio n f).1) ((ratio m e).2 * (ratio n f).2) := rfl

theorem div_finite (s t : Bool) (m : Nat) {n : Nat} (hn : n ≠ 0) (e f : Int) :
    (Binary64.finite s m e).div (.finite t n f) =
      ofRatio (s != t) ((ratio m e).1 * (ratio n f).2) ((ratio m e).2 * (ratio n f).1) :=
  if_neg hn

theorem Between.mul (hx : Between low high x) (hy : Between low' high' y) (hlow : -1074 ≤ low + low')
    (hhigh : high + high' ≤ 1023) : Between (low + low') (high + high') (x.mul y) := by
  obtain ⟨m, e, rfl, hm, hm'⟩ := hx
  obtain ⟨n, f, rfl, hn, hn'⟩ := hy
  obtain ⟨hb, hx⟩ := ratio_value m e
  obtain ⟨hd, hy⟩ := ratio_value n f
  rw [mul_finite]
  refine between_ofRatio (Nat.mul_pos hb hd) hlow hhigh ?_ ?_ <;>
    rw [Nat.cast_mul, Nat.cast_mul, mul_div_mul_comm, hx, hy, zpow_add₀ two_ne_zero]
  · exact mul_le_mul hm hn (zpow_pos two_pos _).le ((zpow_pos two_pos _).le.trans hm)
  · exact mul_le_mul hm' hn' ((zpow_pos two_pos _).le.trans hn) (zpow_pos two_pos _).le

theorem Between.pos (hx : Between low high x) : ∃ (m : Nat) (e : Int), x = .finite false m e ∧ 0 < m := by
  obtain ⟨m, e, rfl, hm, -⟩ := hx
  refine ⟨m, e, rfl, Nat.pos_of_ne_zero fun hzero => ?_⟩
  rw [hzero, Nat.cast_zero, zero_mul] at hm
  exact (zpow_pos two_pos low).not_ge hm

theorem Between.div (hx : Between low high x) (hy : Between low' high' y) (hlow : -1074 ≤ low - high')
    (hhigh : high - low' ≤ 1023) : Between (low - high') (high - low') (x.div y) := by
  obtain ⟨n, f, heq, hpos⟩ := hy.pos
  obtain ⟨m, e, rfl, hm, hm'⟩ := hx
  obtain ⟨_, _, rfl, hn, hn'⟩ := hy
  cases heq
  obtain ⟨hb, hx⟩ := ratio_value m e
  obtain ⟨hd, hy⟩ := ratio_value n f
  have hc : 0 < (ratio n f).1 := by
    refine Nat.pos_of_ne_zero fun hzero => ?_
    rw [hzero, Nat.cast_zero, zero_div] at hy
    exact ((zpow_pos two_pos _).trans_le hn).ne hy
  rw [div_finite _ _ _ hpos.ne']
  refine between_ofRatio (Nat.mul_pos hb hc) hlow hhigh ?_ ?_ <;>
    rw [Nat.cast_mul, Nat.cast_mul, ← div_div_div_eq, hx, hy, zpow_sub₀ two_ne_zero]
  · exact div_le_div₀ ((zpow_pos two_pos _).le.trans hm) hm ((zpow_pos two_pos _).trans_le hn) hn'
  · exact div_le_div₀ (zpow_pos two_pos _).le hm' (zpow_pos two_pos _) hn

theorem between_natural {n k : Nat} (hn : 0 < n) (hk : k ≤ 1023) (hle : n ≤ Nat.pow 2 k) :
    Between 0 k (ofRatio false n 1) := by
  refine between_ofRatio one_pos (by decide) (by omega) ?_ ?_
  · rw [Nat.cast_one, div_one]
    exact Nat.one_le_cast.2 hn
  · rw [Nat.cast_one, div_one]
    exact_mod_cast hle

theorem Between.zero_mul (hx : Between low high x) : (zero false).mul x = zero false := by
  obtain ⟨m, e, rfl, -⟩ := hx
  rw [zero, mul_finite, ratio_zero, Nat.zero_mul]
  exact if_pos rfl

theorem Between.zero_div (hx : Between low high x) : (zero false).div x = zero false := by
  obtain ⟨m, e, rfl, hm⟩ := hx.pos
  rw [zero, div_finite _ _ _ hm.ne', ratio_zero, Nat.zero_mul]
  exact if_pos rfl

theorem Between.isNumber (hx : Between low high x) : x.isNumber = true := by
  obtain ⟨m, e, rfl, -⟩ := hx
  rfl

theorem Between.not_isZero (hx : Between low high x) : x.isZero = false := by
  obtain ⟨m, e, rfl, hm⟩ := hx.pos
  cases m with
  | zero => cases hm
  | succ m => rfl

theorem Between.zero_lt (hx : Between low high x) : (zero false).lt x = true := by
  obtain ⟨m, e, rfl, hm⟩ := hx.pos
  rw [lt_iff_rank_lt rfl rfl, rank, zero, rank, Prod.Lex.toLex_lt_toLex]
  have hpow : 0 < Nat.pow 2 (e + 1074).toNat := Nat.pow_pos two_pos
  simpa [scaled] using Nat.mul_pos hm hpow

theorem ordersOn_isNumber : OrdersOn (fun x => x.isNumber = true) lt :=
  .of_rank rank fun ha hb => lt_iff_rank_lt ha hb

end Number.Binary64

namespace Digest

open Number Binary64 Text

variable {stops : List String} {question text : List Char} {counted : List String} {r : Request}
  {s : List Char × Nat}

theorem numbered_lt {α : Type} {n : Nat} {groups : List (List α)} {x : α × Nat} (hne : ∀ group ∈ groups, group ≠ [])
    (h : x ∈ numbered n groups) : x.2 < n + (numbered n groups).length := by
  induction groups generalizing n with
  | nil => cases h
  | cons group rest ih =>
    have hpos : 0 < group.length := length_pos_iff.2 (hne group mem_cons_self)
    rw [numbered, mem_append, mem_map] at h
    rw [numbered, length_append, length_map]
    rcases h with ⟨a, ha, rfl⟩ | hrest
    · omega
    · have := ih (fun g hg => hne g (mem_cons_of_mem _ hg)) hrest
      omega

theorem blockNumber_lt (h : s ∈ r.sentences text) : s.2 < (r.sentences text).length := by
  have hlt := numbered_lt (fun block hblock => by simpa using (mem_filter.1 hblock).2) h
  rwa [Nat.zero_add] at hlt

/-! ## Scores of answers -/

/-- Whether a sentence has a word of the question that is no stop word. -/
def Answers (stops : List String) (question : List Char) (s : List Char × Nat) : Prop :=
  ∃ w ∈ words question, w ∉ stops ∧ w ∈ words s.1

theorem answers_iff : Answers stops question s ↔ ∃ w ∈ questionWords stops question, w ∈ words s.1 := by
  simp [Answers, questionWords, mem_eraseDups, and_assoc]

def relevance (counted : List String) (s : List Char × Nat) : Binary64 :=
  if counted.isEmpty then .zero false
  else .ofQuotient (counted.filter (words s.1).contains).length counted.length

def blockWeight (n : Nat) : Binary64 :=
  (Binary64.ofInt 1).div (.ofInt (1 + n))

theorem weighted_map (score : List Char × Nat → Binary64) (sentences : List (List Char × Nat)) :
    weighted (sentences.map score) (sentences.map (·.2)) =
      sentences.map fun s => (score s).mul (blockWeight s.2) := by
  rw [weighted, zipWith_map, zipWith_self]
  rfl

theorem between_blockWeight {n : Nat} (h : n < Nat.pow 2 250) : Between (-250) 0 (blockWeight n) := by
  have hone : Between 0 (0 : Nat) (ofInt 1) := between_natural one_pos (by decide) le_rfl
  have hnumber : Between 0 (250 : Nat) (ofInt (1 + n)) := by
    have hsign : decide ((1 + n : Int) < 0) = false := by simp; omega
    have habs : (1 + n : Int).natAbs = 1 + n := by omega
    rw [ofInt, hsign]
    exact between_natural (by omega) (by decide) (by omega)
  exact hone.div hnumber (by decide) (by decide)

section Relevance

variable (hcnt : counted.length ≤ Nat.pow 2 250)
include hcnt

theorem between_relevance (h : ∃ w ∈ counted, w ∈ words s.1) : Between (-250) 250 (relevance counted s) := by
  obtain ⟨w, hw, hs⟩ := h
  have hmatch : w ∈ counted.filter (words s.1).contains := mem_filter.2 ⟨hw, by simpa using hs⟩
  rw [relevance, if_neg (by simpa using ne_nil_of_mem hw)]
  have hnum := between_natural (k := 250) (length_pos_of_mem hmatch) (by decide)
    ((length_filter_le _ _).trans hcnt)
  have hden := between_natural (k := 250) (length_pos_of_mem hw) (by decide) hcnt
  exact hnum.div hden (by decide) (by decide)

theorem relevance_eq_zero (h : ¬ ∃ w ∈ counted, w ∈ words s.1) : relevance counted s = .zero false := by
  rw [relevance]
  split_ifs with hempty
  · rfl
  · have hnone : counted.filter (words s.1).contains = [] :=
      filter_eq_nil_iff.2 fun w hw hs => h ⟨w, hw, by simpa using hs⟩
    have hden := between_natural (k := 250) (length_pos_iff.2 (by simpa using hempty)) (by decide) hcnt
    rw [hnone]
    exact hden.zero_div

theorem isNumber_relevance (s : List Char × Nat) (h : s.2 < Nat.pow 2 250) :
    ((relevance counted s).mul (blockWeight s.2)).isNumber = true := by
  have hweight := between_blockWeight h
  by_cases hmatch : ∃ w ∈ counted, w ∈ words s.1
  · exact ((between_relevance hcnt hmatch).mul hweight (by decide) (by decide)).isNumber
  · rw [relevance_eq_zero hcnt hmatch, hweight.zero_mul]
    rfl

/-- What is chosen by relevance has a sentence that is irrelevant only if it has all that are relevant. -/
theorem mem_chosen_of_relevant {sentences : List (List Char × Nat)} {i j : Nat} {t : List Char × Nat}
    (hmax : 1 ≤ r.maxSentences) (hblocks : ∀ s ∈ sentences, s.2 < Nat.pow 2 250)
    (hi : i ∈ r.chosen sentences (sentences.map (relevance counted))) (hs : sentences[i]? = some s)
    (hnone : ¬ ∃ w ∈ counted, w ∈ words s.1) (ht : sentences[j]? = some t) (hsome : ∃ w ∈ counted, w ∈ words t.1) :
    j ∈ r.chosen sentences (sentences.map (relevance counted)) := by
  by_contra hj
  rw [Request.chosen, weighted_map] at hi hj
  have hnumber : ∀ x ∈ (sentences.map fun s => (relevance counted s).mul (blockWeight s.2)).zipIdx,
      x.1.isNumber = true := fun x hx => by
    obtain ⟨u, hu, hscore⟩ := mem_map.1 (fst_mem_of_mem_zipIdx hx)
    rw [← hscore]
    exact isNumber_relevance hcnt u (hblocks u hu)
  have hscore : (relevance counted s).mul (blockWeight s.2) = .zero false := by
    rw [relevance_eq_zero hcnt hnone, (between_blockWeight (hblocks s (mem_of_getElem? hs))).zero_mul]
  have hpositive := (between_relevance hcnt hsome).mul
    (between_blockWeight (hblocks t (mem_of_getElem? ht))) (by decide) (by decide)
  have hlt := hpositive.zero_lt
  have htop := isTop_selectTop (k := r.maxSentences) ordersOn_isNumber hnumber (nodup_places _) (by omega)
  rcases htop.best (.zero false, i) (by simp [mem_zipIdx_iff_getElem?, hs, hscore])
    ((relevance counted t).mul (blockWeight t.2), j) (by simp [mem_zipIdx_iff_getElem?, ht]) hi hj
    with hbefore | ⟨htie, -⟩
  · exact Bool.false_ne_true ((ordersOn_isNumber.asymm rfl hpositive.isNumber hlt).symm.trans hbefore)
  · exact Bool.false_ne_true ((tied_eq_true_iff.1 htie).1.symm.trans hlt)

theorem all_isZero_iff (sentences : List (List Char × Nat)) :
    (sentences.map (relevance counted)).all isZero = true ↔ ∀ s ∈ sentences, ¬ ∃ w ∈ counted, w ∈ words s.1 := by
  rw [all_eq_true, forall_mem_map]
  refine forall₂_congr fun s _ => ⟨fun hzero hmatch => ?_, fun hnone => ?_⟩
  · rw [(between_relevance hcnt hmatch).not_isZero] at hzero
    cases hzero
  · rw [relevance_eq_zero hcnt hnone]
    rfl

end Relevance

theorem recallScores_eq (counted : List String) (sentences : List (List Char × Nat)) :
    recallScores counted (sentences.map fun s => words s.1) = sentences.map (relevance counted) := by
  rw [recallScores, map_map]
  rfl

/-- A recall has the note that nothing was found exactly if the text has sentences and none answers the question. Else it
quotes a sentence that does not answer only if it quotes all that do. The bounds are those within which scores cannot
vanish. -/
theorem recollection_prefers_answers (hmax : 1 ≤ r.maxSentences) (hsecs : 0 ≤ r.sections)
    (hquestion : (questionWords (stopWords r.language) question).length ≤ Nat.pow 2 250)
    (htext : (r.sentences text).length ≤ Nat.pow 2 250) :
    r.sentences text = [] ∧ recollection r question text = .ok noRecall ∨
    (r.sentences text ≠ [] ∧ ∀ s ∈ r.sentences text, ¬ Answers (stopWords r.language) question s) ∧
      (∃ best, best.Sublist (r.sentences text) ∧ recollection r question text = .ok (fallbackNote ++ quoted best)) ∨
    (∃ s ∈ r.sentences text, Answers (stopWords r.language) question s) ∧
      ∃ places : List Nat, places.Pairwise (· < ·) ∧
        (places.length : Int) = min r.maxSentences (r.sentences text).length ∧
        recollection r question text = .ok (quoted (places.filterMap ((r.sentences text)[·]?))) ∧
        ∀ i ∈ places, ∀ s, (r.sentences text)[i]? = some s → ¬ Answers (stopWords r.language) question s →
          ∀ (j : Nat) t, (r.sentences text)[j]? = some t → Answers (stopWords r.language) question t → j ∈ places := by
  simp only [answers_iff]
  rw [recollection, Request.check_eq hmax hsecs]
  dsimp only [Bind.bind, Except.bind]
  by_cases hempty : r.sentences text = []
  · exact .inl ⟨hempty, by rw [hempty]; rfl⟩
  rw [if_neg (by simpa using hempty), recallScores_eq]
  by_cases hzero : ∀ s ∈ r.sentences text, ¬ ∃ w ∈ questionWords (stopWords r.language) question, w ∈ words s.1
  · rw [if_pos ((all_isZero_iff hquestion _).2 hzero), quote_eq]
    refine .inr (.inl ⟨⟨hempty, hzero⟩, _, sublist_filterMap_getElem? ?_, rfl⟩)
    exact pairwise_selectTop (by omega) (nodup_places _)
  · rw [if_neg (by rwa [all_isZero_iff hquestion]), quote_eq]
    refine .inr (.inr ⟨by simpa using hzero, _, pairwise_selectTop (by omega) (nodup_places _), ?_, rfl,
      fun i hi s hs hnone j t ht hsome => ?_⟩)
    · rw [length_selectTop lt (by omega), length_zipIdx, weighted_map, length_map]
    · exact mem_chosen_of_relevant hquestion hmax (fun s hs => (blockNumber_lt hs).trans_le htext) hi hs hnone ht hsome

theorem recollection_of_irrelevant :
    ∃ best, recollection {} "Where is the dog?".toList "A cat sat. It ran away.".toList =
      .ok (fallbackNote ++ quoted best) := by
  have hnone : ∀ s ∈ Request.sentences {} "A cat sat. It ran away.".toList,
      ¬ Answers (stopWords "en") "Where is the dog?".toList s := by
    simp only [answers_iff]
    decide
  have hsome : Request.sentences {} "A cat sat. It ran away.".toList ≠ [] := by decide
  have hquestion : (questionWords (stopWords "en") "Where is the dog?".toList).length ≤ Nat.pow 2 250 := by decide
  have htext : (Request.sentences {} "A cat sat. It ran away.".toList).length ≤ Nat.pow 2 250 := by decide
  rcases recollection_prefers_answers (r := {}) (by decide) (by decide) hquestion htext with
    ⟨hempty, -⟩ | ⟨-, best, -, hanswer⟩ | ⟨⟨s, hs, hans⟩, -⟩
  · exact absurd hempty hsome
  · exact ⟨best, hanswer⟩
  · exact absurd hans (hnone s hs)

end Digest

end Transclude
