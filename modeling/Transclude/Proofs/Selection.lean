import Mathlib.Data.List.Nodup
import Transclude.Digest.Synopsis
import Transclude.Proofs.Sorting

/-!
# The best sentences

`selectTop` gives the places of the best scores in increasing order, of equal scores the first ones (`IsTop`). So a
synopsis is made of sentences of its text, in their order.
-/

namespace Transclude.Digest

open List Sorting

variable {σ : Type} {S : σ → Prop} {less : σ → σ → Bool} {k : Int} {scored : List (σ × Nat)} {a b c : σ × Nat}

/-! ## Ranking -/

theorem ranksBefore_iff :
    ranksBefore less a b = true ↔ less b.1 a.1 = true ∨ less a.1 b.1 = false ∧ a.2 ≤ b.2 := by
  simp [ranksBefore]

theorem ranksBefore_total (less : σ → σ → Bool) (a b : σ × Nat) :
    (ranksBefore less a b || ranksBefore less b a) = true := by
  rw [Bool.or_eq_true, ranksBefore_iff, ranksBefore_iff]
  cases hab : less a.1 b.1 with
  | true => exact .inr (.inl rfl)
  | false =>
    cases hba : less b.1 a.1 with
    | true => exact .inl (.inl rfl)
    | false => rcases Nat.le_total a.2 b.2 with hle | hle <;> simp [hle]

theorem ranksBefore_trans (h : OrdersOn S less) (ha : S a.1) (hb : S b.1) (hc : S c.1)
    (hab : ranksBefore less a b = true) (hbc : ranksBefore less b c = true) : ranksBefore less a c = true := by
  rw [ranksBefore_iff] at *
  rcases hab with hba | ⟨hab, hle⟩ <;> rcases hbc with hcb | ⟨hbc, hle'⟩
  · exact .inl (h.less_trans hc hb ha hcb hba)
  · exact .inl ((h.between hb hc ha hba).resolve_left (by simp [hbc]))
  · exact .inl ((h.between hc ha hb hcb).resolve_right (by simp [hab]))
  · exact .inr ⟨h.not_less_trans hc hb ha hbc hab, hle.trans hle'⟩

theorem pairwise_ranked (h : OrdersOn S less) (hS : ∀ x ∈ scored, S x.1) :
    (scored.mergeSort (ranksBefore less)).Pairwise fun a b => ranksBefore less a b = true := by
  -- the order is total on the scores of the list only, so these are sorted with the proofs beside them
  have hmap := map_mergeSort (f := Subtype.val) (l := scored.attachWith (fun x => S x.1) hS)
    (r := fun a b => ranksBefore less a.1 b.1) (s := ranksBefore less) fun _ _ _ _ => rfl
  rw [attachWith_map_subtype_val] at hmap
  rw [← hmap, pairwise_map]
  have htrans (a b c : { x : σ × Nat // S x.1 }) := ranksBefore_trans h a.2 b.2 c.2
  exact pairwise_mergeSort htrans (fun a b => ranksBefore_total less a.1 b.1) _

/-! ## Selecting -/

/-- Whether places are those of the `k` best scores, in increasing order; of equal scores the first are taken. -/
structure IsTop (less : σ → σ → Bool) (k : Int) (scored : List (σ × Nat)) (top : List Nat) : Prop where
  increasing : top.Pairwise (· < ·)
  count : (top.length : Int) = min k scored.length
  places : ∀ i ∈ top, i ∈ scored.map (·.2)
  best : ∀ a ∈ scored, ∀ b ∈ scored, a.2 ∈ top → b.2 ∉ top →
    less b.1 a.1 = true ∨ tied less a.1 b.1 = true ∧ a.2 < b.2

theorem perm_selectTop (less : σ → σ → Bool) (hk : 0 ≤ k) (scored : List (σ × Nat)) :
    (selectTop less k scored).Perm (((scored.mergeSort (ranksBefore less)).take k.toNat).map (·.2)) := by
  rw [selectTop, takeFirst, if_neg (by omega)]
  exact mergeSort_perm ..

theorem mem_selectTop (hk : 0 ≤ k) {i : Nat} :
    i ∈ selectTop less k scored ↔ ∃ a ∈ (scored.mergeSort (ranksBefore less)).take k.toNat, a.2 = i := by
  rw [(perm_selectTop less hk scored).mem_iff, mem_map]

theorem pairwise_selectTop (hk : 0 ≤ k) (hnodup : (scored.map (·.2)).Nodup) :
    (selectTop less k scored).Pairwise (· < ·) := by
  have hle : (selectTop less k scored).Pairwise fun i j => decide (i ≤ j) = true :=
    pairwise_mergeSort (fun _ _ _ h h' => by simp at *; omega) (fun _ _ => by simp; omega) _
  have hne : (selectTop less k scored).Nodup := by
    rw [(perm_selectTop less hk scored).nodup_iff]
    exact (((mergeSort_perm scored _).map _).nodup_iff.2 hnodup).sublist ((take_sublist _ _).map _)
  exact (hle.and hne).imp fun h => Nat.lt_of_le_of_ne (of_decide_eq_true h.1) h.2

theorem length_selectTop (less : σ → σ → Bool) (hk : 0 ≤ k) (scored : List (σ × Nat)) :
    ((selectTop less k scored).length : Int) = min k scored.length := by
  rw [(perm_selectTop less hk scored).length_eq, length_map, length_take, length_mergeSort]
  omega

theorem mem_places (hk : 0 ≤ k) {i : Nat} (h : i ∈ selectTop less k scored) : i ∈ scored.map (·.2) := by
  obtain ⟨a, ha, rfl⟩ := (mem_selectTop hk).1 h
  exact mem_map_of_mem (mem_mergeSort.1 (mem_of_mem_take ha))

theorem isTop_selectTop (h : OrdersOn S less) (hS : ∀ x ∈ scored, S x.1) (hnodup : (scored.map (·.2)).Nodup)
    (hk : 0 ≤ k) : IsTop less k scored (selectTop less k scored) where
  increasing := pairwise_selectTop hk hnodup
  count := length_selectTop less hk scored
  places _ := mem_places hk
  best a ha b hb hmem hnot := by
    -- what was cut off ranks behind all that was taken
    have hranked := pairwise_ranked h hS
    rw [← take_append_drop k.toNat (scored.mergeSort (ranksBefore less))] at hranked
    obtain ⟨a', ha', hplace⟩ := (mem_selectTop hk).1 hmem
    obtain rfl : a' = a :=
      inj_on_of_nodup_map hnodup (mem_mergeSort.1 (mem_of_mem_take ha')) ha hplace
    have hdropped : b ∈ (scored.mergeSort (ranksBefore less)).drop k.toNat := by
      have hsort : b ∈ scored.mergeSort (ranksBefore less) := mem_mergeSort.2 hb
      rw [← take_append_drop k.toNat (scored.mergeSort (ranksBefore less)), mem_append] at hsort
      exact hsort.resolve_left fun hb' => hnot ((mem_selectTop hk).2 ⟨b, hb', rfl⟩)
    have hbefore := (pairwise_append.1 hranked).2.2 a' ha' b hdropped
    rw [ranksBefore_iff] at hbefore
    cases hless : less b.1 a'.1 with
    | true => exact .inl rfl
    | false =>
      obtain ⟨htie, hle⟩ := hbefore.resolve_left (by simp [hless])
      exact .inr ⟨tied_eq_true_iff.2 ⟨htie, hless⟩, Nat.lt_of_le_of_ne hle fun heq => hnot (heq ▸ hmem)⟩

/-! ## Quotes -/

theorem sublist_filterMap_getElem? {α : Type} {xs : List α} {places : List Nat} (h : places.Pairwise (· < ·)) :
    (places.filterMap (xs[·]?)).Sublist xs := by
  let valid (i : Nat) : Option (Fin xs.length) := if hi : i < xs.length then some ⟨i, hi⟩ else none
  have hvalid : ∀ {i : Nat} {j : Fin xs.length}, valid i = some j → i = j := by
    intro i j hj
    simp only [valid, Option.dite_none_right_eq_some, Option.some.injEq] at hj
    obtain ⟨_, rfl⟩ := hj
    rfl
  have hget : (fun i => xs[i]?) = fun i => (valid i).map fun j => xs[j] := by
    funext i
    by_cases hi : i < xs.length <;> simp [valid, hi]
  rw [hget, ← map_filterMap]
  refine map_getElem_sublist (h.filterMap valid fun i i' hlt j hj j' hj' => ?_)
  rw [Fin.lt_def, ← hvalid hj, ← hvalid hj']
  exact hlt

def quoted (sentences : List (List Char × Nat)) : String :=
  "> " ++ " ".intercalate (sentences.map fun s => String.ofList s.1) ++ "\n"

def Request.chosen (r : Request) (sentences : List (List Char × Nat)) (scores : List Number.Binary64) : List Nat :=
  selectBest r.maxSentences (weighted scores (sentences.map (·.2)))

theorem quote_eq (r : Request) (sentences : List (List Char × Nat)) (scores : List Number.Binary64) :
    r.quote sentences scores = quoted ((r.chosen sentences scores).filterMap (sentences[·]?)) := by
  rw [quoted, map_filterMap]
  rfl

theorem nodup_places (scores : List Number.Binary64) : (scores.zipIdx.map (·.2)).Nodup := by
  rw [zipIdx_map_snd]
  exact nodup_range'

theorem Request.check_eq {r : Request} (hmax : 1 ≤ r.maxSentences) (hsecs : 0 ≤ r.sections) :
    r.check = .ok () := by
  rw [Request.check, if_neg (by omega), if_neg (by omega)]

/-- Of scores at different places the best ones are selected, with each more place that is asked for one more of them.
Hence a synopsis quotes at most so many sentences of its text as are asked for, in their order. -/
theorem synopsis_of_best :
    (∀ (σ : Type) (S : σ → Prop) (less : σ → σ → Bool) (scored : List (σ × Nat)) (k : Int), OrdersOn S less →
      (∀ x ∈ scored, S x.1) → (scored.map (·.2)).Nodup → 1 ≤ k →
        IsTop less k scored (selectTop less k scored) ∧
        selectTop less k scored ⊆ selectTop less (k + 1) scored) ∧
    ∀ (r : Request) (algorithm : String) (text : List Char), 1 ≤ r.maxSentences → 0 ≤ r.sections →
      r.sentences text = [] ∧ synopsis r algorithm text = .ok noSynopsis ∨
      ∃ best, best.Sublist (r.sentences text) ∧ (best.length : Int) ≤ r.maxSentences ∧
        synopsis r algorithm text = .ok (quoted best) := by
  refine ⟨fun σ S less scored k h hS hnodup hk => ⟨isTop_selectTop h hS hnodup (by omega), fun i hi => ?_⟩,
    fun r algorithm text hmax hsecs => ?_⟩
  · obtain ⟨a, ha, rfl⟩ := (mem_selectTop (by omega)).1 hi
    exact (mem_selectTop (by omega)).2 ⟨a, take_subset_take_left _ (by omega) ha, rfl⟩
  · rw [synopsis, Request.check_eq hmax hsecs]
    dsimp only [Bind.bind, Except.bind]
    by_cases hempty : r.sentences text = []
    · exact .inl ⟨hempty, by rw [hempty]; rfl⟩
    · rw [if_neg (by simpa using hempty), quote_eq]
      refine .inr ⟨_, sublist_filterMap_getElem? (pairwise_selectTop (by omega) (nodup_places _)), ?_, rfl⟩
      refine (Int.ofNat_le.2 (length_filterMap_le _ _)).trans ?_
      rw [length_selectTop Number.Binary64.lt (by omega)]
      exact min_le_left ..

theorem selectTop_of_ties :
    IsTop (fun m n : Nat => decide (m < n)) 2 [(1, 0), (2, 1), (2, 2), (2, 3)]
      (selectTop (fun m n => decide (m < n)) 2 [(1, 0), (2, 1), (2, 2), (2, 3)]) ∧
    ∃ best, best.Sublist (Request.sentences {} "A cat sat. It ran away.".toList) ∧ (best.length : Int) ≤ 3 ∧
      synopsis {} "luhn" "A cat sat. It ran away.".toList = .ok (quoted best) := by
  have horder : OrdersOn (fun _ => True) fun m n : Nat => decide (m < n) := .of_rank id (by simp)
  have hsome : Request.sentences {} "A cat sat. It ran away.".toList ≠ [] := by decide
  exact ⟨(synopsis_of_best.1 Nat _ _ _ 2 horder (by simp) (by decide) (by decide)).1,
    (synopsis_of_best.2 {} "luhn" _ (by decide) (by decide)).resolve_left fun h => hsome h.1⟩

end Transclude.Digest
