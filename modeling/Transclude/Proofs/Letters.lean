import Mathlib.Data.List.DropRight
import Transclude.Proofs.Scanning
import Transclude.Text.Case

/-!
# Letter case and the ends of texts

A text that is stripped of some characters has none of them at its ends, and one that has none is left as it is. Lower
case is a matter of single letters but for the capital sigma and the capital I with a dot, and changes nothing the
second time.
-/

namespace Transclude.Text

open List

variable {cs : List Char} {c : Char} {p : Char → Bool}

/-! ## Stripped texts -/

def FreeEnds (p : Char → Bool) (cs : List Char) : Prop :=
  (∀ c ∈ cs.head?, p c = false) ∧ ∀ c ∈ cs.getLast?, p c = false

theorem freeEnds_strip (p : Char → Bool) (cs : List Char) : FreeEnds p (rdropWhile p (cs.dropWhile p)) := by
  constructor
  · intro c hc
    obtain ⟨tail, htail⟩ := rdropWhile_prefix p (cs.dropWhile p)
    obtain ⟨front, hfront⟩ := head?_eq_some_iff.1 hc
    have hnot := head?_dropWhile_not p cs
    rw [← htail, hfront] at hnot
    exact hnot
  · intro c hc
    obtain ⟨hne, rfl⟩ := mem_getLast?_eq_getLast hc
    simpa using rdropWhile_last_not p _ hne

theorem mem_of_mem_strip (h : c ∈ rdropWhile p (cs.dropWhile p)) : c ∈ cs :=
  (dropWhile_sublist p).subset (( rdropWhile_prefix p _).subset h)

theorem rdropWhile_of_last (h : ∀ c ∈ cs.getLast?, p c = false) : rdropWhile p cs = cs :=
  rdropWhile_eq_self_iff.2 fun hne => by simp [h _ (getLast?_eq_some_getLast hne)]

theorem FreeEnds.strip_eq (h : FreeEnds p cs) : rdropWhile p (cs.dropWhile p) = cs := by
  have hstart : cs.dropWhile p = cs := by
    cases cs with
    | nil => rfl
    | cons c cs => exact dropWhile_cons_of_neg (by simp [h.1 c rfl])
  rw [hstart, rdropWhile_of_last h.2]

theorem FreeEnds.of_map_eq {ds : List Char} (h : FreeEnds p cs) (hmap : ds.map p = cs.map p) : FreeEnds p ds := by
  constructor
  · intro c hc
    have hhead : cs.head?.map p = some (p c) := by rw [← head?_map, ← hmap, head?_map, hc]; rfl
    obtain ⟨a, ha, hp⟩ := Option.map_eq_some_iff.1 hhead
    exact hp ▸ h.1 a ha
  · intro c hc
    have hlast : cs.getLast?.map p = some (p c) := by rw [← getLast?_map, ← hmap, getLast?_map, hc]; rfl
    obtain ⟨a, ha, hp⟩ := Option.map_eq_some_iff.1 hlast
    exact hp ▸ h.2 a ha

theorem freeEnds_of_trim (h : trim cs = cs) : FreeEnds isBlank cs :=
  h ▸ freeEnds_strip isBlank cs

theorem freeEnds_of_forall (h : ∀ c ∈ cs, p c = false) : FreeEnds p cs :=
  ⟨fun c hc => h c (mem_of_mem_head? hc), fun c hc => h c (mem_of_mem_getLast? hc)⟩

theorem trim_token (h : ∀ c ∈ cs, isBlank c = false) : trim cs = cs := (freeEnds_of_forall h).strip_eq

theorem trimStart_append {blanks : List Char} (h : allBlank blanks = true) (rest : List Char) :
    trimStart (blanks ++ rest) = trimStart rest :=
  dropWhile_append_of_pos (all_eq_true.1 h)

/-! ## Letters -/

section Tables

variable {n : Nat}

/-- Whether no number from `first` to `last` is in one of the ranges. -/
def avoids (ranges : List (Nat × Nat)) (first last : Nat) : Bool :=
  -- not by `<`, for whole tables are checked against each other by computation
  ranges.all fun r => Nat.blt last r.1 || Nat.blt r.2 first

/-- Whether no number from `first` to `last` at an even distance from `first` is a capital of a range of pairs. -/
def avoidsPairs (first last : Nat) : Bool :=
  pairedRanges.all fun r => Nat.blt last r.1 || Nat.blt r.2 first || first % 2 != r.1 % 2

def capitals : List (Nat × Nat) := capitalRuns.map fun r => (r.1.toNat, r.2.1.toNat)

theorem apart_of_avoids {ranges : List (Nat × Nat)} {first last : Nat} (h : avoids ranges first last = true)
    (hfirst : first ≤ n) (hlast : n ≤ last) : ∀ r ∈ ranges, n < r.1 ∨ r.2 < n := by
  intro r hr
  have hapart := all_eq_true.1 h r hr
  simp only [Bool.or_eq_true, Nat.blt_eq] at hapart
  omega

theorem apart_of_avoidsPairs {first last : Nat} (h : avoidsPairs first last = true) (hfirst : first ≤ n)
    (hlast : n ≤ last) (hn : n % 2 = first % 2) : ∀ r ∈ pairedRanges, n < r.1 ∨ r.2 < n ∨ n % 2 ≠ r.1 % 2 := by
  intro r hr
  have hapart := all_eq_true.1 h r hr
  simp only [Bool.or_eq_true, Nat.blt_eq, bne_iff_ne] at hapart
  omega

theorem toNat_ofNat (n : Nat) : (Char.ofNat n).toNat = n ∨ Char.ofNat n = Char.ofNat 0 := by
  by_cases h : n.isValidChar
  · exact .inl (by rw [Char.ofNat, dif_pos h]; rfl)
  · exact .inr (by rw [Char.ofNat, dif_neg h]; rfl)

theorem isBlank_ofNat (h : ∀ r ∈ blankRanges, n < r.1 ∨ r.2 < n) : isBlank (Char.ofNat n) = false := by
  rcases toNat_ofNat n with hn | hn
  · refine any_eq_false.2 fun r hr => ?_
    have hapart := h r hr
    rw [Bool.and_eq_true, decide_eq_true_iff, decide_eq_true_iff]
    omega
  · rw [hn]
    decide

theorem isBlank_eq_false {c : Char} (h : ∀ r ∈ blankRanges, c.toNat < r.1 ∨ r.2 < c.toNat) : isBlank c = false :=
  Char.ofNat_toNat c ▸ isBlank_ofNat h

/-- A letter is small, or a capital at an even distance within a range of pairs or in a run of capitals, whose lower
case is known. -/
theorem lowerChar_cases (c : Char) :
    c.toNat < 0x80 ∧ lowerChar c = c.toLower ∨
    (∃ r ∈ pairedRanges, r.1 ≤ c.toNat ∧ c.toNat ≤ r.2 ∧ c.toNat % 2 = r.1 % 2 ∧ lowerChar c = Char.ofNat (c.toNat + 1)) ∨
    (∃ r ∈ capitalRuns, r.1 ≤ c.toNat ∧ c.toNat ≤ r.2.1 ∧ lowerChar c = Char.ofNat (c.toNat + r.2.2).toNat) ∨
    lowerChar c = c := by
  unfold lowerChar
  split_ifs with hsmall hpair
  · exact .inl ⟨hsmall, rfl⟩
  · obtain ⟨r, hr, hc⟩ := any_eq_true.1 hpair
    simp only [Bool.and_eq_true, decide_eq_true_eq, beq_iff_eq] at hc
    exact .inr (.inl ⟨r, hr, hc.1.1, hc.1.2, by omega, rfl⟩)
  · split
    · rename_i hfind
      have hc := find?_some hfind
      simp only [Bool.and_eq_true, decide_eq_true_eq] at hc
      exact .inr (.inr (.inl ⟨_, mem_of_find?_eq_some hfind, hc.1, hc.2, rfl⟩))
    · exact .inr (.inr (.inr rfl))

/-- Capitals are no blanks. Neither are their lower cases, which are no capitals. -/
theorem capitals_apart : (∀ x ∈ pairedRanges, 0x80 ≤ x.1 ∧ avoids blankRanges x.1 (x.2 + 1) = true ∧
      avoidsPairs (x.1 + 1) (x.2 + 1) = true ∧ avoids capitals (x.1 + 1) (x.2 + 1) = true) ∧
    ∀ x ∈ capitalRuns, 90 < x.1 + x.2.2 ∧ avoids blankRanges x.1.toNat x.2.1.toNat = true ∧
      avoids blankRanges (x.1 + x.2.2).toNat (x.2.1 + x.2.2).toNat = true ∧
      ( avoids pairedRanges (x.1 + x.2.2).toNat (x.2.1 + x.2.2).toNat = true ∨
        x.1 = x.2.1 ∧ avoidsPairs (x.1 + x.2.2).toNat (x.2.1 + x.2.2).toNat = true) ∧
      avoids capitals (x.1 + x.2.2).toNat (x.2.1 + x.2.2).toNat = true := by
  decide +kernel

theorem toLower_small : ∀ n < 0x80, (n < 65 ∨ 90 < n → (Char.ofNat n).toLower = Char.ofNat n) ∧
    isBlank (Char.ofNat n).toLower = isBlank (Char.ofNat n) ∧
    lowerChar (Char.ofNat n).toLower = (Char.ofNat n).toLower := by
  decide +kernel

theorem lowerChar_ofNat (hsmall : n < 0x80 → n < 65 ∨ 90 < n)
    (hpairs : ∀ r ∈ pairedRanges, n < r.1 ∨ r.2 < n ∨ n % 2 ≠ r.1 % 2)
    (hruns : ∀ r ∈ capitals, n < r.1 ∨ r.2 < n) : lowerChar (Char.ofNat n) = Char.ofNat n := by
  rcases toNat_ofNat n with hn | hn
  · rcases hn ▸ lowerChar_cases (Char.ofNat n) with ⟨hn, hc⟩ | ⟨r, hr, hc⟩ | ⟨r, hr, hc⟩ | hc
    · rw [hc, (toLower_small n hn).1 (hsmall hn)]
    · have := hpairs r hr
      omega
    · have := hruns (r.1.toNat, r.2.1.toNat) (mem_map_of_mem hr)
      omega
    · exact hc
  · rw [hn]
    exact (toLower_small 0 (by decide)).1 (.inl (by decide))

theorem isBlank_lowerChar (c : Char) : isBlank (lowerChar c) = isBlank c := by
  rcases lowerChar_cases c with ⟨hsmall, hc⟩ | ⟨x, hx, hfirst, hlast, -, hc⟩ | ⟨x, hx, hfirst, hlast, hc⟩ | hc
  · simpa [hc] using (toLower_small c.toNat hsmall).2.1
  · obtain ⟨-, hblank, -⟩ := capitals_apart.1 x hx
    rw [hc, isBlank_ofNat (apart_of_avoids hblank (by omega) (by omega)),
      isBlank_eq_false (apart_of_avoids hblank hfirst (by omega))]
  · obtain ⟨-, hcapital, hlower, -⟩ := capitals_apart.2 x hx
    rw [hc, isBlank_ofNat (apart_of_avoids hlower (by omega) (by omega)),
      isBlank_eq_false (apart_of_avoids hcapital (by omega) (by omega))]
  · rw [hc]

theorem lowerChar_lowerChar (c : Char) : lowerChar (lowerChar c) = lowerChar c := by
  rcases lowerChar_cases c with ⟨hsmall, hc⟩ | ⟨x, hx, hfirst, hlast, hparity, hc⟩ | ⟨x, hx, hfirst, hlast, hc⟩ | hc
  · simpa [hc] using (toLower_small c.toNat hsmall).2.2
  · obtain ⟨hlarge, -, hpairs, hothers⟩ := capitals_apart.1 x hx
    rw [hc]
    exact lowerChar_ofNat (by omega) (apart_of_avoidsPairs hpairs (by omega) (by omega) (by omega))
      (apart_of_avoids hothers (by omega) (by omega))
  · obtain ⟨hlarge, -, -, hpairs, hothers⟩ := capitals_apart.2 x hx
    rw [hc]
    refine lowerChar_ofNat (by omega) (fun r hr => ?_) (apart_of_avoids hothers (by omega) (by omega))
    rcases hpairs with hpairs | ⟨hsingle, hpairs⟩
    · exact (apart_of_avoids hpairs (by omega) (by omega) r hr).imp_right .inl
    · exact apart_of_avoidsPairs hpairs (by omega) (by omega) (by omega) r hr
  · rw [hc, hc]

end Tables

/-! ## Texts in lower case -/

/-- The letters that have rules of their own, and what they become. -/
theorem lowerChar_special : (lowerChar 'ς' = 'ς' ∧ lowerChar 'σ' = 'σ') ∧
    (lowerChar 'i' = 'i' ∧ lowerChar '\u0307' = '\u0307') ∧ lowerChar 'Σ' ≠ 'Σ' ∧ lowerChar 'İ' ≠ 'İ' := by
  decide +kernel

theorem lowerChar_of_mem_lowerAfter {before : List Char} (h : c ∈ lowerAfter before cs) : lowerChar c = c := by
  induction cs generalizing before with
  | nil => cases h
  | cons d cs ih =>
    rcases mem_append.1 h with h | h
    · split_ifs at h
      · rw [mem_singleton.1 h, lowerChar_special.1.1]
      · rw [mem_singleton.1 h, lowerChar_special.1.2]
      · simp only [mem_cons, not_mem_nil, or_false] at h
        rcases h with rfl | rfl
        · exact lowerChar_special.2.1.1
        · exact lowerChar_special.2.1.2
      · rw [mem_singleton.1 h, lowerChar_lowerChar]
    · exact ih h

theorem lowerAfter_eq_map (h : ∀ c ∈ cs, c ≠ 'Σ' ∧ c ≠ 'İ') (before : List Char) :
    lowerAfter before cs = cs.map lowerChar := by
  induction cs generalizing before with
  | nil => rfl
  | cons c cs ih =>
    rw [forall_mem_cons] at h
    rw [lowerAfter, if_neg (by simp [h.1.1]), if_neg (by simp [h.1.2]), ih h.2]
    rfl

theorem lowerChars_eq_self (h : ∀ c ∈ cs, lowerChar c = c) : lowerChars cs = cs := by
  obtain ⟨-, -, hsigma, hdotted⟩ := lowerChar_special
  rw [lowerChars, lowerAfter_eq_map fun c hc => ⟨fun he => hsigma (he ▸ h c hc), fun he => hdotted (he ▸ h c hc)⟩,
    map_congr_left h, map_id']

end Transclude.Text
