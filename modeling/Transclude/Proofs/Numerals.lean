import Mathlib.Data.List.Basic
import Mathlib.Data.List.TakeWhile
import Transclude.Number.Reading

/-!
# Integers in texts

The grammar of what `readInt` reads: digits of any script with single underscores between them (`Grouped`), at most
one sign before them (`Signed`), and blanks around (`Spells`, `readInt_eq_ok_iff`).
-/

namespace Transclude.Number

open List Text

/-! ## Digits of every script -/

def plainDigit (c : Char) : Char := ((digitValue? c).map fun n => Char.ofNat (48 + n)).getD c

section Digits

variable {c d : Char}

theorem plainDigits_eq_map (cs : List Char) : plainDigits cs = cs.map plainDigit := by
  refine map_congr_left fun c _ => ?_
  rw [plainDigit]
  cases digitValue? c <;> rfl

theorem exists_zero (h : isDecimal c = true) : ∃ z ∈ zeros, z ≤ c.toNat ∧ c.toNat ≤ z + 9 := by
  rw [isDecimal, digitValue?] at h
  split_ifs at h with hsmall hdigit
  · exact ⟨0x30, mem_cons_self, Char.isDigit_iff_toNat.1 hdigit⟩
  · cases h
  · rw [Option.isSome_map, List.find?_isSome] at h
    obtain ⟨z, hz, hrange⟩ := h
    rw [Bool.and_eq_true, decide_eq_true_iff, decide_eq_true_iff] at hrange
    exact ⟨z, hz, hrange⟩

theorem isBlank_of_isDecimal (h : isDecimal c = true) : isBlank c = false := by
  have hapart : ∀ z ∈ zeros, ∀ r ∈ blankRanges, z + 9 < r.1 ∨ r.2 < z := by decide
  obtain ⟨z, hz, hrange⟩ := exists_zero h
  rw [isBlank, within, any_eq_false]
  intro r hr hblank
  rw [Bool.and_eq_true, decide_eq_true_iff, decide_eq_true_iff] at hblank
  have := hapart z hz r hr
  omega

theorem lt_of_digitValue? {n : Nat} (h : digitValue? c = some n) : n < 10 := by
  rw [digitValue?] at h
  split_ifs at h with hsmall hdigit
  · have hrange := Char.isDigit_iff_toNat.1 hdigit
    obtain rfl := Option.some.inj h
    simp only [Char.reduceToNat] at hrange
    omega
  · obtain ⟨z, hz, rfl⟩ := Option.map_eq_some_iff.1 h
    have hrange := List.find?_some hz
    rw [Bool.and_eq_true, decide_eq_true_iff, decide_eq_true_iff] at hrange
    omega

theorem digitValue?_plainDigit (c : Char) : digitValue? (plainDigit c) = digitValue? c := by
  have hten : ∀ n < 10, digitValue? (Char.ofNat (48 + n)) = some n := by decide
  cases hval : digitValue? c with
  | none => rw [plainDigit, hval, Option.map_none, Option.getD_none, hval]
  | some n => rw [plainDigit, hval, Option.map_some, Option.getD_some, hten n (lt_of_digitValue? hval)]

theorem plainDigit_of_not_isDecimal (h : isDecimal c = false) : plainDigit c = c := by
  rw [isDecimal, Option.isSome_eq_false_iff, Option.isNone_iff_eq_none] at h
  rw [plainDigit, h, Option.map_none, Option.getD_none]

theorem digitValue?_of_isDigit (h : c.isDigit = true) : digitValue? c = some (c.toNat - 48) := by
  have hsmall : c.toNat < 0x80 := by
    have hle : c.toNat ≤ 57 := (Char.isDigit_iff_toNat.1 h).2
    omega
  rw [digitValue?, if_pos hsmall, if_pos h]

theorem isDecimal_of_isDigit (h : c.isDigit = true) : isDecimal c = true := by
  rw [isDecimal, digitValue?_of_isDigit h, Option.isSome_some]

theorem isDigit_plainDigit (c : Char) : (plainDigit c).isDigit = isDecimal c := by
  have hten : ∀ n < 10, (Char.ofNat (48 + n)).isDigit = true := by decide
  cases hval : digitValue? c with
  | none =>
    have hdec : isDecimal c = false := by rw [isDecimal, hval, Option.isSome_none]
    rw [plainDigit_of_not_isDecimal hdec, hdec, ← Bool.not_eq_true]
    exact fun hdigit => Bool.false_ne_true (hdec ▸ isDecimal_of_isDigit hdigit)
  | some n =>
    rw [plainDigit, isDecimal, hval, Option.map_some, Option.getD_some, hten n (lt_of_digitValue? hval),
      Option.isSome_some]

theorem plainDigit_eq_iff (hd : isDecimal d = false) : plainDigit c = d ↔ c = d := by
  cases hc : isDecimal c with
  | true =>
    refine iff_of_false (fun h => ?_) (fun h => ?_)
    · rw [isDecimal, ← h, digitValue?_plainDigit, ← isDecimal, hc] at hd
      cases hd
    · rw [h, hd] at hc
      cases hc
  | false => rw [plainDigit_of_not_isDecimal hc]

theorem digitsValue_concat (cs : List Char) (c : Char) :
    digitsValue (cs ++ [c]) = 10 * digitsValue cs + (digitValue? c).getD 0 := by
  rw [digitsValue, foldl_append]
  rfl

theorem digitsValue_map_plainDigit (cs : List Char) : digitsValue (cs.map plainDigit) = digitsValue cs := by
  simp only [digitsValue, foldl_map, digitValue?_plainDigit]

end Digits

/-! ## The grammar -/

inductive Follows : List Char → List Char → Prop
  | nil : Follows [] []
  | digit {c : Char} {cs ds : List Char} (hc : isDecimal c = true) (hrest : Follows cs ds) : Follows (c :: cs) (c :: ds)
  | underscore {c : Char} {cs ds : List Char} (hc : isDecimal c = true) (hrest : Follows cs ds) :
      Follows ('_' :: c :: cs) (c :: ds)

inductive Grouped : List Char → List Char → Prop
  | intro {c : Char} {cs ds : List Char} (hc : isDecimal c = true) (hrest : Follows cs ds) : Grouped (c :: cs) (c :: ds)

inductive Signed : List Char → Int → Prop
  | plain {cs ds : List Char} (h : Grouped cs ds) (hlen : ds.length ≤ maxDigits) : Signed cs (digitsValue ds)
  | plus {cs ds : List Char} (h : Grouped cs ds) (hlen : ds.length ≤ maxDigits) : Signed ('+' :: cs) (digitsValue ds)
  | minus {cs ds : List Char} (h : Grouped cs ds) (hlen : ds.length ≤ maxDigits) :
      Signed ('-' :: cs) (-(digitsValue ds : Int))

def Spells (s : String) (n : Int) : Prop :=
  ∃ before written after, s.toList = before ++ written ++ after ∧ (∀ c ∈ before, isNumberBlank c = true) ∧
    (∀ c ∈ after, isNumberBlank c = true) ∧ Signed written n

/-! ## Underscores -/

section Underscores

variable {before : Option Char} {b c : Char} {cs ds digits : List Char}

theorem dropUnderscores?_cons (hc : c ≠ '_') :
    dropUnderscores? before (c :: cs) = (dropUnderscores? (some c) cs).map (c :: ·) := by
  rw [dropUnderscores?]
  exact hc

theorem dropUnderscores?_digit (hc : isDecimal c = true) : dropUnderscores? before ((c :: cs).map plainDigit) =
      (dropUnderscores? (some (plainDigit c)) (cs.map plainDigit)).map (plainDigit c :: ·) := by
  refine dropUnderscores?_cons fun heq => ?_
  obtain rfl := (plainDigit_eq_iff (by decide)).1 heq
  cases hc

theorem dropUnderscores?_underscore (hb : b.isDigit = true) (hc : isDecimal c = true) :
    dropUnderscores? (some b) (('_' :: c :: cs).map plainDigit) =
      (dropUnderscores? (some (plainDigit c)) (cs.map plainDigit)).map (plainDigit c :: ·) := by
  have hplain : plainDigit '_' = '_' := plainDigit_of_not_isDecimal (by decide)
  rw [map_cons, hplain, dropUnderscores?, map_cons, Option.any_some, hb, List.head?_cons, Option.any_some,
    isDigit_plainDigit, hc, Bool.and_self, if_pos rfl, ← map_cons, dropUnderscores?_digit hc]

theorem Follows.dropUnderscores? (h : Follows cs ds) (hb : b.isDigit = true) :
    dropUnderscores? (some b) (cs.map plainDigit) = some (ds.map plainDigit) := by
  induction h generalizing b with
  | nil => rfl
  | digit hc hrest ih =>
    rw [dropUnderscores?_digit hc, ih (by rw [isDigit_plainDigit, hc])]
    rfl
  | underscore hc hrest ih =>
    rw [dropUnderscores?_underscore hb hc, ih (by rw [isDigit_plainDigit, hc])]
    rfl

theorem exists_of_dropUnderscores?_cons (hc : c ≠ '_')
    (h : dropUnderscores? before ((c :: cs).map plainDigit) = some digits) (hdigs : digits.all Char.isDigit = true) :
    isDecimal c = true ∧ ∃ rest, dropUnderscores? (some (plainDigit c)) (cs.map plainDigit) = some rest ∧
      rest.all Char.isDigit = true ∧ digits = plainDigit c :: rest := by
  rw [map_cons, dropUnderscores?_cons (mt (plainDigit_eq_iff (by decide)).1 hc)] at h
  obtain ⟨rest, hrest, rfl⟩ := Option.map_eq_some_iff.1 h
  rw [all_cons, Bool.and_eq_true, isDigit_plainDigit] at hdigs
  exact ⟨hdigs.1, rest, hrest, hdigs.2, rfl⟩

theorem follows_of_dropUnderscores? (hbefore : before.any Char.isDigit = true ∨ cs.head?.any isDecimal = true)
    (h : dropUnderscores? before (cs.map plainDigit) = some digits) (hdigs : digits.all Char.isDigit = true) :
    ∃ ds, Follows cs ds ∧ digits = ds.map plainDigit := by
  induction cs generalizing before digits with
  | nil =>
    obtain rfl := Option.some.inj h
    exact ⟨[], .nil, rfl⟩
  | cons c cs ih =>
    by_cases hc : c = '_'
    · subst hc
      rw [map_cons, plainDigit_of_not_isDecimal (by decide), dropUnderscores?] at h
      split_ifs at h with hboth
      have hnext := ((Bool.and_eq_true _ _).mp hboth).2
      cases cs with
      | nil => cases hnext
      | cons d cs =>
        rw [map_cons, List.head?_cons, Option.any_some, isDigit_plainDigit] at hnext
        obtain ⟨ds, hds, rfl⟩ := ih (.inr hnext) h hdigs
        refine ⟨ds, ?_, rfl⟩
        -- An underscore is taken together with the digit after it.
        cases hds with
        | digit hd hrest => exact .underscore hd hrest
        | underscore hd hrest => exact absurd hnext (by decide)
    · obtain ⟨hdec, rest, hrest, hall, rfl⟩ := exists_of_dropUnderscores?_cons hc h hdigs
      obtain ⟨ds, hds, rfl⟩ := ih (.inl (by rw [Option.any_some, isDigit_plainDigit, hdec])) hrest hall
      exact ⟨c :: ds, .digit hdec hds, rfl⟩

theorem Follows.isDecimal (h : Follows cs ds) : ∀ d ∈ ds, isDecimal d = true := by
  induction h with
  | nil => exact fun _ hd => absurd hd not_mem_nil
  | digit hc hrest ih => exact forall_mem_cons.2 ⟨hc, ih⟩
  | underscore hc hrest ih => exact forall_mem_cons.2 ⟨hc, ih⟩

theorem Grouped.isDecimal (h : Grouped cs ds) : ∀ d ∈ ds, isDecimal d = true := by
  obtain ⟨hc, hrest⟩ := h
  exact forall_mem_cons.2 ⟨hc, hrest.isDecimal⟩

theorem exists_grouped_iff : (∃ ds, Grouped cs ds ∧ digits = ds.map plainDigit) ↔
      dropUnderscores? none (cs.map plainDigit) = some digits ∧ digits ≠ [] ∧ digits.all Char.isDigit = true := by
  constructor
  · rintro ⟨ds, h, rfl⟩
    have hall : (ds.map plainDigit).all Char.isDigit = true := by
      rw [all_map, all_eq_true]
      exact fun d hd => (isDigit_plainDigit d).trans (h.isDecimal d hd)
    obtain ⟨hc, hrest⟩ := h
    refine ⟨?_, cons_ne_nil _ _, hall⟩
    rw [dropUnderscores?_digit hc, hrest.dropUnderscores? (by rw [isDigit_plainDigit, hc])]
    rfl
  · rintro ⟨h, hne, hdigs⟩
    cases cs with
    | nil => exact absurd (Option.some.inj h).symm hne
    | cons c cs =>
      by_cases hc : c = '_'
      · subst hc
        cases h
      · obtain ⟨hdec, rest, hrest, hall, rfl⟩ := exists_of_dropUnderscores?_cons hc h hdigs
        obtain ⟨ds, hds, rfl⟩ :=
          follows_of_dropUnderscores? (.inl (by rw [Option.any_some, isDigit_plainDigit, hdec])) hrest hall
        exact ⟨c :: ds, ⟨hdec, hds⟩, rfl⟩

end Underscores

/-! ## Blanks -/

section Blanks

variable {cs ds before written after : List Char} {n : Int}

theorem dropWhile_append_of_head {p : Char → Bool} {front rest : List Char} (hfront : ∀ c ∈ front, p c = true)
    (hrest : ∀ c ∈ rest.head?, p c = false) : (front ++ rest).dropWhile p = rest := by
  rw [dropWhile_append_of_pos hfront]
  cases rest with
  | nil => rfl
  | cons c rest => rw [dropWhile_cons, hrest c rfl, if_neg Bool.false_ne_true]

theorem trimNumber_append (hbefore : ∀ c ∈ before, isNumberBlank c = true)
    (hafter : ∀ c ∈ after, isNumberBlank c = true) (hne : written ≠ [])
    (hwritten : ∀ c ∈ written, isNumberBlank c = false) : trimNumber (before ++ written ++ after) = written := by
  have hfront : (before ++ written ++ after).dropWhile isNumberBlank = written ++ after := by
    rw [append_assoc]
    refine dropWhile_append_of_head hbefore fun c hc => hwritten c ?_
    obtain ⟨first, rest, rfl⟩ := exists_cons_of_ne_nil hne
    obtain rfl : first = c := Option.some.inj hc
    exact mem_cons_self
  have hback : (written ++ after).reverse.dropWhile isNumberBlank = written.reverse := by
    rw [reverse_append]
    refine dropWhile_append_of_head (fun c hc => hafter c (mem_reverse.1 hc)) fun c hc => ?_
    exact hwritten c (mem_reverse.1 (mem_of_mem_head? hc))
  rw [trimNumber, hfront, hback, reverse_reverse]

theorem exists_trimNumber (cs : List Char) :
    ∃ before after, cs = before ++ trimNumber cs ++ after ∧ (∀ c ∈ before, isNumberBlank c = true) ∧
      ∀ c ∈ after, isNumberBlank c = true := by
  refine ⟨cs.takeWhile isNumberBlank, ((cs.dropWhile isNumberBlank).reverse.takeWhile isNumberBlank).reverse, ?_,
    fun c hc => mem_takeWhile_imp hc, fun c hc => mem_takeWhile_imp (mem_reverse.1 hc)⟩
  rw [trimNumber, append_assoc, ← reverse_append, takeWhile_append_dropWhile, reverse_reverse,
    takeWhile_append_dropWhile]

theorem Follows.not_isNumberBlank (h : Follows cs ds) : ∀ c ∈ cs, isNumberBlank c = false := by
  have hdigit : ∀ {c}, Text.isDecimal c = true → isNumberBlank c = false := fun hc => by
    rw [isNumberBlank, isBlank_of_isDecimal hc, Bool.false_and]
  induction h with
  | nil => exact fun _ hc => absurd hc not_mem_nil
  | digit hc hrest ih => exact forall_mem_cons.2 ⟨hdigit hc, ih⟩
  | underscore hc hrest ih => exact forall_mem_cons.2 ⟨by decide, forall_mem_cons.2 ⟨hdigit hc, ih⟩⟩

theorem Grouped.not_isNumberBlank (h : Grouped cs ds) : ∀ c ∈ cs, isNumberBlank c = false := by
  obtain ⟨hc, hrest⟩ := h
  exact (Follows.digit hc hrest).not_isNumberBlank

theorem Signed.not_isNumberBlank (h : Signed cs n) : ∀ c ∈ cs, isNumberBlank c = false := by
  cases h with
  | plain h => exact h.not_isNumberBlank
  | plus h => exact forall_mem_cons.2 ⟨by decide, h.not_isNumberBlank⟩
  | minus h => exact forall_mem_cons.2 ⟨by decide, h.not_isNumberBlank⟩

theorem Signed.ne_nil (h : Signed cs n) : cs ≠ [] := by rcases h with ⟨⟨-, -⟩, -⟩ | - | - <;> exact cons_ne_nil _ _

theorem spells_iff {s : String} : Spells s n ↔ Signed (trimNumber s.toList) n := by
  constructor
  · rintro ⟨before, written, after, hs, hbefore, hafter, h⟩
    rwa [hs, trimNumber_append hbefore hafter h.ne_nil h.not_isNumberBlank]
  · intro h
    obtain ⟨before, after, hs, hbefore, hafter⟩ := exists_trimNumber s.toList
    exact ⟨before, _, after, hs, hbefore, hafter, h⟩

end Blanks

/-! ## Reading -/

def withSign (negative : Bool) (n : Nat) : Int := if negative then -(n : Int) else n

def Unsigned (negative : Bool) (cs : List Char) (n : Int) : Prop :=
  ∃ ds, Grouped cs ds ∧ ds.length ≤ maxDigits ∧ n = withSign negative (digitsValue ds)

def Cleaned (negative : Bool) (cs : List Char) (n : Int) : Prop :=
  ∃ digits, dropUnderscores? none cs = some digits ∧ digits ≠ [] ∧ digits.all Char.isDigit = true ∧
    digits.length ≤ maxDigits ∧ n = withSign negative (digitsValue digits)

section Reading

variable {s : String} {n : Int} {cs : List Char} {c : Char} {i : Nat}

theorem not_grouped {ds : List Char} (hc : isDecimal c = false) : ¬ Grouped (c :: cs) ds := by
  rintro ⟨hdec, -⟩
  rw [hc] at hdec
  cases hdec

theorem signed_plus_iff : Signed ('+' :: cs) n ↔ Unsigned false cs n := by
  constructor
  · rintro (⟨h, hlen⟩ | ⟨h, hlen⟩ | _)
    · exact absurd h (not_grouped (by decide))
    · exact ⟨_, h, hlen, rfl⟩
  · rintro ⟨ds, h, hlen, rfl⟩
    exact .plus h hlen

theorem signed_minus_iff : Signed ('-' :: cs) n ↔ Unsigned true cs n := by
  constructor
  · rintro (⟨h, hlen⟩ | _ | ⟨h, hlen⟩)
    · exact absurd h (not_grouped (by decide))
    · exact ⟨_, h, hlen, rfl⟩
  · rintro ⟨ds, h, hlen, rfl⟩
    exact .minus h hlen

theorem signed_iff (hplus : cs.head? ≠ some '+') (hminus : cs.head? ≠ some '-') : Signed cs n ↔ Unsigned false cs n := by
  constructor
  · rintro (⟨h, hlen⟩ | ⟨h, hlen⟩ | ⟨h, hlen⟩)
    · exact ⟨_, h, hlen, rfl⟩
    · exact absurd rfl hplus
    · exact absurd rfl hminus
  · rintro ⟨ds, h, hlen, rfl⟩
    exact .plain h hlen

theorem unsigned_iff_cleaned {negative : Bool} : Unsigned negative cs n ↔ Cleaned negative (plainDigits cs) n := by
  rw [plainDigits_eq_map]
  constructor
  · rintro ⟨ds, h, hlen, rfl⟩
    obtain ⟨hdrop, hne, hdigs⟩ := exists_grouped_iff.1 ⟨ds, h, rfl⟩
    refine ⟨_, hdrop, hne, hdigs, ?_, ?_⟩
    · rwa [length_map]
    · rw [digitsValue_map_plainDigit]
  · rintro ⟨digits, hdrop, hne, hdigs, hlen, rfl⟩
    obtain ⟨ds, h, rfl⟩ := exists_grouped_iff.2 ⟨hdrop, hne, hdigs⟩
    refine ⟨ds, h, ?_, ?_⟩
    · rwa [length_map] at hlen
    · rw [digitsValue_map_plainDigit]

theorem readSign_of_ne (hplus : cs.head? ≠ some '+') (hminus : cs.head? ≠ some '-') : readSign cs = (false, cs) := by
  unfold readSign
  split
  · exact absurd rfl hminus
  · exact absurd rfl hplus
  · rfl

theorem signed_iff_cleaned : Signed cs n ↔ Cleaned (readSign (plainDigits cs)).1 (readSign (plainDigits cs)).2 n := by
  by_cases hhead : cs.head? = some '+'
  · obtain ⟨rest, rfl⟩ := List.head?_eq_some_iff.1 hhead
    rw [signed_plus_iff, unsigned_iff_cleaned, plainDigits_eq_map, plainDigits_eq_map]
    rfl
  · by_cases hhead' : cs.head? = some '-'
    · obtain ⟨rest, rfl⟩ := List.head?_eq_some_iff.1 hhead'
      rw [signed_minus_iff, unsigned_iff_cleaned, plainDigits_eq_map, plainDigits_eq_map]
      rfl
    · have hplain : ∀ sign, isDecimal sign = false → cs.head? ≠ some sign → (plainDigits cs).head? ≠ some sign := by
        intro sign hsign hne heq
        rw [plainDigits_eq_map, List.head?_map] at heq
        obtain ⟨c, hc, heq⟩ := Option.map_eq_some_iff.1 heq
        exact hne (hc.trans (congrArg some ((plainDigit_eq_iff hsign).1 heq)))
      rw [signed_iff hhead hhead', unsigned_iff_cleaned,
        readSign_of_ne (hplain '+' (by decide) hhead) (hplain '-' (by decide) hhead')]

theorem readInt_eq_ok_iff_cleaned : readInt s = .ok n ↔ Cleaned (readSign (plainDigits (trimNumber s.toList))).1
      (readSign (plainDigits (trimNumber s.toList))).2 n := by
  rw [readInt, Cleaned]
  obtain ⟨negative, body⟩ := readSign (plainDigits (trimNumber s.toList))
  dsimp only
  cases dropUnderscores? none body with
  | none => simp
  | some digits =>
    simp only [Option.some.injEq, exists_eq_left', gt_iff_lt]
    by_cases hdigs : digits ≠ [] ∧ digits.all Char.isDigit = true
    · have hclean : ¬(digits.isEmpty || !digits.all Char.isDigit) = true := by simp [hdigs]
      rw [if_neg hclean]
      by_cases hlen : maxDigits < digits.length
      · rw [if_pos hlen]
        exact iff_of_false (fun h => by cases h) fun h => Nat.not_le_of_lt hlen h.2.2.1
      · rw [if_neg hlen, Except.ok.injEq, eq_comm]
        exact ⟨fun h => ⟨hdigs.1, hdigs.2, Nat.le_of_not_lt hlen, h⟩, fun h => h.2.2.2⟩
    · have hdirty : (digits.isEmpty || !digits.all Char.isDigit) = true := by
        rw [Bool.or_eq_true, List.isEmpty_iff, Bool.not_eq_true', ← Bool.not_eq_true]
        exact not_and_or.1 hdigs |>.imp_left not_ne_iff.1
      rw [if_pos hdirty]
      exact iff_of_false (fun h => by cases h) fun h => hdigs ⟨h.1, h.2.1⟩

theorem readInt_eq_ok_iff : readInt s = .ok n ↔ Spells s n := by
  rw [readInt_eq_ok_iff_cleaned, spells_iff, signed_iff_cleaned]

theorem follows_of_forall {cs : List Char} (h : ∀ c ∈ cs, isDecimal c = true) : Follows cs cs := by
  induction cs with
  | nil => exact .nil
  | cons c cs ih =>
    obtain ⟨hc, hcs⟩ := forall_mem_cons.1 h
    exact .digit hc (ih hcs)

theorem digitsValue_eq_ofDigitChars {cs : List Char} (h : ∀ c ∈ cs, c.isDigit = true) :
    digitsValue cs = Nat.ofDigitChars 10 cs 0 := by
  refine foldl_ext _ _ _ fun n c hc => ?_
  rw [digitValue?_of_isDigit (h c hc)]
  rfl

theorem isDigit_of_mem_toString (h : c ∈ (toString i).toList) : c.isDigit = true := by
  change c ∈ (Nat.repr i).toList at h
  rw [Nat.toList_repr] at h
  exact Nat.isDigit_of_mem_toDigits (by decide) (by decide) h

theorem not_mem_toString (hc : c.isDigit = false) (i : Nat) : c ∉ (toString i).toList := by
  intro h
  rw [isDigit_of_mem_toString h] at hc
  cases hc

theorem lt_pow_ten (k : Nat) : k < Nat.pow 10 k := Nat.lt_pow_self (by decide)

theorem spells_toString (h : i < Nat.pow 10 maxDigits) : Spells (toString i) i := by
  have hdigs : ∀ c ∈ Nat.toDigits 10 i, c.isDigit = true := fun c hc =>
    Nat.isDigit_of_mem_toDigits (by decide) (by decide) hc
  have hlen : (Nat.toDigits 10 i).length ≤ maxDigits :=
    (Nat.length_toDigits_le_iff (by decide) (by decide)).2 h
  have hval : digitsValue (Nat.toDigits 10 i) = i := by
    rw [digitsValue_eq_ofDigitChars hdigs, Nat.ofDigitChars_ten_toDigits]
  have hgrouped : Grouped (Nat.toDigits 10 i) (Nat.toDigits 10 i) := by
    obtain ⟨c, cs, hcs⟩ := exists_cons_of_ne_nil (Nat.toDigits_ne_nil (n := i) (b := 10))
    rw [hcs] at hdigs ⊢
    obtain ⟨hc, hrest⟩ := forall_mem_cons.1 hdigs
    exact ⟨isDecimal_of_isDigit hc, follows_of_forall fun d hd => isDecimal_of_isDigit (hrest d hd)⟩
  refine ⟨[], Nat.toDigits 10 i, [], ?_, fun _ hc => absurd hc not_mem_nil, fun _ hc => absurd hc not_mem_nil, ?_⟩
  · rw [append_nil]
    exact Nat.toList_repr
  · have hsigned := Signed.plain hgrouped hlen
    rwa [hval] at hsigned

end Reading

end Transclude.Number
