import Mathlib.Data.List.Induction
import Transclude.Proofs.Numerals
import Transclude.Source.LineRange

/-!
# Lines by their numbers

`Names count range a b` is the grammar of line ranges: in a text of `count` lines the range stands for the lines from
`a` to `b`. The lines of a range are found if and only if there is a first one (`extract_lines`).
-/

namespace Transclude.LineRange

open List Text Number

variable {cs first last range : List Char} {a b n count default : Nat} {lines found : List (List Char)}

/-! ## The grammar -/

inductive Denotes : List Char → Nat → Prop
  | nil : Denotes [] 0
  | digit {cs : List Char} {c : Char} {m n : Nat} (h : Denotes cs m) (hc : digitValue? c = some n) :
      Denotes (cs ++ [c]) (10 * m + n)

inductive Bound (default : Nat) : List Char → Nat → Prop
  | absent : Bound default [] default
  | given {cs : List Char} {n : Nat} (hne : cs ≠ []) (h : Denotes cs n) : Bound default cs n

inductive Names (count : Nat) : List Char → Nat → Nat → Prop
  | line {cs : List Char} {a : Nat} (hne : cs ≠ []) (h : Denotes cs a) : Names count cs a a
  | lines {first last : List Char} {a b : Nat} (hfirst : Bound 1 first a) (hlast : Bound count last b) :
      Names count (first ++ '.' :: '.' :: last) a b

def IsStretch (lines : List (List Char)) (a b : Nat) (found : List (List Char)) : Prop :=
  ∀ i, found[i]? = if a + i ≤ min b lines.length then lines[a + i - 1]? else none

theorem denotes_iff : Denotes cs n ↔ (∀ c ∈ cs, isDecimal c = true) ∧ digitsValue cs = n := by
  constructor
  · intro h
    induction h with
    | nil => exact ⟨forall_mem_nil _, rfl⟩
    | digit h hc ih =>
      refine ⟨forall_mem_append.2 ⟨ih.1, forall_mem_singleton.2 ?_⟩, ?_⟩
      · rw [isDecimal, hc, Option.isSome_some]
      · rw [digitsValue_concat, ih.2, hc, Option.getD_some]
  · rintro ⟨hcs, rfl⟩
    induction cs using reverseRecOn with
    | nil => exact .nil
    | append_singleton cs c ih =>
      rw [forall_mem_append, forall_mem_singleton] at hcs
      obtain ⟨value, hval⟩ := Option.isSome_iff_exists.1 hcs.2
      rw [digitsValue_concat, hval]
      exact .digit (ih hcs.1) hval

theorem Bound.isDecimal (h : Bound default cs n) : ∀ c ∈ cs, isDecimal c = true := by
  cases h with
  | absent => exact forall_mem_nil _
  | given hne h => exact (denotes_iff.1 h).1

theorem exists_bound (default : Nat) (h : ∀ c ∈ cs, isDecimal c = true) : ∃ n, Bound default cs n := by
  by_cases hne : cs = []
  · exact ⟨default, hne ▸ .absent⟩
  · exact ⟨digitsValue cs, .given hne (denotes_iff.2 ⟨h, rfl⟩)⟩

/-! ## Reading -/

theorem parse?_digits (hne : cs ≠ []) (h : ∀ c ∈ cs, isDecimal c = true) : parse? cs = some (.single cs) := by
  rw [parse?, takeWhile_eq_self_iff.2 h]
  simp [hne]

theorem parse?_between (hfirst : ∀ c ∈ first, isDecimal c = true) (hlast : ∀ c ∈ last, isDecimal c = true) :
    parse? (first ++ '.' :: '.' :: last) = some (.between first last) := by
  have htake : (first ++ '.' :: '.' :: last).takeWhile isDecimal = first := by
    rw [takeWhile_append_of_pos hfirst, takeWhile_cons_of_neg (by decide), append_nil]
  rw [parse?, htake, drop_left]
  exact if_pos (all_eq_true.2 hlast)

theorem exists_names {r : LineRange} (h : parse? range = some r) (count : Nat) : ∃ a b, Names count range a b := by
  have hsplit := prefix_iff_eq_append.1 ( takeWhile_prefix (l := range) isDecimal)
  have hfirst (c : Char) (hc : c ∈ range.takeWhile isDecimal) : isDecimal c = true := mem_takeWhile_imp hc
  rw [parse?] at h
  generalize range.takeWhile isDecimal = first at *
  split at h
  · rename_i hdrop
    split_ifs at h with hempty
    rw [hdrop, append_nil] at hsplit
    subst hsplit
    exact ⟨_, _, .line (by simpa using hempty) (denotes_iff.2 ⟨hfirst, rfl⟩)⟩
  · rename_i last hdrop
    split_ifs at h with hlast
    obtain ⟨a, ha⟩ := exists_bound 1 hfirst
    obtain ⟨b, hb⟩ := exists_bound count (all_eq_true.1 hlast)
    rw [← hsplit, hdrop]
    exact ⟨a, b, .lines ha hb⟩
  · cases h

theorem number_of_denotes (h : Denotes cs n) (hlen : cs.countP isDecimal < maxDigits) : number cs = .ok n := by
  obtain ⟨hcs, rfl⟩ := denotes_iff.1 h
  rw [countP_eq_length.2 hcs] at hlen
  exact if_neg (Nat.not_lt.2 (Nat.le_of_lt hlen))

theorem numberOr_of_bound (h : Bound default cs n) (hlen : cs.countP isDecimal < maxDigits) :
    numberOr default cs = .ok n := by
  cases h with
  | absent => rfl
  | given hne h => rw [numberOr, isEmpty_eq_false_iff.2 hne, if_neg Bool.false_ne_true, number_of_denotes h hlen]

theorem extract_of_names {content : List Char} (h : Names (Text.lines content).length range a b)
    (hlen : range.countP isDecimal < maxDigits) :
    extract content range = .ok (slice a b (Text.lines content)) := by
  cases h with
  | line hne h =>
    rw [extract, parse?_digits hne (denotes_iff.1 h).1]
    dsimp only
    rw [select, number_of_denotes h hlen]
    rfl
  | lines hfirst hlast =>
    rw [countP_append, countP_cons, countP_cons] at hlen
    rw [extract, parse?_between hfirst.isDecimal hlast.isDecimal]
    dsimp only
    rw [select, numberOr_of_bound hfirst (by omega), numberOr_of_bound hlast (by omega)]
    rfl

/-! ## Lines -/

theorem slice_eq_some_iff :
    slice a b lines = some found ↔ 1 ≤ a ∧ a ≤ lines.length ∧ a ≤ b ∧ IsStretch lines a b found := by
  have hstretch (h : 1 ≤ a) : IsStretch lines a b ((lines.take b).drop (a - 1)) := by
    intro i
    rw [getElem?_drop, getElem?_take, show a - 1 + i = a + i - 1 by omega]
    split_ifs
    · rfl
    · exact getElem?_eq_none (by omega)
    · omega
    · rfl
  by_cases h : 1 ≤ a ∧ a ≤ lines.length ∧ a ≤ b
  · rw [slice, if_pos (by simp [h]), Option.some.injEq]
    refine ⟨?_, fun hfound => ?_⟩
    · rintro rfl
      exact ⟨h.1, h.2.1, h.2.2, hstretch h.1⟩
    · exact ext_getElem? fun i => (hstretch h.1 i).trans (hfound.2.2.2 i).symm
  · rw [slice, if_neg (by simpa [and_assoc] using h)]
    refine ⟨fun h => absurd h (by simp), fun hfound => absurd ⟨hfound.1, hfound.2.1, hfound.2.2.1⟩ h⟩

theorem slice_append {k : Nat} (ha : 1 ≤ a) (hk : a ≤ k) (hb : k < b) (hlines : b ≤ lines.length) :
    ∃ front back, slice a k lines = some front ∧ slice (k + 1) b lines = some back ∧
      slice a b lines = some (front ++ back) := by
  refine ⟨(lines.take k).drop (a - 1), (lines.take b).drop k, ?_, ?_, ?_⟩
  · exact if_pos (by simp; omega)
  · exact if_pos (by simp; omega)
  · have htake : lines.take b = lines.take k ++ (lines.take b).drop k := by
      have hmin : lines.take k = (lines.take b).take k := by rw [take_take, Nat.min_eq_left (Nat.le_of_lt hb)]
      rw [hmin, take_append_drop]
    rw [slice, if_pos (by simp; omega), ← drop_append_of_le_length (by rw [length_take]; omega), ← htake]

/-- A range of fewer than `maxDigits` digits is answered. It stands for lines if and only if it is one number or two
bounds, of which the first is the number of a line and not above the second, and then for the lines from the one to
the other; it is valid then. Ranges that follow each other stand for parts of the range that spans them. -/
theorem extract_lines (content : List Char) :
    (∀ range, range.countP isDecimal < maxDigits → (∃ result, extract content range = .ok result) ∧
      ∀ found, extract content range = .ok (some found) ↔
        isValid range = true ∧ ∃ a b, Names (Text.lines content).length range a b ∧ 1 ≤ a ∧
          a ≤ (Text.lines content).length ∧ a ≤ b ∧ IsStretch (Text.lines content) a b found) ∧
    ∀ a k b whole left right, Names (Text.lines content).length whole a b →
      Names (Text.lines content).length left a k → Names (Text.lines content).length right (k + 1) b →
      (∀ range ∈ [whole, left, right], range.countP isDecimal < maxDigits) →
      1 ≤ a → a ≤ k → k < b → b ≤ (Text.lines content).length →
      ∃ front back, extract content left = .ok (some front) ∧ extract content right = .ok (some back) ∧
        extract content whole = .ok (some (front ++ back)) := by
  refine ⟨fun range hlen => ?_, ?_⟩
  · cases hparse : parse? range with
    | none =>
      have hnone : extract content range = .ok none := by rw [extract, hparse]
      rw [hnone, isValid, hparse]
      simp
    | some r =>
      have hvalid : isValid range = true := by rw [isValid, hparse, Option.isSome_some]
      obtain ⟨a, b, hnames⟩ := exists_names hparse (Text.lines content).length
      refine ⟨⟨_, extract_of_names hnames hlen⟩, fun found => ⟨fun h => ?_, ?_⟩⟩
      · rw [extract_of_names hnames hlen] at h
        exact ⟨hvalid, a, b, hnames, slice_eq_some_iff.1 (Except.ok.inj h)⟩
      · rintro ⟨-, a, b, hnames, hfound⟩
        rw [extract_of_names hnames hlen, slice_eq_some_iff.2 hfound]
  · intro a k b whole left right hwhole hleft hright hlen ha hk hb hlines
    simp only [forall_mem_cons] at hlen
    obtain ⟨hwhole', hleft', hright', -⟩ := hlen
    rw [extract_of_names hwhole hwhole', extract_of_names hleft hleft', extract_of_names hright hright']
    obtain ⟨front, back, hfront, hback, happend⟩ := slice_append ha hk hb hlines
    exact ⟨front, back, congrArg _ hfront, congrArg _ hback, congrArg _ happend⟩

end Transclude.LineRange
