import Mathlib.Data.List.TakeWhile
import Transclude.Directive.Block

/-!
# Where blocks stand

`Fence.FirstIn` says what a fence that was found is. From this follows where the blocks of a text stand (`Chained`)
and what stands where the scan stops (`UnclosedAt`).
-/

namespace Transclude.Block

open List Nat

variable {rest : List Char} {offset n k : Nat}

/-! ## Fences -/

/-- Whether a line begins at an offset of a text; `lineStart` says so of the offset zero. -/
def BeginsLine (lineStart : Bool) (cs : List Char) : Nat → Prop
  | 0 => lineStart = true
  | k + 1 => cs[k]? = some '\n'

theorem beginsLine_cons_succ (lineStart : Bool) (c : Char) (cs : List Char) (k : Nat) :
    BeginsLine lineStart (c :: cs) (k + 1) ↔ BeginsLine (c == '\n') cs k := by
  cases k with
  | zero => simp [BeginsLine]
  | succ k => simp [BeginsLine]

structure Fence.FirstIn (f : Fence) (measure : List Char → Option Nat) (lineStart : Bool) (cs : List Char) : Prop where
  before : f.before = cs.take f.before.length
  inside : f.before.length < cs.length
  beginsLine : BeginsLine lineStart cs f.before.length
  measured : measure (cs.drop f.before.length) = some f.length
  rest : f.rest = cs.drop (f.before.length + f.length)
  first : ∀ k < f.before.length, BeginsLine lineStart cs k → measure (cs.drop k) = none

variable {measure : List Char → Option Nat} {lineStart : Bool} {cs : List Char}

theorem findFence_firstIn {f : Fence} (h : findFence measure lineStart cs = some f) :
    f.FirstIn measure lineStart cs := by
  induction cs generalizing lineStart f with
  | nil => simp [findFence] at h
  | cons c cs ih =>
    rw [findFence] at h
    split at h
    · rename_i n hn
      cases h
      cases lineStart with
      | false => simp at hn
      | true => exact ⟨rfl, by simp, rfl, by simpa using hn, by simp, by simp⟩
    · rename_i hn
      split at h
      · rename_i g hg
        cases h
        have hg := ih hg
        refine ⟨?_, ?_, ?_, ?_, ?_, ?_⟩
        · simpa using hg.before
        · simpa using hg.inside
        · simpa only [length_cons, beginsLine_cons_succ] using hg.beginsLine
        · simpa using hg.measured
        · simpa [Nat.add_right_comm] using hg.rest
        · intro k hk hl
          cases k with
          | zero => simpa [show lineStart = true from hl] using hn
          | succ k =>
            rw [beginsLine_cons_succ] at hl
            simpa using hg.first k (by simpa using hk) hl
      · cases h

theorem findFence_eq_none_iff : findFence measure lineStart cs = none ↔
      ∀ k < cs.length, BeginsLine lineStart cs k → measure (cs.drop k) = none := by
  induction cs generalizing lineStart with
  | nil => simp [findFence]
  | cons c cs ih =>
    rw [findFence]
    constructor
    · intro h k hk hl
      split at h
      · cases h
      · rename_i hn
        split at h
        · cases h
        · rename_i hg
          cases k with
          | zero => simpa [show lineStart = true from hl] using hn
          | succ k =>
            rw [beginsLine_cons_succ] at hl
            simpa using ih.1 hg k (by simpa using hk) hl
    · intro h
      have hn : (if lineStart then measure (c :: cs) else none) = none := by
        split
        · rename_i hl
          exact h 0 (by simp) hl
        · rfl
      have hg : findFence measure (c == '\n') cs = none := by
        refine ih.2 fun k hk hl => ?_
        exact h (k + 1) (by simpa using hk) ((beginsLine_cons_succ ..).2 hl)
      rw [hn, hg]

/-! ## How long a fence is -/

theorem after?_eq_some_iff {head : List Char} : Text.after? head cs = some rest ↔ cs = head ++ rest := by
  rw [Text.after?]
  split
  · rename_i h
    obtain ⟨t, rfl⟩ := isPrefixOf_iff_prefix.1 h
    simp
  · rename_i h
    refine iff_of_false (by simp) ?_
    rintro rfl
    exact h ( isPrefixOf_iff_prefix.2 (prefix_append _ _))

theorem getLast_upToLineFeed {blanks : List Char} (h : blanks.contains '\n') :
    ∃ front back, blanks = front ++ '\n' :: back ∧
      (blanks.reverse.dropWhile (· != '\n')).length = front.length + 1 := by
  obtain ⟨back, front, hsplit, hback⟩ := eq_append_cons_of_mem (mem_reverse.2 (contains_iff_mem.1 h))
  refine ⟨front.reverse, back.reverse, by simpa using congrArg List.reverse hsplit, ?_⟩
  rw [hsplit, dropWhile_append_of_pos fun c hc => bne_iff_ne.2 (ne_of_mem_of_not_mem hc hback),
    dropWhile_cons_of_neg (by simp), length_cons, length_reverse]

/-- A fence of `n` characters takes at least one, and ends its line unless it ends the text. -/
structure EndsLine (cs : List Char) (n : Nat) : Prop where
  pos : 0 < n
  le : n ≤ cs.length
  next : n < cs.length → BeginsLine true cs n

theorem openingLength?_endsLine (h : openingLength? cs = some n) : EndsLine cs n := by
  have hf : openingFence.length = 14 := rfl
  rw [openingLength?] at h
  split at h
  · cases h
  · rename_i rest hr
    obtain rfl := after?_eq_some_iff.1 hr
    simp only at h
    split at h
    · cases h
      exact ⟨by rw [length_append]; omega, le_refl _, fun h => absurd h (lt_irrefl _)⟩
    · split at h
      · rename_i hb
        obtain ⟨front, back, hsplit, hlen⟩ := getLast_upToLineFeed hb
        have hrest : rest = front ++ '\n' :: (back ++ rest.dropWhile Text.isBlank) := by
          rw [← cons_append, ← append_assoc, ← hsplit, takeWhile_append_dropWhile]
        rw [hlen] at h
        cases h
        rw [hrest]
        refine ⟨by omega, by simp, fun _ => ?_⟩
        rw [← Nat.add_assoc, BeginsLine]
        simp
      · cases h

theorem closingLength?_endsLine (h : closingLength? cs = some n) : EndsLine cs n := by
  have hf : fence.length = 3 := rfl
  rw [closingLength?] at h
  split at h
  · cases h
  · rename_i rest hr
    obtain rfl := after?_eq_some_iff.1 hr
    simp only at h
    have hle : (rest.takeWhile fun c => c == ' ' || c == '\t').length ≤ rest.length := (takeWhile_sublist _).length_le
    split at h
    · rename_i hd
      cases h
      have : rest.length ≤ (rest.takeWhile fun c => c == ' ' || c == '\t').length := drop_eq_nil_iff.1 hd
      exact ⟨by omega, by simp; omega, fun h => by simp at h; omega⟩
    · rename_i t hd
      cases h
      have hlen := congrArg List.length hd
      simp only [length_drop, length_cons] at hlen
      refine ⟨by omega, by simp; omega, fun _ => ?_⟩
      rw [BeginsLine, List.getElem?_append_right (by omega), Nat.add_sub_cancel_left, ← List.head?_drop, hd]
      rfl
    · cases h

/-! ## The first block -/

theorem beginsLine_drop_of_pos (hk : 0 < k) : BeginsLine true (cs.drop offset) k ↔ BeginsLine true cs (offset + k) := by
  cases k with
  | zero => omega
  | succ k => simp [BeginsLine]

theorem beginsLine_drop_iff (h₀ : offset < cs.length → BeginsLine true cs offset) (hk : offset + k < cs.length) :
    BeginsLine true (cs.drop offset) k ↔ BeginsLine true cs (offset + k) := by
  cases k with
  | zero => exact iff_of_true rfl (h₀ (by omega))
  | succ k => exact beginsLine_drop_of_pos (succ_pos k)

structure UnclosedAt (cs : List Char) (offset : Nat) : Prop where
  inside : offset < cs.length
  beginsLine : BeginsLine true cs offset
  opens : ∃ n, openingLength? (cs.drop offset) = some n ∧
    ∀ k, offset + n ≤ k → BeginsLine true cs k → closingLength? (cs.drop k) = none

section FirstFrom

variable {offset : Nat}

theorem firstFrom_eq_block {b : Block} (h : firstFrom offset (cs.drop offset) = (.block b, rest)) :
    offset ≤ b.start ∧ b.start < b.stop ∧ b.stop ≤ cs.length ∧ rest = cs.drop b.stop ∧
      (b.stop < cs.length → BeginsLine true cs b.stop) := by
  rw [firstFrom] at h
  split at h
  · cases h
  · rename_i opening ho
    split at h
    · cases h
    · rename_i closing hc
      cases h
      have ho := findFence_firstIn ho
      have hc := findFence_firstIn hc
      have hce := closingLength?_endsLine hc.measured
      have ho₁ := ho.inside
      have hc₁ := hc.inside
      have hrest := hc.rest
      rw [ho.rest] at hc₁ hrest hce
      simp only [drop_drop, length_drop] at ho₁ hc₁ hrest
      have hpos := hce.pos
      have hle := hce.le
      simp only [drop_drop, length_drop] at hle
      refine ⟨by simp, by simp only; omega, by simp only; omega, ?_, fun hlt => ?_⟩
      · rw [hrest]
        congr 1
        simp only
        omega
      · -- the closing fence ends its line, and the next line begins there
        simp only at hlt
        have hnext := hce.next (by simp only [drop_drop, length_drop]; omega)
        simp only [drop_drop] at hnext
        rw [beginsLine_drop_of_pos hpos] at hnext
        simpa only [Nat.add_assoc] using hnext

theorem firstFrom_eq_unclosed {u : Nat} (h₀ : offset < cs.length → BeginsLine true cs offset)
    (h : firstFrom offset (cs.drop offset) = (.unclosed u, rest)) : offset ≤ u ∧ UnclosedAt cs u := by
  rw [firstFrom] at h
  split at h
  · cases h
  · rename_i opening ho
    split at h
    · rename_i hc
      cases h
      have ho := findFence_firstIn ho
      have hoe := openingLength?_endsLine ho.measured
      have ho₁ := ho.inside
      rw [length_drop] at ho₁
      have hbegins := (beginsLine_drop_iff h₀ (by omega)).1 ho.beginsLine
      refine ⟨by omega, by omega, hbegins, opening.length, by simpa using ho.measured, ?_⟩
      intro k hk hl
      by_cases hk₁ : k < cs.length
      · rw [findFence_eq_none_iff, ho.rest, drop_drop] at hc
        obtain ⟨j, rfl⟩ := Nat.exists_eq_add_of_le hk
        have hline : offset + opening.before.length + opening.length < cs.length →
            BeginsLine true cs (offset + opening.before.length + opening.length) := by
          intro hlt
          have hnext := hoe.next (by simp only [drop_drop, length_drop]; omega)
          rwa [drop_drop, beginsLine_drop_of_pos hoe.pos] at hnext
        rw [← Nat.add_assoc] at hc
        have := hc j (by rw [length_drop]; omega) ((beginsLine_drop_iff hline (by omega)).2 hl)
        simpa using this
      · rw [drop_eq_nil_of_le (by omega)]
        rfl
    · cases h

end FirstFrom

/-! ## All blocks -/

def Chained (position stop : Nat) : List Block → Prop
  | [] => position ≤ stop
  | b :: rest => position ≤ b.start ∧ b.start < b.stop ∧ Chained b.stop stop rest

structure Scan.Covers (s : Scan) (position : Nat) (cs : List Char) : Prop where
  chained : Chained position (s.stop cs) s.blocks
  stop_le : s.stop cs ≤ cs.length
  unclosed : ∀ u, s.unclosed = some u → UnclosedAt cs u

theorem allFrom_covers (hle : offset ≤ cs.length) (h₀ : offset < cs.length → BeginsLine true cs offset) :
    (allFrom offset (cs.drop offset)).Covers offset cs := by
  -- along the recursion of the scan: each block leaves a shorter rest, which begins a line
  induction hn : cs.length - offset using Nat.strongRecOn generalizing offset with
  | _ n ih =>
    rw [allFrom]
    split
    · exact ⟨hle, le_refl _, by simp⟩
    · rename_i u _ h
      obtain ⟨hu, hun⟩ := firstFrom_eq_unclosed h₀ h
      refine ⟨hu, ?_, ?_⟩
      · exact hun.inside.le
      · rintro _ ⟨⟩
        exact hun
    · rename_i b rest h
      obtain ⟨h₁, h₂, h₃, rfl, h₄⟩ := firstFrom_eq_block h
      have := ih (cs.length - b.stop) (by omega) h₃ h₄ rfl
      exact ⟨⟨h₁, h₂, this.chained⟩, this.stop_le, this.unclosed⟩

theorem all_covers (cs : List Char) : (all cs).Covers 0 cs := by
  exact allFrom_covers (zero_le _) fun _ => rfl

end Transclude.Block
