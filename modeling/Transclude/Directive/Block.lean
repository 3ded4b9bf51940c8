import Transclude.Text.Blank
import Transclude.Text.Lines

/-!
# Blocks

A block is a fenced stretch of a document that holds a directive: from an opening fence at the start of a line, which
only blanks may follow, to the first closing fence. Offsets are in characters.
-/

namespace Transclude

/-- A block: the text between its fences, and the offsets of its first character and of that after its last one. -/
structure Block where
  raw : List Char
  start : Nat
  stop : Nat
deriving Repr, BEq, DecidableEq

namespace Block

def fence : List Char := List.replicate 3 (Char.ofNat 96)

def openingFence : List Char := fence ++ "yaml embedm".toList

inductive Found where
  | nothing
  | unclosed (start : Nat)
  | block (b : Block)
deriving Repr, BEq, DecidableEq

def openingLength? (cs : List Char) : Option Nat :=
  match Text.after? openingFence cs with
  | none => none
  | some rest =>
    let blanks := rest.takeWhile Text.isBlank
    if blanks.length = rest.length then some cs.length
    else if blanks.contains '\n' then
      some (openingFence.length + (blanks.reverse.dropWhile (· != '\n')).length)
    else none

def closingLength? (cs : List Char) : Option Nat :=
  match Text.after? fence cs with
  | none => none
  | some rest =>
    let blanks := rest.takeWhile fun c => c == ' ' || c == '\t'
    match rest.drop blanks.length with
    | [] => some (fence.length + blanks.length)
    | '\n' :: _ => some (fence.length + blanks.length + 1)
    | _ => none

structure Fence where
  before : List Char
  length : Nat
  rest : List Char

/-- The first fence of a text that a measure knows; `lineStart` says whether the text begins a line. -/
def findFence (measure : List Char → Option Nat) (lineStart : Bool) : List Char → Option Fence
  | [] => none
  | c :: cs =>
    match if lineStart then measure (c :: cs) else none with
    | some n => some { before := [], length := n, rest := (c :: cs).drop n }
    | none =>
      match findFence measure (c == '\n') cs with
      | some f => some { f with before := c :: f.before }
      | none => none

/-- The first block of a text that starts at `offset`, with the text after the block. -/
def firstFrom (offset : Nat) (cs : List Char) : Found × List Char :=
  match findFence openingLength? true cs with
  | none => (.nothing, [])
  | some opening =>
    let start := offset + opening.before.length
    match findFence closingLength? true opening.rest with
    | none => (.unclosed start, [])
    | some closing =>
      let stop := start + opening.length + closing.before.length + closing.length
      (.block { raw := closing.before, start, stop }, closing.rest)

def first (cs : List Char) : Found :=
  (firstFrom 0 cs).1

structure Scan where
  blocks : List Block
  unclosed : Option Nat
deriving Repr, BEq, DecidableEq

theorem findFence_rest_length {measure : List Char → Option Nat} {lineStart : Bool}
    {cs : List Char} {f : Fence} (h : findFence measure lineStart cs = some f) : f.rest.length ≤ cs.length := by
  induction cs generalizing lineStart f with
  | nil => simp [findFence] at h
  | cons c cs ih =>
    rw [findFence] at h
    split at h
    · cases h
      simp only [List.length_drop, List.length_cons]
      omega
    · split at h
      · rename_i g hg
        cases h
        have := ih hg
        simp only [List.length_cons]
        omega
      · cases h

theorem findFence_rest_lt {measure : List Char → Option Nat} {lineStart : Bool} {cs : List Char}
    {f : Fence} (hm : ∀ t n, measure t = some n → 0 < n)
    (h : findFence measure lineStart cs = some f) : f.rest.length < cs.length := by
  induction cs generalizing lineStart f with
  | nil => simp [findFence] at h
  | cons c cs ih =>
    rw [findFence] at h
    split at h
    · rename_i n hn
      cases h
      have : 0 < n := by
        split at hn
        · exact hm _ _ hn
        · cases hn
      simp only [List.length_drop, List.length_cons]
      omega
    · split at h
      · rename_i g hg
        cases h
        have := ih hg
        simp only [List.length_cons]
        omega
      · cases h

theorem closingLength?_pos (t : List Char) (n : Nat) (h : closingLength? t = some n) : 0 < n := by
  simp only [closingLength?] at h
  split at h
  · cases h
  · split at h
    · have : fence.length = 3 := rfl
      cases h
      omega
    · cases h
      omega
    · cases h

theorem firstFrom_rest_lt {offset : Nat} {cs : List Char} {b : Block} {rest : List Char}
    (h : firstFrom offset cs = (.block b, rest)) : rest.length < cs.length := by
  simp only [firstFrom] at h
  split at h
  · cases h
  · rename_i opening ho
    split at h
    · cases h
    · rename_i closing hc
      cases h
      have h₁ := findFence_rest_length ho
      have h₂ := findFence_rest_lt closingLength?_pos hc
      omega

/-- The blocks of a text that starts at `offset`. -/
def allFrom (offset : Nat) (cs : List Char) : Scan :=
  match _h : firstFrom offset cs with
  | (.nothing, _) => { blocks := [], unclosed := none }
  | (.unclosed start, _) => { blocks := [], unclosed := some start }
  | (.block b, rest) =>
    let later := allFrom b.stop rest
    { later with blocks := b :: later.blocks }
termination_by cs.length
decreasing_by exact firstFrom_rest_lt _h

def all (cs : List Char) : Scan :=
  allFrom 0 cs

/-- Where the part of a text ends that `all` has cut into blocks and other text. -/
def Scan.stop (s : Scan) (cs : List Char) : Nat :=
  s.unclosed.getD cs.length

end Block

end Transclude
