import Transclude.Proofs.LineGrammar

/-!
# Blocks one by one and blocks by position

`Block.successive` asks for the first block of a text, and then of what follows it as a text of its own. `Block.allAt`
goes on at a position in the whole text. The two agree, since what follows a block begins a line or is empty
(`successive_eq_allAt`).
-/

namespace Transclude.Block

open List Option

variable {cs : List Char}

/-! ## Fences by position -/

instance (lineStart : Bool) (cs : List Char) (k : Nat) : Decidable (BeginsLine lineStart cs k) :=
  match k with
  | 0 => inferInstanceAs (Decidable (lineStart = true))
  | k + 1 => inferInstanceAs (Decidable (cs[k]? = some '\n'))

def fenceAt? (measure : List Char → Option Nat) (cs : List Char) (k : Nat) : Option (Nat × Nat) :=
  if BeginsLine true cs k then (measure (cs.drop k)).map fun n => (k, n) else none

def fenceFrom? (measure : List Char → Option Nat) (cs : List Char) (position : Nat) : Option (Nat × Nat) :=
  (List.range' position (cs.length - position)).findSome? (fenceAt? measure cs)

section Fences

variable {measure : List Char → Option Nat} {cs : List Char} {position k n : Nat}

theorem fenceAt?_eq_some {found : Nat × Nat} (h : fenceAt? measure cs k = some found) :
    found.1 = k ∧ measure (cs.drop k) = some found.2 := by
  unfold fenceAt? at h
  split at h
  · obtain ⟨n, hn, rfl⟩ := map_eq_some_iff.1 h
    exact ⟨rfl, hn⟩
  · cases h

theorem fenceFrom?_eq_some (h : fenceFrom? measure cs position = some (k, n)) :
    position ≤ k ∧ k < cs.length ∧ measure (cs.drop k) = some n := by
  obtain ⟨j, hj, hfound⟩ := exists_of_findSome?_eq_some h
  obtain ⟨rfl, hn⟩ := fenceAt?_eq_some hfound
  rw [mem_range'_1] at hj
  exact ⟨hj.1, by omega, hn⟩

theorem findSome?_range' {α : Type} {f : Nat → Option α} {a : α} {j m : Nat} (hj : j < m)
    (hfound : f (position + j) = some a) (hbefore : ∀ i < j, f (position + i) = none) :
    (List.range' position m).findSome? f = some a := by
  refine List.findSome?_eq_some_iff.2 ⟨List.range' position j, position + j,
    List.range' (position + j + 1) (m - j - 1), ?_, hfound, fun k hk => ?_⟩
  · rw [← List.range'_succ, List.range'_append_1]
    congr 1
    omega
  · rw [mem_range'_1] at hk
    obtain ⟨i, rfl⟩ := Nat.exists_eq_add_of_le hk.1
    exact hbefore i (by omega)

/-- Where a line begins, looking for a fence in the rest of a text comes to the same as looking for it in the whole
text from there on. -/
theorem fenceFrom?_eq (h₀ : position < cs.length → BeginsLine true cs position) : fenceFrom? measure cs position =
      (findFence measure true (cs.drop position)).map fun f => (position + f.before.length, f.length) := by
  -- a place of the rest and the place of the text that it is
  have hplace : ∀ i < cs.length - position, fenceAt? measure cs (position + i) =
        if BeginsLine true (cs.drop position) i then
          (measure ((cs.drop position).drop i)).map fun n => (position + i, n) else none := by
    intro i hi
    unfold fenceAt?
    simp only [drop_drop, beginsLine_drop_iff h₀ (show position + i < cs.length by omega)]
  cases hfind : findFence measure true (cs.drop position) with
  | none =>
    rw [findFence_eq_none_iff, length_drop] at hfind
    unfold fenceFrom?
    simp only [map_none, List.findSome?_eq_none_iff, mem_range'_1]
    intro k hk
    obtain ⟨i, rfl⟩ := Nat.exists_eq_add_of_le hk.1
    rw [hplace i (by omega)]
    split
    · rename_i hline
      rw [hfind i (by omega) hline]
      rfl
    · rfl
  | some f =>
    have hfirst := findFence_firstIn hfind
    have hinside := hfirst.inside
    rw [length_drop] at hinside
    apply findSome?_range' (j := f.before.length) hinside
    · rw [hplace _ hinside, if_pos hfirst.beginsLine, hfirst.measured]
      rfl
    · intro i hi
      rw [hplace i (by omega)]
      split
      · rename_i hline
        rw [hfirst.first i hi hline]
        rfl
      · rfl

end Fences

/-! ## The two ways to go on -/

def allAt (cs : List Char) (position : Nat) : Scan :=
  if position < cs.length then
    match _ho : fenceFrom? openingLength? cs position with
    | none => { blocks := [], unclosed := none }
    | some (start, opening) =>
      match _hc : fenceFrom? closingLength? cs (start + opening) with
      | none => { blocks := [], unclosed := some start }
      | some (closing, length) =>
        let raw := (cs.drop (start + opening)).take (closing - (start + opening))
        let later := allAt cs (closing + length)
        { later with blocks := { raw, start, stop := closing + length } :: later.blocks }
  else { blocks := [], unclosed := none }
termination_by cs.length - position
decreasing_by
  have ho := fenceFrom?_eq_some _ho
  have hc := fenceFrom?_eq_some _hc
  have hpos := closingLength?_pos _ _ hc.2.2
  omega

def shift (offset : Nat) (b : Block) : Block := { b with start := offset + b.start, stop := offset + b.stop }

def Found.shift (offset : Nat) : Found → Found
  | .nothing => .nothing
  | .unclosed start => .unclosed (offset + start)
  | .block b => .block (b.shift offset)

theorem drop_stop_lt {b : Block} (h : first cs = .block b) : (cs.drop b.stop).length < cs.length := by
  have hfirst : firstFrom 0 (cs.drop 0) = (.block b, (firstFrom 0 cs).2) := Prod.ext h rfl
  have hblock := firstFrom_eq_block hfirst
  rw [length_drop]
  omega

def successive (offset : Nat) (cs : List Char) : Scan :=
  match _h : first cs with
  | .nothing => { blocks := [], unclosed := none }
  | .unclosed start => { blocks := [], unclosed := some (offset + start) }
  | .block b =>
    let later := successive (offset + b.stop) (cs.drop b.stop)
    { later with blocks := b.shift offset :: later.blocks }
termination_by cs.length
decreasing_by exact drop_stop_lt _h

/-! ## Agreement -/

theorem firstFrom_eq_shift (offset : Nat) (cs : List Char) :
    firstFrom offset cs = ((first cs).shift offset, (firstFrom 0 cs).2) := by
  unfold first firstFrom
  cases findFence openingLength? true cs with
  | none => rfl
  | some opening =>
    dsimp only
    cases findFence closingLength? true opening.rest with
    | none => simp [Found.shift]
    | some closing => simp [Found.shift, Block.shift, Nat.add_assoc]

theorem successive_eq_allFrom (offset : Nat) (cs : List Char) : successive offset cs = allFrom offset cs := by
  -- along the recursion of `successive`: each step takes the first block off
  fun_induction successive offset cs with
  | case1 offset cs h =>
    have hshift := firstFrom_eq_shift offset cs
    rw [h] at hshift
    exact (allFrom_of_nothing hshift).symm
  | case2 offset cs start h =>
    have hshift := firstFrom_eq_shift offset cs
    rw [h] at hshift
    exact (allFrom_of_unclosed hshift).symm
  | case3 offset cs b h later ih =>
    have hshift := firstFrom_eq_shift offset cs
    rw [h] at hshift
    have hrest : (firstFrom 0 cs).2 = cs.drop b.stop := by
      have hfirst : firstFrom 0 (cs.drop 0) = (.block b, (firstFrom 0 cs).2) := Prod.ext h rfl
      exact (firstFrom_eq_block hfirst).2.2.2.1
    rw [hrest] at hshift
    rw [allFrom_of_block hshift]
    show _ = Scan.mk (b.shift offset :: (allFrom (offset + b.stop) (cs.drop b.stop)).blocks)
      (allFrom (offset + b.stop) (cs.drop b.stop)).unclosed
    rw [← ih]

theorem exists_fence {measure : List Char → Option Nat} {position k n : Nat}
    (h₀ : position < cs.length → BeginsLine true cs position) (h : fenceFrom? measure cs position = some (k, n)) :
    ∃ f, findFence measure true (cs.drop position) = some f ∧ k = position + f.before.length ∧ n = f.length := by
  rw [fenceFrom?_eq h₀] at h
  obtain ⟨f, hf, heq⟩ := map_eq_some_iff.1 h
  cases heq
  exact ⟨f, hf, rfl, rfl⟩

theorem beginsLine_after_opening {start opening : Nat} (h : openingLength? (cs.drop start) = some opening)
    (hlt : start + opening < cs.length) : BeginsLine true cs (start + opening) := by
  have hends := openingLength?_endsLine h
  have hnext := hends.next (by rw [length_drop]; omega)
  rwa [beginsLine_drop_of_pos hends.pos] at hnext

theorem allAt_eq_allFrom {position : Nat} (h₀ : position < cs.length → BeginsLine true cs position) :
    allAt cs position = allFrom position (cs.drop position) := by
  -- along the recursion of `allAt`: where it goes on, a line begins or the text ends
  fun_induction allAt cs position with
  | case1 position hlt ho =>
    rw [fenceFrom?_eq h₀, map_eq_none_iff] at ho
    have hfirst : firstFrom position (cs.drop position) = (.nothing, []) := by
      unfold firstFrom
      rw [ho]
    exact (allFrom_of_nothing hfirst).symm
  | case2 position hlt start opening ho hc =>
    have hopens := fenceFrom?_eq_some ho
    obtain ⟨f, hf, hstart, hlen⟩ := exists_fence h₀ ho
    have hrest : f.rest = cs.drop (start + opening) := by
      rw [(findFence_firstIn hf).rest, drop_drop, hstart, hlen, Nat.add_assoc]
    rw [fenceFrom?_eq (beginsLine_after_opening hopens.2.2), map_eq_none_iff, ← hrest] at hc
    have hfirst : firstFrom position (cs.drop position) = (.unclosed start, []) := by
      unfold firstFrom
      simp only [hf, hc, hstart]
    exact (allFrom_of_unclosed hfirst).symm
  | case3 position hlt start opening ho closing length hc raw later ih =>
    have hopens := fenceFrom?_eq_some ho
    obtain ⟨f, hf, hstart, hlen⟩ := exists_fence h₀ ho
    have hrest : f.rest = cs.drop (start + opening) := by
      rw [(findFence_firstIn hf).rest, drop_drop, hstart, hlen, Nat.add_assoc]
    obtain ⟨g, hg, hclosing, hglength⟩ := exists_fence (beginsLine_after_opening hopens.2.2) hc
    have hraw : raw = g.before := by
      have hbefore := (findFence_firstIn hg).before
      rw [hbefore]
      simp only [raw, hclosing, Nat.add_sub_cancel_left]
    rw [← hrest] at hg
    have hfirst : firstFrom position (cs.drop position) =
        (.block { raw, start, stop := closing + length }, g.rest) := by
      unfold firstFrom
      simp only [hf, hg, hraw, hstart, hlen, hclosing, hglength]
    obtain ⟨-, -, -, hafter, hline⟩ := firstFrom_eq_block hfirst
    rw [allFrom_of_block hfirst, hafter]
    rw [← ih hline]
  | case4 position hlt =>
    have hfirst : firstFrom position (cs.drop position) = (.nothing, []) := by
      rw [drop_eq_nil_of_le (by omega)]
      rfl
    exact (allFrom_of_nothing hfirst).symm

/-- Taking block after block off a text, going on by positions in the whole text, and the scan of the text all find
the same blocks, and the same block that is not closed. -/
theorem successive_eq_allAt (cs : List Char) : successive 0 cs = allAt cs 0 ∧ allAt cs 0 = all cs := by
  have hall : allAt cs 0 = all cs := allAt_eq_allFrom fun _ => rfl
  exact ⟨(successive_eq_allFrom 0 cs).trans hall.symm, hall⟩

end Transclude.Block
