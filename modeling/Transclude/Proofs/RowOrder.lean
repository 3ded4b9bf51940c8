import Mathlib.Data.Prod.Lex
import Mathlib.Data.String.Basic
import Mathlib.Data.Sum.Order
import Transclude.Proofs.Scanning
import Transclude.Proofs.Sorting
import Transclude.Proofs.Views

/-!
# The order of rows

Rows are sorted once for every column, the last one first. Cells that are numbers have a rank among the numbers, and
other cells come after them. All passes together are one stable sort by the columns (`sorts_sortRows`,
`sortRows_of_checked`), as long as no cell reads as the number that is none.
-/

namespace Transclude

open List Sorting Text

/-! ## Ranks -/

namespace Number.Binary64

def rank : Binary64 → ℤ ×ₗ ℤ
  | .nan _ => toLex (0, 0)
  | .infinite negative => toLex (if negative then -1 else 1, 0)
  | .finite negative mantissa exponent => toLex (0, scaled negative mantissa exponent)

def isNumber : Binary64 → Bool
  | .nan _ => false
  | _ => true

theorem lt_iff_rank_lt {a b : Binary64} (ha : a.isNumber) (hb : b.isNumber) : a.lt b = true ↔ a.rank < b.rank := by
  cases a with
  | nan s => cases ha
  | infinite s =>
    cases b with
    | nan t => cases hb
    | infinite t => cases s <;> cases t <;> simp [lt, compare?, rank, Prod.Lex.toLex_lt_toLex, compare_lt_iff_lt]
    | finite t n f => cases s <;> simp [lt, compare?, rank, Prod.Lex.toLex_lt_toLex]
  | finite s m e =>
    cases b with
    | nan t => cases hb
    | infinite t => cases t <;> simp [lt, compare?, rank, Prod.Lex.toLex_lt_toLex]
    | finite t n f => simp [lt, compare?, rank, Prod.Lex.toLex_lt_toLex, compare_lt_iff_lt]

end Number.Binary64

namespace Table

def CellKey.rank : CellKey → (ℤ ×ₗ ℤ) ⊕ₗ String
  | .number x => Sum.inlₗ x.rank
  | .text s => Sum.inrₗ s

def CellKey.isComparable : CellKey → Bool
  | .number x => x.isNumber
  | .text _ => true

theorem CellKey.less_iff_rank_lt {a b : CellKey} (ha : a.isComparable) (hb : b.isComparable) :
    a.less b = true ↔ a.rank < b.rank := by
  cases a with
  | number x =>
    cases b with
    | number y => exact (Number.Binary64.lt_iff_rank_lt ha hb).trans Sum.Lex.inl_lt_inl_iff.symm
    | text t => simp [less, rank]
  | text s =>
    cases b with
    | number y => simp [less, rank]
    | text t => simp [less, rank]

/-! ## Passes -/

def SortKey.keyOf (key : SortKey) (row : Row) : CellKey := CellKey.ofCell (cell row key.column)

def CellKey.lessIn (descending : Bool) : CellKey → CellKey → Bool :=
  if descending then backwards CellKey.less else CellKey.less

def SortKey.less (key : SortKey) (a b : Row) : Bool := CellKey.lessIn key.descending (key.keyOf a) (key.keyOf b)

def precedes : List SortKey → Row → Row → Bool
  | [] => fun _ _ => false
  | key :: keys => thenBy key.less (precedes keys)

def Comparable (keys : List SortKey) (row : Row) : Prop := ∀ key ∈ keys, (key.keyOf row).isComparable

section Passes

variable {key : SortKey} {keys : List SortKey} {rows : List Row}

theorem CellKey.ordersOn : OrdersOn (fun k : CellKey => k.isComparable) CellKey.less :=
  .of_rank CellKey.rank CellKey.less_iff_rank_lt

theorem CellKey.lessIn_ordersOn (descending : Bool) :
    OrdersOn (fun k : CellKey => k.isComparable) (CellKey.lessIn descending) := by
  cases descending with
  | true => exact CellKey.ordersOn.backwards
  | false => exact CellKey.ordersOn

theorem SortKey.ordersOn (key : SortKey) : OrdersOn (fun row => (key.keyOf row).isComparable) key.less :=
  (CellKey.lessIn_ordersOn key.descending).comap key.keyOf

theorem precedes_ordersOn (keys : List SortKey) : OrdersOn (Comparable keys) (precedes keys) := by
  induction keys with
  | nil => exact ⟨fun _ _ hless => (Bool.false_ne_true hless).elim, fun _ _ _ hless => (Bool.false_ne_true hless).elim⟩
  | cons key keys ih =>
    refine OrdersOn.thenBy (key.ordersOn.mono fun row hrow => ?_) (ih.mono fun row hrow => ?_)
    · exact hrow key mem_cons_self
    · exact fun key' hkey' => hrow key' (mem_cons_of_mem _ hkey')

theorem sorts_sortByKey (hrows : ∀ row ∈ rows, (key.keyOf row).isComparable) :
    Sorts key.less rows (sortByKey rows key) := by
  have hless : key.less = fun a b => CellKey.lessIn key.descending (key.keyOf a) (key.keyOf b) := rfl
  rw [hless, sortByKey]
  cases key.descending with
  | true =>
    exact sorts_descending_keyed CellKey.ordersOn key.keyOf hrows
  | false =>
    rw [show CellKey.lessIn false = CellKey.less from rfl]
    exact sorts_ascending_keyed CellKey.ordersOn key.keyOf hrows

theorem sortRows_cons (key : SortKey) (keys : List SortKey) (rows : List Row) :
    sortRows (key :: keys) rows = sortByKey (sortRows keys rows) key := by
  rw [sortRows, reverse_cons, foldl_append]
  rfl

theorem sorts_sortRows (hrows : ∀ row ∈ rows, Comparable keys row) :
    Sorts (precedes keys) rows (sortRows keys rows) := by
  induction keys with
  | nil => exact ⟨.refl _, pairwise_of_forall fun _ _ => rfl, fun _ _ => rfl⟩
  | cons key keys ih =>
    have hlater := ih fun row hrow key' hkey' => hrows row hrow key' (mem_cons_of_mem _ hkey')
    have hkey : ∀ row ∈ rows, (key.keyOf row).isComparable := fun row hrow => hrows row hrow key mem_cons_self
    rw [sortRows_cons]
    exact hlater.refine key.ordersOn (sorts_sortByKey fun row hrow => hkey row (hlater.mem_iff.1 hrow)) hkey

end Passes

/-! ## Expressions -/

/-- What a part of an expression asks for: a word for the column, and then the word for the direction or nothing. -/
def SortKey.Asks (part : List Char) (key : SortKey) : Prop :=
  ∃ before column after, part = before ++ column ++ after ∧ allBlank before ∧ column ≠ [] ∧ column.all isWord ∧
    key.column = String.ofList column ∧
    ((allBlank after ∧ key.descending = false) ∨
      ∃ gap word rest, after = gap ++ word ++ rest ∧ gap ≠ [] ∧ allBlank gap ∧ allBlank rest ∧
        (∃ direction ∈ [['a', 's', 'c'], ['d', 'e', 's', 'c']], afterWords? direction word = some []) ∧
        (key.descending = true ↔ lowerChars word = ['d', 'e', 's', 'c']))

theorem afterBlanks?_eq_some {cs rest : List Char} (h : afterBlanks? cs = some rest) :
    ∃ gap, cs = gap ++ rest ∧ gap ≠ [] ∧ allBlank gap = true := by
  cases cs with
  | nil => cases h
  | cons c cs =>
    by_cases hc : isBlank c = true
    · rw [afterBlanks?, if_pos hc] at h
      obtain rfl := Option.some.inj h
      refine ⟨c :: cs.takeWhile isBlank, ?_, cons_ne_nil _ _, ?_⟩
      · rw [cons_append, trimStart, takeWhile_append_dropWhile]
      · rw [allBlank, all_cons, hc, all_takeWhile]
        rfl
    · rw [afterBlanks?, if_neg hc] at h
      cases h

theorem SortKey.asks_of_parse? {part : List Char} {key : SortKey} (h : SortKey.parse? part = some key) :
    SortKey.Asks part key := by
  obtain ⟨⟨column, after⟩, hword, h⟩ := Option.bind_eq_some_iff.1 h
  obtain ⟨htrim, hne, hall⟩ := takeWord?_eq_some hword
  dsimp only at h
  refine ⟨part.takeWhile isBlank, column, after, ?_, all_takeWhile, hne, hall, ?_⟩
  · rw [append_assoc, ← htrim, trimStart, takeWhile_append_dropWhile]
  · by_cases hblank : allBlank after = true
    · rw [if_pos hblank] at h
      obtain rfl := Option.some.inj h
      exact ⟨rfl, .inl ⟨hblank, rfl⟩⟩
    · rw [if_neg hblank] at h
      obtain ⟨rest, hafter, h⟩ := Option.bind_eq_some_iff.1 h
      obtain ⟨gap, hgap, hgapne, hgapblank⟩ := afterBlanks?_eq_some hafter
      obtain ⟨blanks, hblanks, hrest⟩ := exists_trimEnd_append rest
      split at h
      · rename_i hdirection
        obtain rfl := Option.some.inj h
        obtain ⟨direction, hmem, heq⟩ := any_eq_true.1 hdirection
        refine ⟨rfl, .inr ⟨gap, trimEnd rest, blanks, ?_, hgapne, hgapblank, hblanks, ⟨direction, hmem, ?_⟩, ?_⟩⟩
        · rw [append_assoc, ← hrest, hgap]
        · exact beq_iff_eq.1 heq
        · exact beq_iff_eq
      · cases h

theorem asks_keysOf {parts : List (List Char)} (h : ∀ part ∈ parts, (SortKey.parse? part).isSome = true) :
    List.Forall₂ SortKey.Asks parts (parts.filterMap SortKey.parse?) := by
  induction parts with
  | nil => exact .nil
  | cons part parts ih =>
    obtain ⟨key, hkey⟩ := Option.isSome_iff_exists.1 (h part mem_cons_self)
    rw [filterMap_cons_some hkey]
    exact .cons (SortKey.asks_of_parse? hkey) (ih fun p hp => h p (mem_cons_of_mem _ hp))

/-- An expression that was checked is read as the columns and directions that it asks for, and the rows are sorted by
them, the first one the most important, as long as no cell that is compared reads as the number that is none. Rows
that are equal in all columns keep their order. -/
theorem sortRows_of_checked {orderBy : String} {rows : List Row} (horder : orderBy ≠ "")
    (hchk : checkOrder orderBy = []) (hrows : ∀ row ∈ rows, Comparable (keysOf orderBy) row) :
    ∃ keys, sortKeys (expressionParts orderBy) = .ok keys ∧ List.Forall₂ SortKey.Asks (expressionParts orderBy) keys ∧
      Sorts (precedes keys) rows (sortRows keys rows) ∧
      sortRows keys rows = ascending (precedes keys) rows := by
  refine ⟨keysOf orderBy, sortKeys_of_checked horder hchk, ?_, sorts_sortRows hrows, ?_⟩
  · exact asks_keysOf (checkOrder_eq_nil horder hchk)
  · exact Sorts.unique (precedes_ordersOn _) (sorts_sortRows hrows) (sorts_ascending (precedes_ordersOn _) hrows) hrows

def View.mixed : List Row :=
  [[("a", "x"), ("b", "2")], [("a", "10"), ("b", "2.0")], [("a", "9"), ("b", "20e-1")], [("a", "x"), ("b", "text")],
    [("a", "x"), ("b", "2"), ("c", "later")]]

theorem sortRows_mixed :
    ("b DESC, a" ≠ "" ∧ checkOrder "b DESC, a" = [] ∧ ∀ row ∈ View.mixed, Comparable (keysOf "b DESC, a") row) ∧
    ∃ keys, sortKeys (expressionParts "b DESC, a") = .ok keys ∧ Sorts (precedes keys) View.mixed
      [[("a", "x"), ("b", "text")], [("a", "9"), ("b", "20e-1")], [("a", "10"), ("b", "2.0")], [("a", "x"), ("b", "2")],
        [("a", "x"), ("b", "2"), ("c", "later")]] := by
  have hfacts : checkOrder "b DESC, a" = [] ∧
      (View.mixed.all fun row => (keysOf "b DESC, a").all fun key => (key.keyOf row).isComparable) = true ∧
      sortRows (keysOf "b DESC, a") View.mixed = [[("a", "x"), ("b", "text")], [("a", "9"), ("b", "20e-1")],
        [("a", "10"), ("b", "2.0")], [("a", "x"), ("b", "2")], [("a", "x"), ("b", "2"), ("c", "later")]] := by
    decide +kernel
  obtain ⟨hchk, hall, hsort⟩ := hfacts
  have horder : "b DESC, a" ≠ "" := by decide
  have hrows : ∀ row ∈ View.mixed, Comparable (keysOf "b DESC, a") row :=
    fun row hrow key hkey => all_eq_true.1 (all_eq_true.1 hall row hrow) key hkey
  refine ⟨⟨horder, hchk, hrows⟩, ?_⟩
  obtain ⟨keys, hkeys, -, hsorts, -⟩ := sortRows_of_checked horder hchk hrows
  obtain rfl := Except.ok.inj (hkeys.symm.trans (sortKeys_of_checked horder hchk))
  exact ⟨_, hkeys, hsort ▸ hsorts⟩

end Table

end Transclude
