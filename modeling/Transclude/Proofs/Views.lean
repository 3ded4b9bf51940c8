import Mathlib.Data.List.Basic
import Transclude.Table.Source
import Transclude.Table.View

/-!
# Views of checked tables

What a view asks for is checked against the first row of a table, but the columns are looked for in the first row that
is kept. So a checked view is answered exactly if that row has them all (`render_of_checked`).
-/

namespace Transclude.Table

open List Text

/-! ## Filters of texts -/

def textFilter (conditions : List (String × String)) : Value := .map (conditions.map fun x => (.text x.1, .text x.2))

def fulfils (conditions : List (String × String)) (row : Row) : Bool :=
  conditions.all fun x => (Condition.parse x.2).holds (cell row x.1)

/-! ## Conditions that can be judged -/

def IsText (v : Value) : Prop := ∃ s, v = .text s

def cellFor (row : Row) : Value → String
  | .text name => cell row name
  | _ => ""

def meets (row : Row) (x : Value × Value) : Bool :=
  match x.2 with
  | .text s => (Condition.parse s).holds (cellFor row x.1)
  | _ => false

def Judged (row : Row) (conditions : List (Value × Value)) : Prop :=
  ∀ before x after, conditions = before ++ x :: after → ¬IsText x.2 → ∃ y ∈ before, meets row y = false

def passing (conditions : List (Value × Value)) (rows : List Row) : List Row :=
  rows.filter fun row => conditions.all (meets row)

section Conditions

variable {row : Row} {rows : List Row} {conditions : List (Value × Value)}

theorem admits_cons_text (row : Row) (column : Value) (s : String) (rest : List (Value × Value)) :
    admits row ((column, .text s) :: rest) = if meets row (column, .text s) then admits row rest else .ok false := rfl

theorem admits_cons_of_not_isText {column v : Value} (hv : ¬IsText v) :
    admits row ((column, v) :: conditions) = .error (.notText v.kind) := by
  cases v with
  | text s => exact absurd ⟨s, rfl⟩ hv
  | _ => rfl

theorem judged_nil : Judged row [] := by
  intro before x after h
  simp at h

theorem not_judged_cons {x : Value × Value} (hx : ¬IsText x.2) : ¬Judged row (x :: conditions) := by
  intro h
  obtain ⟨y, hy, -⟩ := h [] x conditions rfl hx
  cases hy

theorem judged_cons_text {column : Value} {s : String} :
    Judged row ((column, .text s) :: conditions) ↔ (meets row (column, .text s) = true → Judged row conditions) := by
  constructor
  · intro h hmeets before x after heq hx
    obtain ⟨y, hy, hfails⟩ := h (_ :: before) x after (congrArg _ heq) hx
    rcases mem_cons.1 hy with rfl | hy
    · exact absurd hmeets (by simp [hfails])
    · exact ⟨y, hy, hfails⟩
  · intro h before x after heq hx
    cases before with
    | nil =>
      obtain rfl := (List.cons.inj heq).1
      exact absurd ⟨s, rfl⟩ hx
    | cons y before =>
      obtain ⟨rfl, hrest⟩ := List.cons.inj heq
      cases hmeets : meets row (column, .text s) with
      | false => exact ⟨_, mem_cons_self, hmeets⟩
      | true =>
        obtain ⟨z, hz, hfails⟩ := h hmeets before x after hrest hx
        exact ⟨z, mem_cons_of_mem _ hz, hfails⟩

theorem admits_eq_ok_iff {b : Bool} :
    admits row conditions = .ok b ↔ Judged row conditions ∧ conditions.all (meets row) = b := by
  induction conditions with
  | nil => exact ⟨fun h => ⟨judged_nil, Except.ok.inj h⟩, fun h => congrArg Except.ok h.2⟩
  | cons x rest ih =>
    obtain ⟨column, v⟩ := x
    by_cases hv : IsText v
    · obtain ⟨s, rfl⟩ := hv
      rw [admits_cons_text, judged_cons_text, all_cons]
      cases hmeets : meets row (column, .text s) with
      | true => simpa [hmeets] using ih
      | false => simp
    · rw [admits_cons_of_not_isText hv]
      exact ⟨fun h => (by cases h), fun h => absurd h.1 (not_judged_cons hv)⟩

theorem filterM_eq_ok_iff {α ε : Type} {f : α → Except ε Bool} {P : α → Prop} {p : α → Bool} {xs ys : List α}
    (h : ∀ x b, f x = .ok b ↔ P x ∧ p x = b) : xs.filterM f = .ok ys ↔ (∀ x ∈ xs, P x) ∧ xs.filter p = ys := by
  have haux : ∀ taken : List α, (xs.filterAuxM f taken >>= fun as => pure as.reverse) = .ok ys ↔
      (∀ x ∈ xs, P x) ∧ taken.reverse ++ xs.filter p = ys := by
    induction xs with
    | nil => simp [filterAuxM, pure, Except.pure, bind, Except.bind]
    | cons x xs ih =>
      intro taken
      rw [filterAuxM, forall_mem_cons, filter_cons]
      cases hf : f x with
      | ok b =>
        obtain ⟨hx, rfl⟩ := (h x b).1 hf
        refine (ih _).trans ?_
        cases p x <;> simp [hx]
      | error e => exact ⟨fun h => (by cases h), fun hall => by simp [(h x _).2 ⟨hall.1.1, rfl⟩] at hf⟩
  exact haux []

theorem filterRows_eq_ok_iff {kept : List Row} : filterRows (.map conditions) rows = .ok kept ↔
      (∀ row ∈ rows, Judged row conditions) ∧ passing conditions rows = kept := by
  cases conditions with
  | nil =>
    have hpassing : passing [] rows = rows := filter_eq_self.2 fun _ _ => rfl
    rw [hpassing]
    exact ⟨fun h => ⟨fun _ _ => judged_nil, Except.ok.inj h⟩, fun h => congrArg Except.ok h.2⟩
  | cons x rest => exact filterM_eq_ok_iff fun row b => admits_eq_ok_iff

theorem filterRows_texts (conditions : List (String × String)) :
    filterRows (textFilter conditions) rows = .ok (rows.filter (fulfils conditions)) := by
  refine filterRows_eq_ok_iff.2 ⟨fun row _ before x after heq hx => ?_, ?_⟩
  · have hmem : x ∈ conditions.map fun x => (Value.text x.1, Value.text x.2) := by simp [heq]
    obtain ⟨y, -, rfl⟩ := mem_map.1 hmem
    exact absurd ⟨y.2, rfl⟩ hx
  · refine filter_congr fun row _ => ?_
    simp only [all_map, Function.comp_def, meets, cellFor, fulfils]

end Conditions

/-! ## Checked expressions -/

def columnsOf (select : String) : List Column := (expressionParts select).filterMap Column.parse?

def keysOf (orderBy : String) : List SortKey := (expressionParts orderBy).filterMap SortKey.parse?

theorem takeWord?_eq_some {cs word rest : List Char} (h : takeWord? cs = some (word, rest)) :
    cs = word ++ rest ∧ word ≠ [] ∧ word.all isWord = true := by
  unfold takeWord? at h
  split at h
  · cases h
  · rename_i hne
    obtain ⟨rfl, rfl⟩ := Prod.mk.inj (Option.some.inj h)
    refine ⟨?_, hne, all_takeWhile⟩
    exact (prefix_iff_eq_append.1 ( takeWhile_prefix isWord)).symm

section Checked

variable {select orderBy : String} {first : Row} {rest : List Row}

theorem read_eq_filterMap {β : Type} (parse : List Char → Option β) (read : List (List Char) → Except Crash (List β))
    (nil : read [] = .ok [])
    (cons : ∀ part parts x xs, parse part = some x → read parts = .ok xs → read (part :: parts) = .ok (x :: xs))
    {parts : List (List Char)} (h : ∀ part ∈ parts, (parse part).isSome = true) :
    read parts = .ok (parts.filterMap parse) := by
  induction parts with
  | nil => exact nil
  | cons part parts ih =>
    obtain ⟨x, hx⟩ := Option.isSome_iff_exists.1 (h part mem_cons_self)
    rw [filterMap_cons_some hx]
    exact cons part parts x _ hx (ih fun p hp => h p (mem_cons_of_mem _ hp))

theorem checkSelect_eq_nil (hsel : select ≠ "") (h : checkSelect (first :: rest) select = []) :
    ∀ part ∈ expressionParts select, ∃ column, Column.parse? part = some column ∧ column.source ∈ first.map (·.1) := by
  have hnot : ¬(select == "") = true := by simpa using hsel
  intro part hpart
  simp only [checkSelect, if_neg hnot, filterMap_eq_nil_iff] at h
  have hpart := h part hpart
  cases hcol : Column.parse? part with
  | none => simp [hcol] at hpart
  | some column =>
    refine ⟨column, rfl, ?_⟩
    rw [hcol] at hpart
    by_contra hmissing
    dsimp only at hpart
    rw [if_neg (by rwa [contains_iff_mem])] at hpart
    cases hpart

theorem checkOrder_eq_nil (horder : orderBy ≠ "") (h : checkOrder orderBy = []) :
    ∀ part ∈ expressionParts orderBy, (SortKey.parse? part).isSome = true := by
  have hnot : ¬(orderBy == "") = true := by simpa using horder
  intro part hpart
  simp only [checkOrder, if_neg hnot, filterMap_eq_nil_iff] at h
  cases hkey : SortKey.parse? part with
  | none => simpa [hkey] using h part hpart
  | some key => rfl

theorem selectColumns_of_checked (hsel : select ≠ "") (h : checkSelect (first :: rest) select = []) :
    selectColumns (expressionParts select) = .ok (columnsOf select) := by
  refine read_eq_filterMap Column.parse? selectColumns rfl ?_ fun part hpart => ?_
  · intro part parts x xs hx hxs
    simp only [selectColumns, hx, hxs]
    rfl
  · obtain ⟨column, hcol, -⟩ := checkSelect_eq_nil hsel h part hpart
    rw [hcol]
    rfl

theorem sortKeys_of_checked (horder : orderBy ≠ "") (h : checkOrder orderBy = []) :
    sortKeys (expressionParts orderBy) = .ok (keysOf orderBy) := by
  refine read_eq_filterMap SortKey.parse? sortKeys rfl ?_ (checkOrder_eq_nil horder h)
  intro part parts x xs hx hxs
  simp only [sortKeys, hx, hxs]
  rfl

theorem mem_of_mem_columnsOf (hsel : select ≠ "") (h : checkSelect (first :: rest) select = []) {column : Column}
    (hcol : column ∈ columnsOf select) : column.source ∈ first.map (·.1) := by
  obtain ⟨part, hpart, heq⟩ := mem_filterMap.1 hcol
  obtain ⟨column', hcol', hmem⟩ := checkSelect_eq_nil hsel h part hpart
  obtain rfl := Option.some.inj (heq.symm.trans hcol')
  exact hmem

end Checked

/-! ## Answers to checked views -/

def lacking? (select : String) (row : Row) : Option Column :=
  if select == "" then none else (columnsOf select).find? fun column => (row.lookup column.source).isNone

def View.shown (view : View) (kept : List Row) : List Row × List String :=
  let rows := if view.select == "" then kept else kept.map (project (columnsOf view.select))
  let headers := if view.select == "" then (kept.head?.getD []).map (·.1) else (columnsOf view.select).map (·.name)
  let sorted := if view.orderBy == "" then rows else sortRows (keysOf view.orderBy) rows
  (takeUpTo view.limit (dropTo view.offset sorted), headers)

def View.answer (view : View) (kept : List Row) : String :=
  if (view.shown kept).1.isEmpty then noResults else renderRows view (view.shown kept).2 (view.shown kept).1

section Answer

variable {view : View} {rows : List Row} {conditions : List (String × String)} {select : String}

theorem checkColumns_eq (hsel : select ≠ "") : checkColumns rows (columnsOf select) =
    (rows.head?.bind (lacking? select)).elim (.ok ()) fun column =>
      .error (.broken s!"column '{column.source}' not found — must be caught by normalize_input") := by
  cases rows with
  | nil => rfl
  | cons first rest =>
    rw [head?_cons, Option.bind_some, lacking?, if_neg (by simpa using hsel), checkColumns]
    cases (columnsOf select).find? _ with
    | none => rfl
    | some column => rfl

theorem lacking?_eq_none {first row : Row} {rest : List Row} (h : checkSelect (first :: rest) select = [])
    (hrow : first.map (·.1) ⊆ row.map (·.1)) : lacking? select row = none := by
  by_cases hsel : select = ""
  · rw [lacking?, if_pos (by simpa using hsel)]
  · rw [lacking?, if_neg (by simpa using hsel), List.find?_eq_none]
    intro column hcol hnone
    obtain ⟨x, hx, hsrc⟩ := mem_map.1 (hrow (mem_of_mem_columnsOf hsel h hcol))
    rw [Option.isNone_iff_eq_none, lookup_eq_none_iff] at hnone
    simpa [hsrc] using hnone x hx

theorem render_eq (hrows : rows ≠ []) :
    view.render rows = (view.apply rows).map fun x => if x.1.isEmpty then noResults else renderRows view x.2 x.1 := by
  have hempty : rows.isEmpty = false := by simpa using hrows
  unfold View.render
  rw [hempty]
  cases view.apply rows with
  | error e => rfl
  | ok x => rfl

structure Checked (select orderBy : String) (rows : List Row) : Prop where
  ne_nil : rows ≠ []
  columns : checkSelect rows select = []
  order : checkOrder orderBy = []

theorem Checked.apply {kept : List Row} (h : Checked view.select view.orderBy rows)
    (hkept : filterRows view.filter rows = .ok kept) :
    view.apply rows = if view.select == "" then .ok (view.shown kept)
      else (checkColumns kept (columnsOf view.select)).map fun _ => view.shown kept := by
  obtain ⟨first, rest, rfl⟩ := exists_cons_of_ne_nil h.ne_nil
  have horders : (view.orderBy == "") = false → sortKeys (expressionParts view.orderBy) = .ok (keysOf view.orderBy) :=
    fun ho => sortKeys_of_checked (by simpa using ho) h.order
  unfold View.apply View.shown
  rw [hkept]
  simp only [bind, Except.bind, pure, Except.pure]
  cases hs : view.select == "" with
  | true =>
    cases ho : view.orderBy == "" with
    | true => rfl
    | false =>
      rw [horders ho]
      rfl
  | false =>
    rw [selectColumns_of_checked (by simpa using hs) h.columns]
    cases hcheck : checkColumns kept (columnsOf view.select) with
    | error e => simp [hcheck, Except.map]
    | ok u =>
      simp only [hcheck]
      cases ho : view.orderBy == "" with
      | true => rfl
      | false =>
        rw [horders ho]
        rfl

theorem Checked.render {kept : List Row} (h : Checked view.select view.orderBy rows)
    (hkept : filterRows view.filter rows = .ok kept) : view.render rows =
      (kept.head?.bind (lacking? view.select)).elim (.ok (view.answer kept)) fun column =>
        .error (.broken s!"column '{column.source}' not found — must be caught by normalize_input") := by
  rw [render_eq h.ne_nil, h.apply hkept]
  by_cases hs : view.select = ""
  · have hlack : kept.head?.bind (lacking? view.select) = none := by
      cases kept with
      | nil => rfl
      | cons row rows => rw [head?_cons, Option.bind_some, lacking?, if_pos (by simpa using hs)]
    rw [if_pos (by simpa using hs), hlack]
    rfl
  · rw [if_neg (by simpa using hs), checkColumns_eq hs]
    cases kept.head?.bind (lacking? view.select) with
    | none => rfl
    | some column => rfl

/-- A checked view with a filter of texts is answered by a table or the note that there are no results, exactly if the
first row that the filter keeps has every column that is asked for. If all rows have the columns of the first, it is
always answered. -/
theorem render_of_checked (hrows : rows ≠ []) (hfilt : view.filter = textFilter conditions)
    (hsel : checkSelect rows view.select = []) (horder : checkOrder view.orderBy = []) :
    (view.render rows = .ok (view.answer (rows.filter (fulfils conditions))) ↔
      (rows.filter (fulfils conditions)).head?.bind (lacking? view.select) = none) ∧
    (∀ column, (rows.filter (fulfils conditions)).head?.bind (lacking? view.select) = some column → view.render rows =
        .error (.broken s!"column '{column.source}' not found — must be caught by normalize_input")) ∧
    ((∀ row ∈ rows, (rows.headD []).map (·.1) ⊆ row.map (·.1)) →
      view.render rows = .ok (view.answer (rows.filter (fulfils conditions)))) := by
  have hrender := Checked.render ⟨hrows, hsel, horder⟩ (hfilt ▸ filterRows_texts conditions)
  have hanswered : (rows.filter (fulfils conditions)).head?.bind (lacking? view.select) = none →
      view.render rows = .ok (view.answer (rows.filter (fulfils conditions))) := fun hlack => by
    rw [hrender, hlack, Option.elim_none]
  refine ⟨⟨fun hok => ?_, hanswered⟩, fun column hlack => by rw [hrender, hlack, Option.elim_some],
    fun hsame => hanswered ?_⟩
  · cases hlack : (rows.filter (fulfils conditions)).head?.bind (lacking? view.select) with
    | none => rfl
    | some column =>
      rw [hrender, hlack] at hok
      cases hok
  · obtain ⟨first, rest, rfl⟩ := exists_cons_of_ne_nil hrows
    refine Option.bind_eq_none_iff.2 fun row hrow => lacking?_eq_none hsel (hsame row ?_)
    exact (mem_filter.1 (mem_of_head? hrow)).1

def View.even : List Row := [[("a", "1"), ("b", "x")], [("a", "2"), ("b", "y")], [("b", "z"), ("a", "3")]]

def View.later : View :=
  { select := "b as c, a", orderBy := "a desc", filter := textFilter [("a", ">1")] }

theorem render_even :
    (View.even ≠ [] ∧ View.later.filter = textFilter [("a", ">1")] ∧ checkSelect View.even View.later.select = [] ∧
      checkOrder View.later.orderBy = []) ∧
    View.later.render View.even = .ok "| c | a |\n| --- | --- |\n| z | 3 |\n| y | 2 |\n" := by
  have hfacts : checkSelect View.even View.later.select = [] ∧ checkOrder View.later.orderBy = [] ∧
      (View.even.filter (fulfils [("a", ">1")])).head?.bind (lacking? View.later.select) = none ∧
      View.later.answer (View.even.filter (fulfils [("a", ">1")])) =
        "| c | a |\n| --- | --- |\n| z | 3 |\n| y | 2 |\n" := by
    decide +kernel
  obtain ⟨hsel, horder, hlack, hans⟩ := hfacts
  have hrows : View.even ≠ [] := cons_ne_nil _ _
  refine ⟨⟨hrows, rfl, hsel, horder⟩, ?_⟩
  rw [(render_of_checked hrows rfl hsel horder).1.2 hlack, hans]

def View.uneven : List Row := [[("a", "1")], [("b", "2")]]

/-- A filter brings a row to the front that lacks the column, which was found in the first row. -/
theorem render_lacking : View.uneven ≠ [] ∧ checkSelect View.uneven "a" = [] ∧ checkOrder "" = [] ∧
    View.render { select := "a", filter := textFilter [("b", "2")] } View.uneven =
      .error (.broken "column 'a' not found — must be caught by normalize_input") := by
  decide +kernel

end Answer

end Transclude.Table
