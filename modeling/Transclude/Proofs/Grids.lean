import Mathlib.Data.List.Basic
import Transclude.Proofs.Scanning
import Transclude.Proofs.Views

/-!
# Tables as grids

The text of a table is a grid if it has one line for the headers, one below them and one for each row, with the same
number of bars (`IsGrid`). Cells cannot break it, but the names of columns and the text for empty cells are written as
they are (`render_isGrid_iff`).
-/

namespace Transclude.Table

open Text
open List hiding splitAt
open Option (bind_eq_some_iff)
open String (toList_append toList_intercalate toList_ofList)

variable {cells : List String}

/-! ## Bars -/

def bars (before : Char) : List Char → Nat
  | [] => 0
  | c :: cs => (if c = '|' ∧ before ≠ '\\' then 1 else 0) + bars c cs

def gridLines (text : String) : List (List Char) := (splitAt '\n' text.toList).dropLast

structure IsGrid (height width : Nat) (text : String) : Prop where
  height : (gridLines text).length = height
  width : ∀ line ∈ gridLines text, bars '\n' line = width

structure Plain (s : String) : Prop where
  line : '\n' ∉ s.toList
  bars : bars ' ' s.toList = 0

theorem bars_append_cons {c : Char} (hc : c ≠ '|') (before : Char) (xs ys : List Char) :
    bars before (xs ++ c :: ys) = bars before xs + bars c ys := by
  induction xs generalizing before with
  | nil => simp [bars, hc]
  | cons x xs ih => rw [cons_append, bars, bars, ih, Nat.add_assoc]

theorem bars_le_append (before : Char) (xs ys : List Char) : bars before xs ≤ bars before (xs ++ ys) := by
  induction xs generalizing before with
  | nil => exact Nat.zero_le _
  | cons x xs ih => exact Nat.add_le_add_left (ih x) _

/-! ## Lines -/

def cellsText (cells : List String) : List Char := cells.flatMap fun c => ' ' :: c.toList ++ [' ', '|']

theorem cellsText_cons (c : String) (cells : List String) :
    cellsText (c :: cells) = ' ' :: c.toList ++ ' ' :: '|' :: cellsText cells := by
  rw [cellsText, flatMap_cons, append_assoc]
  rfl

theorem toList_tableLine (h : cells ≠ []) : (tableLine cells).toList = '|' :: cellsText cells := by
  have hcells : ' ' :: [' ', '|', ' '].intercalate (cells.map String.toList) ++ [' ', '|'] = cellsText cells := by
    induction cells with
    | nil => exact absurd rfl h
    | cons c cells ih =>
      rw [cellsText_cons]
      cases cells with
      | nil => simp [cellsText]
      | cons d cells =>
        rw [← ih (cons_ne_nil _ _)]
        simp
  rw [tableLine, toList_append, toList_append, toList_intercalate, ← hcells]
  rfl

theorem newline_mem_tableLine (h : cells ≠ []) : '\n' ∈ (tableLine cells).toList ↔ ∃ c ∈ cells, '\n' ∈ c.toList := by
  rw [toList_tableLine h, cellsText]
  simp [mem_flatMap]

theorem bars_cellsText (before : Char) (cells : List String) : cells.length ≤ bars before (cellsText cells) ∧
    (bars before (cellsText cells) = cells.length ↔ ∀ c ∈ cells, bars ' ' c.toList = 0) := by
  induction cells generalizing before with
  | nil => exact ⟨Nat.le_refl 0, by simp [cellsText, bars]⟩
  | cons c cells ih =>
    have hcons : bars before (cellsText (c :: cells)) = bars ' ' c.toList + (1 + bars '|' (cellsText cells)) := by
      rw [cellsText_cons, cons_append, bars, bars_append_cons (by decide), bars]
      simp
    obtain ⟨hle, hiff⟩ := ih '|'
    rw [length_cons, forall_mem_cons, ← hiff]
    omega

theorem bars_tableLine_iff (h : cells ≠ []) :
    bars '\n' (tableLine cells).toList = cells.length + 1 ↔ ∀ c ∈ cells, bars ' ' c.toList = 0 := by
  rw [toList_tableLine h, ← (bars_cellsText '|' cells).2, bars, if_pos (by decide)]
  omega

/-! ## Texts of lines -/

theorem length_splitAt (sep : Char) (cs : List Char) : (splitAt sep cs).length = cs.count sep + 1 := by
  induction cs with
  | nil => rfl
  | cons c cs ih =>
    by_cases hc : c = sep
    · rw [hc, splitAt_cons_sep, length_cons, ih, count_cons_self]
    · have hne : splitAt sep cs ≠ [] := splitAt_ne_nil cs
      obtain ⟨piece, pieces, hpieces⟩ := exists_cons_of_ne_nil hne
      rw [splitAt, if_neg (by simpa using hc), count_cons_of_ne hc, ← ih, hpieces]
      rfl

theorem count_ended (lines : List (List Char)) : lines.length ≤ (ended lines).count '\n' ∧
    ((ended lines).count '\n' = lines.length ↔ ∀ line ∈ lines, '\n' ∉ line) := by
  induction lines with
  | nil => exact ⟨Nat.le_refl 0, by simp [ended]⟩
  | cons line lines ih =>
    obtain ⟨hle, hiff⟩ := ih
    rw [ended_cons, count_append, count_cons_self, length_cons, forall_mem_cons, ← hiff,
      ← count_eq_zero]
    omega

theorem isGrid_iff {width : Nat} {rows : List (List String)} {text : String} (hrows : rows ≠ [])
    (htext : text.toList = ended (rows.map fun cells => (tableLine cells).toList))
    (hwidth : ∀ cells ∈ rows, cells.length = width) :
    IsGrid rows.length (width + 1) text ↔ width ≠ 0 ∧ ∀ cells ∈ rows, ∀ c ∈ cells, Plain c := by
  have hlines : (∀ cells ∈ rows, '\n' ∉ (tableLine cells).toList) →
      gridLines text = rows.map fun cells => (tableLine cells).toList := by
    intro hnone
    rw [gridLines, htext, splitAt_ended (forall_mem_map.2 hnone), dropLast_concat]
  have hheight : (gridLines text).length = rows.length ↔ ∀ cells ∈ rows, '\n' ∉ (tableLine cells).toList := by
    have hcount := (count_ended (rows.map fun cells => (tableLine cells).toList)).2
    rw [length_map, forall_mem_map] at hcount
    rwa [gridLines, length_dropLast, length_splitAt, htext, Nat.add_sub_cancel]
  constructor
  · intro hgrid
    have hnone := hheight.1 hgrid.height
    have hbars : ∀ cells ∈ rows, bars '\n' (tableLine cells).toList = width + 1 := by
      have hbars := hgrid.width
      rwa [hlines hnone, forall_mem_map] at hbars
    have hne : width ≠ 0 := by
      rintro rfl
      obtain ⟨cells, hcells⟩ := exists_mem_of_ne_nil rows hrows
      have htwo := hbars cells hcells
      rw [length_eq_zero_iff.1 (hwidth cells hcells)] at htwo
      cases htwo
    refine ⟨hne, fun cells hcells c hc => ⟨fun hnewline => ?_, ?_⟩⟩
    · exact hnone cells hcells ((newline_mem_tableLine (ne_nil_of_mem hc)).2 ⟨c, hc, hnewline⟩)
    · have hwidths := hbars cells hcells
      rw [← hwidth cells hcells] at hwidths
      exact (bars_tableLine_iff (ne_nil_of_mem hc)).1 hwidths c hc
  · rintro ⟨hne, hplain⟩
    have hcells : ∀ cells ∈ rows, cells ≠ [] := by
      rintro cells hcells rfl
      exact hne (hwidth _ hcells).symm
    have hnone : ∀ cells ∈ rows, '\n' ∉ (tableLine cells).toList := by
      intro cells hmem hnewline
      obtain ⟨c, hc, hnewline⟩ := (newline_mem_tableLine (hcells cells hmem)).1 hnewline
      exact (hplain cells hmem c hc).line hnewline
    refine ⟨hheight.2 hnone, ?_⟩
    rw [hlines hnone, forall_mem_map]
    intro cells hmem
    rw [← hwidth cells hmem]
    exact (bars_tableLine_iff (hcells cells hmem)).2 fun c hc => (hplain cells hmem c hc).bars

/-! ## Cells -/

def escaped (cs : List Char) : List Char :=
  cs.flatMap fun c => if c == '|' then ['\\', '|'] else if c == '\n' then [' '] else if c == '\r' then [] else [c]

theorem bars_escaped (before : Char) (cs : List Char) : bars before (escaped cs) = 0 := by
  induction cs generalizing before with
  | nil => rfl
  | cons c cs ih =>
    change bars before (_ ++ escaped cs) = 0
    by_cases hbar : c = '|'
    · simp [hbar, bars, ih]
    · by_cases hfeed : c = '\n'
      · simp [hfeed, bars, ih]
      · by_cases hreturn : c = '\r'
        · simp [hreturn, ih]
        · simp [hbar, hfeed, hreturn, bars, ih]

theorem newline_not_mem_escaped (cs : List Char) : '\n' ∉ escaped cs := by
  intro hmem
  obtain ⟨c, -, hc⟩ := mem_flatMap.1 hmem
  split at hc
  · simp at hc
  · split at hc
    · simp at hc
    · rename_i hfeed
      split at hc
      · cases hc
      · rw [← mem_singleton.1 hc] at hfeed
        exact hfeed rfl

theorem formatCell_eq (view : View) {value : String} (h : value ≠ "") :
    ∃ cs n, ∃ tail ∈ [[], ['…']], (formatCell view value).toList = (escaped cs).take n ++ tail := by
  unfold formatCell
  rw [if_neg (by simpa using h)]
  dsimp only
  generalize (if (view.dateFormat == "") = true then value else _) = shown
  split
  · exact ⟨shown.toList, _, ['…'], by simp, by rw [toList_append, toList_ofList]; rfl⟩
  · exact ⟨shown.toList, (escaped shown.toList).length, [], by simp, by rw [toList_ofList, take_length, append_nil]; rfl⟩

theorem plain_formatCell_iff (view : View) (value : String) :
    Plain (formatCell view value) ↔ (value = "" → Plain view.nullText) := by
  by_cases h : value = ""
  · have hempty : formatCell view value = view.nullText := by rw [h]; rfl
    rw [hempty]
    exact ⟨fun hplain _ => hplain, fun hplain => hplain h⟩
  · refine ⟨fun _ hempty => absurd hempty h, fun _ => ?_⟩
    obtain ⟨cs, n, tail, htail, htext⟩ := formatCell_eq view h
    -- cutting a cell takes backslashes away from its end only
    have hcut : bars ' ' ((escaped cs).take n) ≤ 0 := by
      rw [← bars_escaped ' ' cs]
      nth_rewrite 2 [← take_append_drop n (escaped cs)]
      exact bars_le_append ' ' _ _
    have hline : '\n' ∉ (escaped cs).take n := fun hmem => newline_not_mem_escaped cs (mem_of_mem_take hmem)
    rcases mem_pair.1 htail with rfl | rfl
    · rw [append_nil] at htext
      exact ⟨htext ▸ hline, htext ▸ Nat.le_zero.1 hcut⟩
    · refine ⟨by simpa [htext] using hline, ?_⟩
      rw [htext, bars_append_cons (by decide), Nat.le_zero.1 hcut]
      rfl

/-! ## Tables -/

def tableCells (view : View) (headers : List String) (rows : List Row) : List (List String) :=
  headers :: (headers.map fun _ => "---") ::
    rows.map fun row => headers.map fun header => formatCell view (cell row header)

theorem toList_renderRows (view : View) (headers : List String) (rows : List Row) :
    (renderRows view headers rows).toList =
      ended ((tableCells view headers rows).map fun cells => (tableLine cells).toList) := by
  have hlines : renderRows view headers rows =
      "\n".intercalate ((tableCells view headers rows).map tableLine) ++ "\n" := by
    simp only [renderRows, tableCells, map_cons, map_map, Function.comp_def]
  have hne : (tableCells view headers rows).map (fun cells => (tableLine cells).toList) ≠ [] := cons_ne_nil _ _
  rw [hlines, toList_append, toList_intercalate, map_map, ← joinWith_append_newline hne,
    joinWith_eq_intercalate]
  rfl

theorem bars_eq_zero {cs : List Char} (h : '|' ∉ cs) (before : Char) : bars before cs = 0 := by
  induction cs generalizing before with
  | nil => rfl
  | cons c cs ih =>
    rw [mem_cons, not_or] at h
    rw [bars, if_neg fun hbar => h.1 hbar.1.symm, ih h.2]

theorem plain_of_word {word : List Char} (h : word.all isWord = true) : Plain (String.ofList word) := by
  have hnot : ∀ c, isWord c = false → c ∉ word := by
    intro c hc hmem
    rw [all_eq_true.1 h c hmem] at hc
    cases hc
  refine ⟨?_, ?_⟩
  · rw [toList_ofList]
    exact hnot '\n' (by decide)
  · rw [toList_ofList]
    exact bars_eq_zero (hnot '|' (by decide)) ' '

theorem plain_tableCells_iff (view : View) (headers : List String) (rows : List Row) :
    (∀ cells ∈ tableCells view headers rows, ∀ c ∈ cells, Plain c) ↔ (∀ header ∈ headers, Plain header) ∧
        ((∃ row ∈ rows, ∃ header ∈ headers, cell row header = "") → Plain view.nullText) := by
  have hdashes : Plain "---" := ⟨by decide, by decide⟩
  simp only [tableCells, forall_mem_cons, forall_mem_map, plain_formatCell_iff]
  constructor
  · rintro ⟨hheaders, -, hcells⟩
    refine ⟨hheaders, ?_⟩
    rintro ⟨row, hrow, header, hheader, hempty⟩
    exact hcells row hrow header hheader hempty
  · rintro ⟨hheaders, hempty⟩
    exact ⟨hheaders, fun _ _ => hdashes, fun row hrow header hheader hcell =>
      hempty ⟨row, hrow, header, hheader, hcell⟩⟩

theorem plain_of_column {part : List Char} {column : Column} (h : Column.parse? part = some column) :
    Plain column.name := by
  obtain ⟨⟨source, rest⟩, hsrc, h⟩ := bind_eq_some_iff.1 h
  dsimp only at h
  split at h
  · obtain rfl := Option.some.inj h
    exact plain_of_word (takeWord?_eq_some hsrc).2.2
  · obtain ⟨rest, -, h⟩ := bind_eq_some_iff.1 h
    obtain ⟨rest, -, h⟩ := bind_eq_some_iff.1 h
    obtain ⟨rest, -, h⟩ := bind_eq_some_iff.1 h
    obtain ⟨⟨name, rest⟩, hname, h⟩ := bind_eq_some_iff.1 h
    split at h
    · obtain rfl := Option.some.inj h
      exact plain_of_word (takeWord?_eq_some hname).2.2
    · cases h

theorem plain_of_selectColumns {parts : List (List Char)} {columns : List Column}
    (h : selectColumns parts = .ok columns) :
    columns.length = parts.length ∧ ∀ column ∈ columns, Plain column.name := by
  induction parts generalizing columns with
  | nil =>
    obtain rfl := Except.ok.inj h
    exact ⟨rfl, by simp⟩
  | cons part parts ih =>
    cases hcol : Column.parse? part with
    | none =>
      rw [selectColumns, hcol] at h
      cases h
    | some column =>
      cases hrest : selectColumns parts with
      | error crash =>
        rw [selectColumns, hcol, hrest] at h
        cases h
      | ok rest =>
        rw [selectColumns, hcol, hrest] at h
        obtain rfl := Except.ok.inj h
        obtain ⟨hlen, hplain⟩ := ih hrest
        exact ⟨congrArg (· + 1) hlen, forall_mem_cons.2 ⟨plain_of_column hcol, hplain⟩⟩

theorem headers_of_apply {view : View} {rows selected : List Row} {headers : List String}
    (h : view.apply rows = .ok (selected, headers)) (hsel : view.select ≠ "") :
    ∃ columns, selectColumns (expressionParts view.select) = .ok columns ∧ headers = columns.map (·.name) := by
  have hnot : (view.select == "") = false := by simpa using hsel
  unfold View.apply at h
  simp only [bind, Except.bind, pure, Except.pure, hnot] at h
  cases hfilt : filterRows view.filter rows with
  | error crash =>
    rw [hfilt] at h
    cases h
  | ok kept =>
    cases hcols : selectColumns (expressionParts view.select) with
    | error crash =>
      rw [hfilt, hcols] at h
      cases h
    | ok columns =>
      refine ⟨columns, rfl, ?_⟩
      rw [hfilt, hcols] at h
      dsimp only at h
      rw [if_neg Bool.false_ne_true] at h
      split at h
      · cases h
      · split at h
        · exact (Prod.mk.inj (Except.ok.inj h)).2.symm
        · split at h
          · cases h
          · exact (Prod.mk.inj (Except.ok.inj h)).2.symm

/-- A rendered table is a grid of a line for the headers, one below them and one for each row exactly if there is a
column, the names of all columns are plain and so is the text for empty cells, if there are any. -/
theorem render_isGrid_iff {view : View} {rows selected : List Row} {headers : List String} (hrows : rows ≠ [])
    (happly : view.apply rows = .ok (selected, headers)) (hselected : selected ≠ []) :
    ∃ text, view.render rows = .ok text ∧ (IsGrid (selected.length + 2) (headers.length + 1) text ↔
        headers ≠ [] ∧ (∀ header ∈ headers, Plain header) ∧
          ((∃ row ∈ selected, ∃ header ∈ headers, cell row header = "") → Plain view.nullText)) ∧
      (view.select ≠ "" → headers ≠ [] ∧ ∀ header ∈ headers, Plain header) := by
  have hrender : view.render rows = .ok (renderRows view headers selected) := by
    rw [render_eq hrows, happly, Except.map, if_neg (by simpa using hselected)]
  refine ⟨_, hrender, ?_, ?_⟩
  · have hwidth : ∀ cells ∈ tableCells view headers selected, cells.length = headers.length := by
      simp only [tableCells, forall_mem_cons, forall_mem_map, length_map, implies_true, and_self]
    have hheight : (tableCells view headers selected).length = selected.length + 2 := by simp [tableCells]
    have hne : tableCells view headers selected ≠ [] := cons_ne_nil _ _
    rw [← hheight, isGrid_iff hne (toList_renderRows view headers selected) hwidth,
      plain_tableCells_iff, ← length_pos_iff, Nat.pos_iff_ne_zero]
  · intro hsel
    obtain ⟨columns, hcols, rfl⟩ := headers_of_apply happly hsel
    obtain ⟨hlen, hplain⟩ := plain_of_selectColumns hcols
    refine ⟨fun hnil => ?_, forall_mem_map.2 hplain⟩
    have hparts : expressionParts view.select ≠ [] := splitAt_ne_nil _
    rw [map_eq_nil_iff.1 hnil] at hlen
    exact hparts (length_eq_zero_iff.1 hlen.symm)

def View.busy : List Row := [[("a", "1|2\n3"), ("b", "")], [("a", "long\r\ntext"), ("b", "\\")]]

def View.narrow : View :=
  { select := "a as x, b", nullText := "-", maxCell := 4 }

def View.renamed : List Row := [[("x", "1|2\n3"), ("b", "")], [("x", "long\r\ntext"), ("b", "\\")]]

theorem render_busy_isGrid :
    (View.busy ≠ [] ∧ View.narrow.apply View.busy = .ok (View.renamed, ["x", "b"]) ∧ View.renamed ≠ []) ∧
    View.narrow.render View.busy = .ok "| x | b |\n| --- | --- |\n| 1\\|… | - |\n| lon… | \\ |\n" ∧
    IsGrid 4 3 "| x | b |\n| --- | --- |\n| 1\\|… | - |\n| lon… | \\ |\n" := by
  have hfacts : View.narrow.apply View.busy = .ok (View.renamed, ["x", "b"]) ∧
      View.narrow.render View.busy = .ok "| x | b |\n| --- | --- |\n| 1\\|… | - |\n| lon… | \\ |\n" := by
    decide
  obtain ⟨happly, htext⟩ := hfacts
  have hrows : View.busy ≠ [] := cons_ne_nil _ _
  have hselected : View.renamed ≠ [] := cons_ne_nil _ _
  refine ⟨⟨hrows, happly, hselected⟩, htext, ?_⟩
  obtain ⟨text, hrender, hgrid, hsel⟩ := render_isGrid_iff hrows happly hselected
  obtain rfl := Except.ok.inj (hrender.symm.trans htext)
  obtain ⟨hne, hplain⟩ := hsel (by decide)
  exact hgrid.2 ⟨hne, hplain, fun _ => ⟨by decide, by decide⟩⟩

/-- A bar in the name of a column is written as it is. -/
theorem render_bar_in_header : View.apply {} [[("a|b", "1")]] = .ok ([[("a|b", "1")]], ["a|b"]) ∧
    View.render {} [[("a|b", "1")]] = .ok "| a|b |\n| --- |\n| 1 |\n" ∧
    ¬IsGrid 3 2 "| a|b |\n| --- |\n| 1 |\n" := by
  refine ⟨by decide, by decide, fun hgrid => ?_⟩
  have hfacts : (gridLines "| a|b |\n| --- |\n| 1 |\n").head? = some "| a|b |".toList ∧
      bars '\n' "| a|b |".toList = 3 := by decide
  obtain ⟨hhead, hbars⟩ := hfacts
  have htwo := hgrid.width _ (mem_of_head? hhead)
  cases htwo

end Transclude.Table
