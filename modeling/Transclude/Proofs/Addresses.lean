import Mathlib.Data.List.Nodup
import Transclude.Proofs.Numerals
import Transclude.Proofs.Paths
import Transclude.Query

/-!
# Addresses in data documents

Every value in a tree of mappings and lists has an address: the keys and positions that lead to it, between double
quotes and joined by points (`readPath_dotted`). Following a path fails exactly if the walk comes to where a part
leads nowhere (`follow_eq_error_iff`).
-/

namespace Transclude

open List Value

/-! ## Trees -/

namespace Value

inductive IsScalar : Value → Prop
  | null : IsScalar .null
  | bool (b : Bool) : IsScalar (.bool b)
  | int (n : Int) : IsScalar (.int n)
  | float (x : Number.Binary64) : IsScalar (.float x)
  | text (s : String) : IsScalar (.text s)

structure Keyed (entries : List (Value × Value)) : Prop where
  texts : ∀ e ∈ entries, ∃ k, e.1 = .text k
  nodup : (entries.map Prod.fst).Nodup

/-- A tree of mappings, lists and scalars, with keys without double quotes and positions that can be read. -/
inductive IsTree : Value → Prop
  | scalar {v : Value} (h : IsScalar v) : IsTree v
  | list {items : List Value} (hlen : items.length ≤ Nat.pow 10 Number.maxDigits) (hitems : ∀ v ∈ items, IsTree v) :
      IsTree (.list items)
  | map {entries : List (Value × Value)} (hkeyed : Keyed entries)
      (hquotes : ∀ k w, (.text k, w) ∈ entries → '"' ∉ k.toList) (hvals : ∀ e ∈ entries, IsTree e.2) :
      IsTree (.map entries)

section Entries

variable {entries : List (Value × Value)} {k : String} {w : Value}

theorem keyed_singleton (k : String) (v : Value) : Keyed [(.text k, v)] where
  texts := by simp
  nodup := nodup_singleton _

theorem get?_cons_text (a : String) (v : Value) (rest : List (Value × Value)) (k : String) :
    get? ((.text a, v) :: rest) k = if a = k then some v else get? rest k := by
  rw [get?, lookup?, List.find?_cons, get?, lookup?]
  have hsame : sameKey (.text a) (.text k) = (a == k) := rfl
  by_cases h : a = k
  · rw [hsame, beq_iff_eq.2 h, if_pos h]
    rfl
  · rw [hsame, beq_eq_false_iff_ne.2 h, if_neg h]

theorem Keyed.get?_eq_some_iff (h : Keyed entries) : get? entries k = some w ↔ (.text k, w) ∈ entries := by
  induction entries with
  | nil => exact iff_of_false (fun h => by cases h) not_mem_nil
  | cons e rest ih =>
    obtain ⟨key, v⟩ := e
    obtain ⟨⟨a, hkey⟩, htexts⟩ := forall_mem_cons.1 h.texts
    obtain rfl : key = .text a := hkey
    obtain ⟨hfirst, hnodup⟩ := nodup_cons.1 h.nodup
    rw [get?_cons_text]
    split_ifs with hk
    · subst hk
      have hrest : (text a, w) ∉ rest := fun hmem => hfirst (mem_map.2 ⟨_, hmem, rfl⟩)
      simp [hrest, eq_comm]
    · rw [ih ⟨htexts, hnodup⟩]
      simp [Ne.symm hk]

end Entries

end Value

namespace Query

open Text Number

/-! ## Written paths -/

def dotted (parts : List String) : String := ".".intercalate (parts.map fun part => "\"" ++ part ++ "\"")

section Written

variable {name rest : List Char} {names : List String}

theorem takeMarked?_of_ne {mark c : Char} (hc : c ≠ mark) : takeMarked? mark (c :: rest) = none := by
  rw [takeMarked?, beq_eq_false_iff_ne.2 hc, Bool.false_and, Bool.false_and, if_neg Bool.false_ne_true]

theorem takeMarked?_append {mark : Char} {inside : List Char} (hmark : mark ∉ inside) (hne : inside ≠ []) :
    takeMarked? mark (mark :: inside ++ mark :: rest) = some (mark :: inside ++ [mark]) := by
  rw [cons_append, takeMarked?, takeWhile_until hmark]
  simp [hne]

theorem takeMarked?_empty (mark : Char) : takeMarked? mark (mark :: mark :: rest) = none := by simp [takeMarked?]

theorem takePart_quoted (hname : '"' ∉ name) (hrest : rest.head?.all (· == '.') = true) :
    takePart ('"' :: name ++ '"' :: rest) = '"' :: name ++ ['"'] := by
  have hgrave : takeMarked? (Char.ofNat 96) ('"' :: name ++ '"' :: rest) = none := takeMarked?_of_ne (by decide)
  rw [takePart, hgrave, Option.getD_none]
  -- With nothing between the quotes the part is not taken as a marked one, but as a plain one up to the next point.
  by_cases hempty : name = []
  · subst hempty
    have hpoint : rest.takeWhile (· != '.') = [] := by
      cases rest with
      | nil => rfl
      | cons c rest =>
        obtain rfl : c = '.' := beq_iff_eq.1 hrest
        rfl
    rw [singleton_append, takeMarked?_empty]
    simp [hpoint]
  · rw [takeMarked?_append hname hempty, Option.getD_some]

theorem unmark_quoted (name : List Char) : unmark ('"' :: name ++ ['"']) = String.ofList name := by
  rw [unmark, cons_append, ← cons_append, dropLast_concat]
  rfl

theorem parts_quoted (hname : '"' ∉ name) (hrest : rest.head?.all (· == '.') = true) (fuel : Nat) :
    parts ('"' :: name ++ '"' :: rest) (fuel + 1) = String.ofList name :: parts rest fuel := by
  have hparts : parts ('"' :: name ++ '"' :: rest) (fuel + 1) = unmark (takePart ('"' :: name ++ '"' :: rest)) ::
        parts (('"' :: name ++ '"' :: rest).drop (takePart ('"' :: name ++ '"' :: rest)).length) fuel :=
    rfl
  have hsplit : '"' :: name ++ '"' :: rest = ('"' :: name ++ ['"']) ++ rest := by simp
  rw [hparts, takePart_quoted hname hrest, unmark_quoted]
  conv_lhs => rw [hsplit, drop_left]

def dottedChars (names : List String) : List Char := joinWith ['.'] (names.map fun name => '"' :: name.toList ++ ['"'])

theorem toList_dotted (names : List String) : (dotted names).toList = dottedChars names := by
  rw [dotted, dottedChars, String.toList_intercalate, joinWith_eq_intercalate, map_map]
  congr 1
  exact map_congr_left fun name _ => by simp

theorem dottedChars_cons (name : String) (hne : names ≠ []) :
    dottedChars (name :: names) = '"' :: name.toList ++ '"' :: '.' :: dottedChars names := by
  rw [dottedChars, map_cons, joinWith_cons (by simpa using hne)]
  simp [dottedChars]

theorem length_dottedChars (names : List String) : 2 * names.length ≤ (dottedChars names).length := by
  induction names with
  | nil => exact Nat.zero_le _
  | cons name names ih =>
    by_cases hne : names = []
    · subst hne
      simp [dottedChars, joinWith]
    · rw [dottedChars_cons name hne]
      simp only [length_cons, length_append]
      omega

theorem parts_dottedChars (hnames : ∀ name ∈ names, '"' ∉ name.toList) {fuel : Nat}
    (hfuel : 2 * names.length ≤ fuel) : parts (dottedChars names) fuel = names := by
  induction names generalizing fuel with
  | nil => cases fuel <;> rfl
  | cons name names ih =>
    obtain ⟨hname, hnames⟩ := forall_mem_cons.1 hnames
    rw [length_cons] at hfuel
    -- A name takes two steps: one for itself, one for the point behind it.
    obtain ⟨fuel, rfl⟩ := Nat.exists_eq_add_of_le' (by omega : 2 ≤ fuel)
    by_cases hne : names = []
    · subst hne
      have hlast : parts (dottedChars [name]) (fuel + 2) = String.ofList name.toList :: parts [] (fuel + 1) :=
        parts_quoted hname rfl (fuel + 1)
      rw [hlast, String.ofList_toList]
      rfl
    · have hfirst : parts (dottedChars (name :: names)) (fuel + 2) =
          String.ofList name.toList :: parts ('.' :: dottedChars names) (fuel + 1) := by
        rw [dottedChars_cons name hne]
        exact parts_quoted hname rfl (fuel + 1)
      have hpoint : parts ('.' :: dottedChars names) (fuel + 1) = parts (dottedChars names) fuel := rfl
      rw [hfirst, hpoint, String.ofList_toList, ih hnames (by omega)]

theorem readPath_dotted (hne : names ≠ []) (hnames : ∀ name ∈ names, '"' ∉ name.toList) :
    readPath (dotted names) = .ok names := by
  have hlen := length_dottedChars names
  rw [← toList_dotted, String.length_toList] at hlen
  have hempty : (dotted names).isEmpty = false := by
    rw [← Bool.not_eq_true, String.isEmpty_iff]
    intro heq
    rw [heq] at hlen
    rw [String.length_empty] at hlen
    exact hne (length_eq_zero_iff.1 (by omega))
  rw [readPath, hempty, if_neg Bool.false_ne_true, toList_dotted, parts_dottedChars hnames (by omega)]

end Written

/-! ## Walks -/

inductive Enters : Value → String → Value → Prop
  | key {entries : List (Value × Value)} {part : String} {w : Value} (h : (.text part, w) ∈ entries) :
      Enters (.map entries) part w
  | position {items : List Value} {part : String} {i : Nat} {w : Value} (hpart : Spells part i)
      (hi : items[i]? = some w) : Enters (.list items) part w

inductive Stops : Value → String → Missing → Prop
  | key {entries : List (Value × Value)} {part : String} (h : ∀ w, (.text part, w) ∉ entries) :
      Stops (.map entries) part (.key part)
  | number {items : List Value} {part : String} (h : ∀ n, ¬ Spells part n) : Stops (.list items) part (.key part)
  | range {items : List Value} {part : String} {n : Int} (hpart : Spells part n) (hn : n < 0 ∨ items.length ≤ n) :
      Stops (.list items) part (.position n items.length)
  | scalar {v : Value} {part : String} (h : v.IsScalar) : Stops v part (.key part)

inductive Walks : Value → List String → Value → Prop
  | here {v : Value} : Walks v [] v
  | on {v w u : Value} {part : String} {rest : List String} (h : Enters v part w) (hrest : Walks w rest u) :
      Walks v (part :: rest) u

section Walks

variable {v w : Value} {part : String} {path before : List String} {m : Missing} {items : List Value}

theorem isTree_of_enters (htree : v.IsTree) (h : Enters v part w) : w.IsTree := by
  cases h with
  | key hmem =>
    cases htree with
    | map hkeyed hquotes hvals => exact hvals _ hmem
    | scalar hscalar => cases hscalar
  | position hpart hi =>
    cases htree with
    | list hlen hitems => exact hitems w (mem_of_getElem? hi)
    | scalar hscalar => cases hscalar

theorem enters_or_stops (htree : v.IsTree) (part : String) : (∃ w, Enters v part w) ∨ ∃ m, Stops v part m := by
  cases htree with
  | scalar hscalar => exact .inr ⟨_, .scalar hscalar⟩
  | map hkeyed hquotes hvals =>
    rename_i entries
    by_cases hkey : ∃ w, (text part, w) ∈ entries
    · obtain ⟨w, hw⟩ := hkey
      exact .inl ⟨w, .key hw⟩
    · exact .inr ⟨_, .key (not_exists.1 hkey)⟩
  | list hlen hitems =>
    rename_i items
    by_cases hnumber : ∃ n, Spells part n
    · obtain ⟨n, hn⟩ := hnumber
      by_cases hrange : n < 0 ∨ items.length ≤ n
      · exact .inr ⟨_, .range hn hrange⟩
      · obtain ⟨i, rfl⟩ := Int.eq_ofNat_of_zero_le (by omega : 0 ≤ n)
        exact .inl ⟨items[i], .position hn (List.getElem?_eq_getElem _)⟩
    · exact .inr ⟨_, .number (not_exists.1 hnumber)⟩

theorem step_map (entries : List (Value × Value)) (part : String) :
    step (.map entries) part = (get? entries part).elim (.error (.key part)) .ok := by
  unfold step
  simp only [bare]
  cases get? entries part <;> rfl

theorem step_list {n : Int} (h : readInt part = .ok n) : step (.list items) part =
      (if n < 0 then none else items[n.toNat]?).elim (.error (.position n items.length)) .ok := by
  unfold step
  simp only [bare, h]
  cases (if n < 0 then none else items[n.toNat]?) <;> rfl

theorem step_of_mem {entries : List (Value × Value)} (hkeyed : Value.Keyed entries)
    (hmem : (.text part, w) ∈ entries) : step (.map entries) part = .ok w := by
  rw [step_map, hkeyed.get?_eq_some_iff.2 hmem, Option.elim_some]

theorem step_of_spells {i : Nat} (hpart : Spells part i) (hi : items[i]? = some w) :
    step (.list items) part = .ok w := by
  rw [step_list (readInt_eq_ok_iff.2 hpart), if_neg (by omega), Int.toNat_natCast, hi, Option.elim_some]

theorem step_of_enters (htree : v.IsTree) (h : Enters v part w) : step v part = .ok w := by
  cases h with
  | key hmem =>
    cases htree with
    | map hkeyed hquotes hvals => exact step_of_mem hkeyed hmem
    | scalar hscalar => cases hscalar
  | position hpart hi => exact step_of_spells hpart hi

theorem step_of_stops (htree : v.IsTree) (h : Stops v part m) : step v part = .error m := by
  cases h with
  | key hnone =>
    cases htree with
    | map hkeyed hquotes hvals =>
      rename_i entries
      have hget : get? entries part = none :=
        Option.eq_none_iff_forall_ne_some.2 fun w hw => hnone w (hkeyed.get?_eq_some_iff.1 hw)
      rw [step_map, hget, Option.elim_none]
    | scalar hscalar => cases hscalar
  | number hnone =>
    unfold step
    cases hread : readInt part with
    | error fault => simp only [bare]
    | ok n => exact absurd (readInt_eq_ok_iff.1 hread) (hnone n)
  | range hpart hn =>
    rename_i items n
    have hitem : (if n < 0 then none else items[n.toNat]?) = none := by
      split_ifs with hneg
      · rfl
      · exact List.getElem?_eq_none (by omega)
    rw [step_list (readInt_eq_ok_iff.2 hpart), hitem, Option.elim_none]
  | scalar hscalar => cases hscalar <;> rfl

theorem follow_cons (v : Value) (part : String) (rest : List String) :
    follow v (part :: rest) = step v part >>= fun w => follow w rest :=
  foldlM_cons

theorem follow_of_step (h : step v part = .ok w) (rest : List String) : follow v (part :: rest) = follow w rest := by
  rw [follow_cons, h]
  rfl

theorem follow_of_walks (htree : v.IsTree) (h : Walks v path w) : follow v path = .ok w := by
  induction h with
  | here => rfl
  | on henters hrest ih =>
    rw [follow_of_step (step_of_enters htree henters)]
    exact ih (isTree_of_enters htree henters)

theorem follow_eq_error_iff (htree : v.IsTree) : follow v path = .error m ↔
      ∃ before w part after, path = before ++ part :: after ∧ Walks v before w ∧ Stops w part m := by
  constructor
  · intro h
    induction path generalizing v with
    | nil => cases h
    | cons part rest ih =>
      rcases enters_or_stops htree part with ⟨w, hw⟩ | ⟨m', hm⟩
      · rw [follow_of_step (step_of_enters htree hw)] at h
        obtain ⟨before, u, part', after, rfl, hwalks, hstops⟩ := ih (isTree_of_enters htree hw) h
        exact ⟨part :: before, u, part', after, rfl, .on hw hwalks, hstops⟩
      · rw [follow_cons, step_of_stops htree hm] at h
        cases h
        exact ⟨[], v, part, rest, rfl, .here, hm⟩
  · rintro ⟨before, w, part, after, rfl, hwalks, hstops⟩
    induction hwalks with
    | here =>
      rw [nil_append, follow_cons, step_of_stops htree hstops]
      rfl
    | on henters hrest ih =>
      rw [cons_append, follow_of_step (step_of_enters htree henters)]
      exact ih (isTree_of_enters htree henters) hstops

end Walks

/-! ## Addresses -/

inductive Step where
  | key (name : String)
  | position (index : Nat)
deriving Repr, DecidableEq

def Step.text : Step → String
  | .key name => name
  | .position index => toString index

inductive Leads : Value → List Step → Value → Prop
  | here {v : Value} : Leads v [] v
  | key {entries : List (Value × Value)} {name : String} {w u : Value} {rest : List Step}
      (h : (.text name, w) ∈ entries) (hrest : Leads w rest u) : Leads (.map entries) (.key name :: rest) u
  | position {items : List Value} {i : Nat} {w u : Value} {rest : List Step} (hi : items[i]? = some w)
      (hrest : Leads w rest u) : Leads (.list items) (.position i :: rest) u

section Leads

variable {v w : Value} {steps : List Step}

theorem Leads.walks (htree : v.IsTree) (h : Leads v steps w) : Walks v (steps.map Step.text) w := by
  induction h with
  | here => exact .here
  | key hmem hrest ih =>
    have henters := Enters.key hmem
    exact .on henters (ih (isTree_of_enters htree henters))
  | position hi hrest ih =>
    cases htree with
    | list hlen hitems =>
      have hlt := (List.getElem?_eq_some_iff.1 hi).1
      have henters := Enters.position (spells_toString (Nat.lt_of_lt_of_le hlt hlen)) hi
      exact .on henters (ih (hitems _ (mem_of_getElem? hi)))
    | scalar hscalar => cases hscalar

theorem Leads.quote_not_mem (htree : v.IsTree) (h : Leads v steps w) :
    ∀ part ∈ steps.map Step.text, '"' ∉ part.toList := by
  induction h with
  | here => exact fun _ hpart => absurd hpart not_mem_nil
  | key hmem hrest ih =>
    cases htree with
    | map hkeyed hquotes hvals => exact forall_mem_cons.2 ⟨hquotes _ _ hmem, ih (hvals _ hmem)⟩
    | scalar hscalar => cases hscalar
  | position hi hrest ih =>
    cases htree with
    | list hlen hitems =>
      exact forall_mem_cons.2 ⟨not_mem_toString (by decide) _, ih (hitems _ (mem_of_getElem? hi))⟩
    | scalar hscalar => cases hscalar

end Leads

/-- Every value in a tree has an address: the steps to it, each between double quotes, are read as these steps and
lead to it. Following a path fails exactly if the walk along it comes to where a part leads nowhere. -/
theorem addressable {tree : Value} (htree : tree.IsTree) : (∀ steps v, steps ≠ [] → Leads tree steps v →
      readPath (dotted (steps.map Step.text)) = .ok (steps.map Step.text) ∧
      follow tree (steps.map Step.text) = .ok v) ∧
    ∀ path m, follow tree path = .error m ↔
      ∃ before v part after, path = before ++ part :: after ∧ Walks tree before v ∧ Stops v part m := by
  refine ⟨fun steps v hne hleads => ⟨?_, follow_of_walks htree (hleads.walks htree)⟩,
    fun path m => follow_eq_error_iff htree⟩
  exact readPath_dotted (by simpa using hne) (hleads.quote_not_mem htree)

/-- A list with a mapping in it, whose key has a point, a grave accent and a line feed. -/
def oddItems : List Value := [.null, .map [(.text "a.b`\n", .int 7)]]

def oddTree : Value := .map [(.text "", .list oddItems)]

theorem addressable_oddTree : oddTree.IsTree ∧ readPath "\"\".\"1\".\"a.b`\n\"" = .ok ["", "1", "a.b`\n"] ∧
    follow oddTree ["", "1", "a.b`\n"] = .ok (.int 7) ∧ follow oddTree ["", "2"] = .error (.position 2 2) := by
  have htwo : 2 < Nat.pow 10 maxDigits := Nat.lt_trans (by decide : 2 < maxDigits) (lt_pow_ten maxDigits)
  have hentry : ∀ k v, '"' ∉ k.toList → v.IsTree → (Value.map [(.text k, v)]).IsTree := by
    intro k v hquote hv
    refine .map (Value.keyed_singleton k v) (fun k' w hmem => ?_) (by simpa using hv)
    cases mem_singleton.1 hmem
    exact hquote
  have hitems : ∀ v ∈ oddItems, v.IsTree := forall_mem_cons.2
    ⟨.scalar .null, forall_mem_singleton.2 (hentry _ _ (by decide) (.scalar (.int 7)))⟩
  have htree : oddTree.IsTree := hentry _ _ (by decide) (.list htwo.le hitems)
  have hinner := (addressable htree).1 [.key "", .position 1, .key "a.b`\n"] (.int 7) (cons_ne_nil _ _)
    (.key (mem_singleton_self _) (.position rfl (.key (mem_singleton_self _) .here)))
  have hwalks : Walks oddTree [""] (.list oddItems) := .on (.key (mem_singleton_self _)) .here
  have hspells : Spells (toString 2) (2 : Nat) := spells_toString htwo
  have hstops : Stops (.list oddItems) "2" (.position 2 2) := .range hspells (.inr (Int.le_refl 2))
  have houter := ((addressable htree).2 ["", "2"] (.position 2 2)).2 ⟨[""], _, "2", [], rfl, hwalks, hstops⟩
  exact ⟨htree, hinner.1, hinner.2, houter⟩

end Query

end Transclude
