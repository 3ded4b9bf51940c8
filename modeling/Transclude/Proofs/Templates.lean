import Mathlib.Data.List.TakeWhile
import Transclude.Proofs.Reading

/-!
# Templates that can be filled

`Filled text depth template out` says, without following the filling itself, that a template becomes `out` when
`value` names `text`. A template is filled exactly if it is built in this way (`fill_eq_ok_iff`).
-/

namespace Transclude.Template

open List Text

variable {fuel depth : Nat} {f : Field} {c mark : Char} {layout name rest : List Char} {inBrackets : Bool}

/-! ## Fields as they are written -/

def isName (inBrackets : Bool) : List Char → Bool
  | [] => !inBrackets
  | c :: cs =>
    if inBrackets then isName (c != ']') cs
    else !(c == '{' || c == '}' || c == ':' || c == '!') && isName (c == '[') cs

def depthAfter (depth : Nat) (c : Char) : Nat := if c == '{' then depth + 1 else if c == '}' then depth - 1 else depth

def Closes (depth : Nat) : List Char → Prop
  | [] => depth = 0
  | c :: cs => ¬(c = '}' ∧ depth = 0) ∧ Closes (depthAfter depth c) cs

/-- How a field is written after its opening brace: the name, perhaps a conversion, and a layout. -/
structure Field.Written (f : Field) (cs : List Char) : Prop where
  name : isName false f.name = true
  layout : Closes 0 f.layout
  spelled : cs = f.name ++ (f.conversion.elim [] fun c => ['!', c]) ++ ':' :: f.layout ++ ['}'] ∨
    f.layout = [] ∧ cs = f.name ++ (f.conversion.elim [] fun c => ['!', c]) ++ ['}']

section Written

variable {cs rest : List Char}

theorem takeName_sound (h : takeName inBrackets cs = .ok (name, some mark, rest)) :
    cs = name ++ mark :: rest ∧ isName inBrackets name = true ∧ (mark = '}' ∨ mark = ':' ∨ mark = '!') := by
  induction cs generalizing inBrackets name with
  | nil => cases h
  | cons c cs ih =>
    rw [takeName] at h
    split_ifs at h with hin hopen hmark
    · obtain ⟨⟨name', mark', rest'⟩, htake, h⟩ := Except.of_bind_eq_ok h
      cases h
      obtain ⟨rfl, hname, hmark⟩ := ih htake
      exact ⟨rfl, by simpa [isName, hin] using hname, hmark⟩
    · cases h
      refine ⟨rfl, by simpa [isName] using hin, by simpa [or_assoc] using hmark⟩
    · obtain ⟨⟨name', mark', rest'⟩, htake, h⟩ := Except.of_bind_eq_ok h
      cases h
      obtain ⟨rfl, hname, hmark'⟩ := ih htake
      simp_all [isName]

theorem takeName_complete (hname : isName inBrackets name = true) (hmark : mark = '}' ∨ mark = ':' ∨ mark = '!') :
    takeName inBrackets (name ++ mark :: rest) = .ok (name, some mark, rest) := by
  induction name generalizing inBrackets with
  | nil =>
    have hin : inBrackets = false := by simpa [isName] using hname
    rcases hmark with rfl | rfl | rfl <;> rw [hin] <;> rfl
  | cons c name ih =>
    rw [isName] at hname
    rw [cons_append, takeName]
    split_ifs at hname with hin
    · rw [if_pos hin, ih hname]
      rfl
    · obtain ⟨hplain, hname⟩ := Bool.and_eq_true_iff.1 hname
      simp only [Bool.not_eq_true', Bool.or_eq_false_iff] at hplain
      rw [if_neg hin, if_neg (by simp [hplain]), if_neg (by simp [hplain]), ih hname]
      rfl

theorem takeLayout_cons (depth : Nat) (c : Char) (cs : List Char) :
    takeLayout depth (c :: cs) = if c == '}' && depth == 0 then .ok ([], cs)
      else takeLayout (depthAfter depth c) cs >>= fun x => .ok (c :: x.1, x.2) := by
  rfl

theorem takeLayout_sound (h : takeLayout depth cs = .ok (layout, rest)) :
    cs = layout ++ '}' :: rest ∧ Closes depth layout := by
  induction cs generalizing depth layout with
  | nil => cases h
  | cons c cs ih =>
    rw [takeLayout_cons] at h
    split_ifs at h with hend
    · cases h
      obtain ⟨rfl, rfl⟩ : c = '}' ∧ depth = 0 := by simpa using hend
      exact ⟨rfl, rfl⟩
    · obtain ⟨x, htake, h⟩ := Except.of_bind_eq_ok h
      cases h
      obtain ⟨rfl, hcloses⟩ := ih htake
      exact ⟨rfl, by simpa using hend, hcloses⟩

theorem takeLayout_complete (h : Closes depth layout) :
    takeLayout depth (layout ++ '}' :: rest) = .ok (layout, rest) := by
  induction layout generalizing depth with
  | nil =>
    obtain rfl : depth = 0 := h
    rfl
  | cons c layout ih =>
    obtain ⟨hend, hcloses⟩ := h
    rw [cons_append, takeLayout_cons, if_neg (by simpa using hend), ih hcloses]
    rfl

theorem takeField_sound (h : takeField cs = .ok (f, rest)) : ∃ written, f.Written written ∧ cs = written ++ rest := by
  obtain ⟨⟨name, mark, after⟩, htake, hafter⟩ := Except.of_bind_eq_ok h
  cases mark with
  | none => cases hafter
  | some mark =>
    obtain ⟨rfl, hname, hmark⟩ := takeName_sound htake
    rcases hmark with rfl | rfl | rfl
    · cases hafter
      exact ⟨name ++ ['}'], ⟨hname, rfl, .inr ⟨rfl, by simp⟩⟩, by simp⟩
    · obtain ⟨⟨layout, rest'⟩, hlayout, hfield⟩ := Except.of_bind_eq_ok hafter
      cases hfield
      obtain ⟨rfl, hcloses⟩ := takeLayout_sound hlayout
      exact ⟨name ++ ':' :: layout ++ ['}'], ⟨hname, hcloses, .inl (by simp)⟩, by simp⟩
    · rcases after with _ | ⟨c, _ | ⟨d, after⟩⟩
      · cases hafter
      · cases hafter
      · by_cases hend : d = '}'
        · subst hend
          cases hafter
          exact ⟨name ++ ['!', c, '}'], ⟨hname, rfl, .inr ⟨rfl, by simp⟩⟩, by simp⟩
        · by_cases hcolon : d = ':'
          · subst hcolon
            obtain ⟨⟨layout, rest'⟩, hlayout, hfield⟩ := Except.of_bind_eq_ok hafter
            cases hfield
            obtain ⟨rfl, hcloses⟩ := takeLayout_sound hlayout
            exact ⟨name ++ '!' :: c :: ':' :: layout ++ ['}'], ⟨hname, hcloses, .inl (by simp)⟩, by simp⟩
          · simp [hend, hcolon] at hafter

theorem takeField_complete {written : List Char} (h : f.Written written) :
    takeField (written ++ rest) = .ok (f, rest) := by
  obtain ⟨hname, hcloses, hspelled⟩ := h
  obtain ⟨name, conversion, layout⟩ := f
  cases conversion with
  | none =>
    rcases hspelled with rfl | ⟨rfl, rfl⟩
    · simp only [Option.elim_none, append_nil, append_assoc, cons_append, nil_append]
      rw [takeField, takeName_complete hname (.inr (.inl rfl))]
      simp only [Except.ok_bind]
      rw [takeLayout_complete hcloses]
      rfl
    · simp only [Option.elim_none, append_nil, append_assoc, cons_append, nil_append]
      rw [takeField, takeName_complete hname (.inl rfl)]
      rfl
  | some c =>
    rcases hspelled with rfl | ⟨rfl, rfl⟩
    · simp only [Option.elim_some, append_assoc, cons_append, nil_append]
      rw [takeField, takeName_complete hname (.inr (.inr rfl))]
      simp only [Except.ok_bind]
      rw [takeLayout_complete hcloses]
      rfl
    · simp only [Option.elim_some, append_assoc, cons_append, nil_append]
      rw [takeField, takeName_complete hname (.inr (.inr rfl))]
      rfl

end Written

/-! ## What a field names -/

inductive Indexed : List Char → List Char → List Char → Prop
  | nil {text : List Char} : Indexed text [] text
  | item {text digits rest out : List Char} {c : Char} (hdigs : digits ≠ []) (hdec : digits.all isDecimal = true)
      (hmax : digitsValue digits ≤ maxNumber) (hc : text[digitsValue digits]? = some c) (hrest : Indexed [c] rest out) :
      Indexed text ('[' :: digits ++ ']' :: rest) out

/-- What a name stands for when `value` names a text. -/
def Names (text name out : List Char) : Prop := ∃ items, name = "value".toList ++ items ∧ Indexed text items out

section Names

variable {text cs out : List Char}

theorem number?_eq_some_iff {i : Nat} : number? cs = .ok (some i) ↔
      cs ≠ [] ∧ cs.all isDecimal = true ∧ digitsValue cs ≤ maxNumber ∧ digitsValue cs = i := by
  cases cs with
  | nil => simp [number?]
  | cons c cs =>
    by_cases hall : (c :: cs).all isDecimal = true
    · have htake : (c :: cs).takeWhile isDecimal = c :: cs := takeWhile_eq_self_iff.2 (all_eq_true.1 hall)
      have hnumber : number? (c :: cs) = if digitsValue (c :: cs) > maxNumber then .error .tooManyDigits
          else .ok (some (digitsValue (c :: cs))) := by
        simp [number?, htake]
      rw [hnumber]
      split_ifs with hmax
      · simp [Nat.not_le_of_lt hmax]
      · simp only [hall, Nat.le_of_not_lt hmax, Except.ok.injEq, Option.some.injEq]
        simp
    · have htake : ((c :: cs).takeWhile isDecimal).length ≠ (c :: cs).length := fun hlen =>
        hall (all_eq_true.2 (takeWhile_eq_self_iff.1 (( takeWhile_prefix _).eq_of_length hlen)))
      have hnumber : number? (c :: cs) ≠ .ok (some i) := by
        simp only [number?, if_neg htake]
        split_ifs <;> simp
      exact ⟨fun h => absurd h hnumber, fun h => absurd h.2.1 hall⟩

theorem follow_item {digits : List Char} (fuel : Nat) (h : ']' ∉ digits) :
    follow text ('[' :: digits ++ ']' :: rest) (fuel + 1) = number? digits >>= fun index =>
      if digits.isEmpty then .error .emptyPart
      else index.elim (.error .itemByName) fun i =>
        text[i]?.elim (.error .itemRange) fun c => follow [c] rest fuel := by
  have hlen : digits.length ≠ (digits ++ ']' :: rest).length := by simp
  have hdrop : (digits ++ ']' :: rest).drop (digits.length + 1) = rest := by simp
  rw [cons_append, follow]
  simp only [takeWhile_until h, if_neg hlen, hdrop]
  cases number? digits with
  | error e => rfl
  | ok index =>
    simp only [Except.ok_bind]
    split_ifs with hempty
    · rfl
    · cases index with
      | none => rfl
      | some i =>
        cases hc : text[i]? with
        | none => simp [hc]
        | some c => simp [hc]

theorem follow_sound (hfuel : cs.length < fuel) (h : follow text cs fuel = .ok out) : Indexed text cs out := by
  induction fuel generalizing text cs with
  | zero => omega
  | succ fuel ih =>
    cases cs with
    | nil =>
      cases h
      exact .nil
    | cons c cs =>
      by_cases hopen : c = '['
      · subst hopen
        by_cases hclose : ']' ∈ cs
        · obtain ⟨digits, rest, rfl, hnot⟩ := eq_append_cons_of_mem hclose
          rw [← cons_append, follow_item fuel hnot] at h
          obtain ⟨index, hindex, hitem⟩ := Except.of_bind_eq_ok h
          split_ifs at hitem
          cases index with
          | none => cases hitem
          | some i =>
            obtain ⟨hdigs, hdec, hmax, rfl⟩ := number?_eq_some_iff.1 hindex
            cases hc : text[digitsValue digits]? with
            | none => simp [hc] at hitem
            | some c =>
              simp only [Option.elim_some, hc] at hitem
              simp only [length_cons, length_append] at hfuel
              exact .item hdigs hdec hmax hc (ih (by omega) hitem)
        · have htake : cs.takeWhile (· != ']') = cs := by
            refine takeWhile_eq_self_iff.2 fun x hx => ?_
            simpa using ne_of_mem_of_not_mem hx hclose
          simp [follow, htake] at h
      · by_cases hpoint : c = '.'
        · subst hpoint
          rw [follow] at h
          split_ifs at h
        · simp [follow, hopen, hpoint] at h

theorem follow_complete (hfuel : cs.length < fuel) (h : Indexed text cs out) : follow text cs fuel = .ok out := by
  induction h generalizing fuel with
  | nil => cases fuel <;> rfl
  | @item text digits rest out c hdigs hdec hmax hc hrest ih =>
    cases fuel with
    | zero => omega
    | succ fuel =>
      have hnot : ']' ∉ digits := fun hmem => absurd (all_eq_true.1 hdec _ hmem) (by decide)
      simp only [length_cons, length_append] at hfuel
      -- no digit is a bracket, so the item ends where it is written to end
      rw [follow_item fuel hnot, number?_eq_some_iff.2 ⟨hdigs, hdec, hmax, rfl⟩, Except.ok_bind,
        if_neg (by simpa using hdigs), Option.elim_some, hc]
      exact ih (by omega)

theorem look_eq_ok_iff (text : String) (name out : List Char) :
    look [("value", text)] name = .ok out ↔ Names text.toList name out := by
  constructor
  · intro h
    obtain ⟨index, -, hlook⟩ := Except.of_bind_eq_ok h
    split_ifs at hlook
    by_cases hfirst : name.takeWhile (fun c => c != '.' && c != '[') = "value".toList
    · rw [hfirst] at hlook
      obtain ⟨items, hitems⟩ : "value".toList <+: name := hfirst ▸ takeWhile_prefix _
      subst hitems
      exact ⟨items, rfl, follow_sound (Nat.lt_succ_of_le (sublist_append_right ..).length_le) hlook⟩
    · have hval : String.ofList (name.takeWhile fun c => c != '.' && c != '[') ≠ "value" := fun heq =>
        hfirst (by rw [← heq, String.toList_ofList])
      have hnone : [("value", text)].lookup (String.ofList (name.takeWhile fun c => c != '.' && c != '[')) = none := by
        simpa using hval
      rw [hnone] at hlook
      cases hlook
  · rintro ⟨items, rfl, hitems⟩
    have hfirst : ("value".toList ++ items).takeWhile (fun c => c != '.' && c != '[') = "value".toList := by
      cases hitems <;> rfl
    rw [look, hfirst]
    exact follow_complete (Nat.lt_succ_of_le (sublist_append_right ..).length_le) hitems

end Names

/-! ## Filling -/

def layOut (layout text : List Char) : Except Fault (List Char) :=
  if layout.isEmpty then .ok text else Layout.read layout >>= fun l => l.apply text

inductive Filled (text : List Char) : Nat → List Char → List Char → Prop
  | done {depth : Nat} : Filled text (depth + 1) [] []
  | char {depth : Nat} {c : Char} {cs out : List Char} (hopen : c ≠ '{') (hclose : c ≠ '}')
      (hrest : Filled text (depth + 1) cs out) : Filled text (depth + 1) (c :: cs) (c :: out)
  | openBrace {depth : Nat} {cs out : List Char} (hrest : Filled text (depth + 1) cs out) :
      Filled text (depth + 1) ('{' :: '{' :: cs) ('{' :: out)
  | closeBrace {depth : Nat} {cs out : List Char} (hrest : Filled text (depth + 1) cs out) :
      Filled text (depth + 1) ('}' :: '}' :: cs) ('}' :: out)
  | field {depth : Nat} {f : Field} {written named converted layout shown cs out : List Char}
      (hwritten : f.Written written) (hnames : Names text f.name named)
      (hconvert : convert named f.conversion = .ok converted) (hplain : '{' ∉ f.layout → layout = f.layout)
      (hnested : '{' ∈ f.layout → Filled text depth f.layout layout) (hlaid : layOut layout converted = .ok shown)
      (hrest : Filled text (depth + 1) cs out) : Filled text (depth + 1) ('{' :: (written ++ cs)) (shown ++ out)

def fillLayout (fields : List (String × String)) (depth : Nat) (layout : List Char) : Except Fault (List Char) :=
  if layout.contains '{' then fillTo fields layout depth else .ok layout

def fillPiece (fields : List (String × String)) (depth : Nat) : Piece → Except Fault (List Char)
  | .literal text => .ok text
  | .field f => do
    let text ← convert (← look fields f.name) f.conversion
    layOut (← fillLayout fields depth f.layout) text

def fillPieces (fields : List (String × String)) (depth : Nat) (ps : List (Except Fault Piece)) :
    Except Fault (List Char) :=
  (ps.mapM fun piece => piece >>= fillPiece fields depth).map List.flatten

section Filling

variable {text : String} {cs out : List Char} {depth : Nat}

theorem fillTo_succ (fields : List (String × String)) (cs : List Char) (depth : Nat) :
    fillTo fields cs (depth + 1) = fillPieces fields depth (pieces cs (cs.length + 1)) := by
  rw [fillTo]
  congr 2
  funext piece
  refine bind_congr fun piece => ?_
  cases piece with
  | literal text => rfl
  | field f =>
    refine bind_congr fun named => bind_congr fun text => ?_
    rw [fillLayout]
    split_ifs <;> rfl

/-- What a field becomes if its layout becomes what `Filled` says. -/
theorem fillPiece_field_iff {shown : List Char}
    (ih : ∀ cs out, fillTo [("value", text)] cs depth = .ok out ↔ Filled text.toList depth cs out) :
    fillPiece [("value", text)] depth (.field f) = .ok shown ↔
      ∃ named converted layout, Names text.toList f.name named ∧ convert named f.conversion = .ok converted ∧
        ('{' ∉ f.layout → layout = f.layout) ∧ ('{' ∈ f.layout → Filled text.toList depth f.layout layout) ∧
        layOut layout converted = .ok shown := by
  have hlayout : ∀ layout, fillLayout [("value", text)] depth f.layout = .ok layout ↔
      ('{' ∉ f.layout → layout = f.layout) ∧ ('{' ∈ f.layout → Filled text.toList depth f.layout layout) := by
    intro layout
    rw [fillLayout]
    by_cases hmem : '{' ∈ f.layout
    · rw [if_pos (contains_iff_mem.2 hmem), ih]
      simp [hmem]
    · simp [hmem, eq_comm]
  constructor
  · intro h
    obtain ⟨named, hnamed, h⟩ := Except.of_bind_eq_ok h
    obtain ⟨converted, hconv, h⟩ := Except.of_bind_eq_ok h
    obtain ⟨layout, hlaid, h⟩ := Except.of_bind_eq_ok h
    obtain ⟨hplain, hnested⟩ := (hlayout layout).1 hlaid
    exact ⟨named, converted, layout, (look_eq_ok_iff _ _ _).1 hnamed, hconv, hplain, hnested, h⟩
  · rintro ⟨named, converted, layout, hnames, hconv, hplain, hnested, hlaid⟩
    rw [fillPiece, (look_eq_ok_iff _ _ _).2 hnames, Except.ok_bind, hconv, (hlayout layout).2 ⟨hplain, hnested⟩]
    exact hlaid

theorem fillPieces_cons_eq_ok_iff {fields : List (String × String)} {piece : Except Fault Piece}
    {ps : List (Except Fault Piece)} :
    fillPieces fields depth (piece :: ps) = .ok out ↔
      ∃ shown rest, (piece >>= fillPiece fields depth) = .ok shown ∧ fillPieces fields depth ps = .ok rest ∧
        shown ++ rest = out := by
  rw [fillPieces, mapM_cons]
  cases piece >>= fillPiece fields depth with
  | error e => simp [bind, Except.bind, Except.map]
  | ok shown =>
    rw [fillPieces]
    cases List.mapM (fun piece => piece >>= fillPiece fields depth) ps with
    | error e => simp [bind, Except.bind, Except.map]
    | ok texts => simp [bind, Except.bind, Except.map, pure, Except.pure]

theorem pieces_char (fuel : Nat) (hopen : c ≠ '{') (hclose : c ≠ '}') :
    pieces (c :: cs) (fuel + 1) = .ok (.literal [c]) :: pieces cs fuel := by
  simp [pieces, hopen, hclose]

theorem pieces_field (fuel : Nat) (h : takeField cs = .ok (f, rest)) :
    pieces ('{' :: cs) (fuel + 1) = .ok (.field f) :: pieces rest fuel := by
  cases cs with
  | nil => cases h
  | cons c cs =>
    have hopen : c ≠ '{' := by
      rintro rfl
      cases h
    simp [pieces, hopen, h]

theorem pieces_fault {fault : Fault} (fuel : Nat) (hc : c ≠ '{') (h : takeField (c :: cs) = .error fault) :
    pieces ('{' :: c :: cs) (fuel + 1) = [.error fault] := by
  simp [pieces, hc, h]

theorem pieces_single (fuel : Nat) (hc : c ≠ '}') : pieces ('}' :: c :: cs) (fuel + 1) = [.error (.single '}')] := by
  simp [pieces, hc]

/-- Pieces are filled as `Filled` says, if the layouts of fields are. -/
theorem filled_of_fillPieces
    (ih : ∀ cs out, fillTo [("value", text)] cs depth = .ok out ↔ Filled text.toList depth cs out)
    (hfuel : cs.length < fuel) (h : fillPieces [("value", text)] depth (pieces cs fuel) = .ok out) :
    Filled text.toList (depth + 1) cs out := by
  -- the fuel is more than the text is long, so it does not run out before the last piece
  induction fuel generalizing cs out with
  | zero => omega
  | succ fuel ihfuel =>
    have hliteral : ∀ {c : Char} {rest : List Char}, rest.length < fuel →
        fillPieces [("value", text)] depth (.ok (.literal [c]) :: pieces rest fuel) = .ok out →
        ∃ later, c :: later = out ∧ Filled text.toList (depth + 1) rest later := by
      intro c rest hfuel h
      obtain ⟨shown, later, hshown, hlater, rfl⟩ := fillPieces_cons_eq_ok_iff.1 h
      cases hshown
      exact ⟨later, rfl, ihfuel hfuel hlater⟩
    have hfault : ∀ fault, fillPieces [("value", text)] depth [.error fault] ≠ .ok out := by
      intro fault h
      obtain ⟨shown, later, hshown, -, -⟩ := fillPieces_cons_eq_ok_iff.1 h
      cases hshown
    rcases cs with _ | ⟨c, cs⟩
    · cases h
      exact .done
    · rw [length_cons] at hfuel
      by_cases hopen : c = '{'
      · subst hopen
        cases hfield : takeField cs with
        | ok x =>
          rw [pieces_field fuel hfield] at h
          obtain ⟨written, hwritten, rfl⟩ := takeField_sound hfield
          obtain ⟨shown, later, hshown, hlater, rfl⟩ := fillPieces_cons_eq_ok_iff.1 h
          obtain ⟨named, converted, layout, hnames, hconvert, hplain, hnested, hlaid⟩ :=
            (fillPiece_field_iff ih).1 hshown
          rw [length_append] at hfuel
          exact .field hwritten hnames hconvert hplain hnested hlaid (ihfuel (by omega) hlater)
        | error fault =>
          rcases cs with _ | ⟨d, cs⟩
          · exact absurd h (hfault _)
          · by_cases hdouble : d = '{'
            · subst hdouble
              rw [length_cons] at hfuel
              obtain ⟨later, rfl, hlater⟩ := hliteral (by omega) h
              exact .openBrace hlater
            · rw [pieces_fault fuel hdouble hfield] at h
              exact absurd h (hfault fault)
      · by_cases hclose : c = '}'
        · subst hclose
          rcases cs with _ | ⟨d, cs⟩
          · exact absurd h (hfault _)
          · by_cases hdouble : d = '}'
            · subst hdouble
              rw [length_cons] at hfuel
              obtain ⟨later, rfl, hlater⟩ := hliteral (by omega) h
              exact .closeBrace hlater
            · rw [pieces_single fuel hdouble] at h
              exact absurd h (hfault _)
        · rw [pieces_char fuel hopen hclose] at h
          obtain ⟨later, rfl, hlater⟩ := hliteral (by omega) h
          exact .char hopen hclose hlater

theorem fillPieces_of_filled
    (ih : ∀ cs out, fillTo [("value", text)] cs depth = .ok out ↔ Filled text.toList depth cs out)
    (hfuel : cs.length < fuel) (h : Filled text.toList (depth + 1) cs out) :
    fillPieces [("value", text)] depth (pieces cs fuel) = .ok out := by
  have hliteral : ∀ {c : Char} {rest later : List Char} {fuel : Nat},
      fillPieces [("value", text)] depth (pieces rest fuel) = .ok later →
      fillPieces [("value", text)] depth (.ok (.literal [c]) :: pieces rest fuel) = .ok (c :: later) :=
    fun h => fillPieces_cons_eq_ok_iff.2 ⟨_, _, rfl, h, rfl⟩
  -- the derivations of layouts are one level less deep, and `ih` speaks for them
  generalize hlevel : depth + 1 = level at h
  induction h generalizing fuel with
  | done => cases fuel <;> rfl
  | char hopen hclose hrest ihrest =>
    obtain ⟨fuel, rfl⟩ := Nat.exists_eq_succ_of_ne_zero (Nat.ne_zero_of_lt hfuel)
    rw [length_cons] at hfuel
    rw [pieces_char fuel hopen hclose]
    exact hliteral (ihrest (by omega) hlevel)
  | openBrace hrest ihrest =>
    obtain ⟨fuel, rfl⟩ := Nat.exists_eq_succ_of_ne_zero (Nat.ne_zero_of_lt hfuel)
    rw [length_cons, length_cons] at hfuel
    exact hliteral (ihrest (by omega) hlevel)
  | closeBrace hrest ihrest =>
    obtain ⟨fuel, rfl⟩ := Nat.exists_eq_succ_of_ne_zero (Nat.ne_zero_of_lt hfuel)
    rw [length_cons, length_cons] at hfuel
    exact hliteral (ihrest (by omega) hlevel)
  | field hwritten hnames hconvert hplain hnested hlaid hrest ihnested ihrest =>
    obtain ⟨fuel, rfl⟩ := Nat.exists_eq_succ_of_ne_zero (Nat.ne_zero_of_lt hfuel)
    rw [length_cons, length_append] at hfuel
    obtain rfl := Nat.succ.inj hlevel
    rw [pieces_field fuel (takeField_complete hwritten)]
    exact fillPieces_cons_eq_ok_iff.2
      ⟨_, _, (fillPiece_field_iff ih).2 ⟨_, _, _, hnames, hconvert, hplain, hnested, hlaid⟩, ihrest (by omega) rfl, rfl⟩

theorem fillTo_eq_ok_iff (text : String) (depth : Nat) (cs out : List Char) :
    fillTo [("value", text)] cs depth = .ok out ↔ Filled text.toList depth cs out := by
  induction depth generalizing cs out with
  | zero => exact ⟨fun h => (by cases h), fun h => (by cases h)⟩
  | succ depth ih =>
    rw [fillTo_succ]
    exact ⟨filled_of_fillPieces ih (Nat.lt_succ_self _), fillPieces_of_filled ih (Nat.lt_succ_self _)⟩

theorem fill_eq_ok_iff {template out : String} :
    fill [("value", text)] template = .ok out ↔ Filled text.toList 2 template.toList out.toList := by
  rw [← fillTo_eq_ok_iff, fill]
  cases fillTo [("value", text)] template.toList 2 with
  | error fault => exact ⟨fun h => (by cases h), fun h => (by cases h)⟩
  | ok filled =>
    change Except.ok (String.ofList filled) = .ok out ↔ Except.ok filled = .ok out.toList
    rw [Except.ok.injEq, Except.ok.injEq]
    exact ⟨fun h => h ▸ (String.toList_ofList).symm, fun h => h ▸ String.ofList_toList⟩

end Filling

end Transclude.Template
