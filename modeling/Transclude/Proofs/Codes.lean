import Mathlib.Data.List.TakeDrop
import Transclude.Source.Symbol

/-!
# Declarations seen in the code

The search for a declaration looks at the code of lines (`codeLines`), in which braces are counted (`closingOf`,
`openingOf`). The end of a declaration, the start of its block and its members are looked for as if a text began
there. The inversion lemmas say what was found.
-/

namespace Transclude

open List

variable {codes : List (List Char)} {depth : Int}

/-! ## The code of lines -/

def modeAfter (style : CommentStyle) (mode : Mode) (lines : List (List Char)) : Mode :=
  lines.foldl (fun mode line => (codeLine style mode line).2) mode

def codeLines (style : CommentStyle) : Mode → List (List Char) → List (List Char)
  | _, [] => []
  | mode, line :: rest => (codeLine style mode line).1 :: codeLines style (codeLine style mode line).2 rest

section Codes

variable (style : CommentStyle) (mode : Mode)

@[simp] theorem modeAfter_cons (line : List Char) (lines : List (List Char)) :
    modeAfter style mode (line :: lines) = modeAfter style (codeLine style mode line).2 lines := rfl

@[simp] theorem length_codeLines (lines : List (List Char)) : (codeLines style mode lines).length = lines.length := by
  induction lines generalizing mode with
  | nil => rfl
  | cons line rest ih => simp [codeLines, ih]

theorem codeLines_take (lines : List (List Char)) (k : Nat) :
    codeLines style mode (lines.take k) = (codeLines style mode lines).take k := by
  induction lines generalizing mode k with
  | nil => simp [codeLines]
  | cons line rest ih =>
    cases k with
    | zero => simp [codeLines]
    | succ k => simp [codeLines, ih]

theorem codeLines_drop (lines : List (List Char)) (k : Nat) :
    codeLines style (modeAfter style mode (lines.take k)) (lines.drop k) = (codeLines style mode lines).drop k := by
  induction lines generalizing mode k with
  | nil => simp [codeLines]
  | cons line rest ih =>
    cases k with
    | zero => rfl
    | succ k => simp [codeLines, ih]

end Codes

namespace Symbol

/-! ## Braces in the code -/

def closingOf (depth : Int) (opened : Bool) (at_ : Nat) : List (List Char) → Option Nat
  | [] => none
  | code :: rest =>
    if (opened || code.contains '{') && depth + braceBalance code == 0 then some at_
    else closingOf (depth + braceBalance code) (opened || code.contains '{') (at_ + 1) rest

def openingOf (at_ : Nat) : List (List Char) → Option Nat
  | [] => none
  | code :: rest => if code.contains '{' then some at_ else openingOf (at_ + 1) rest

theorem closingLine?_eq (style : CommentStyle) (mode : Mode) (depth : Int) (opened : Bool) (at_ : Nat)
    (lines : List (List Char)) :
    closingLine? style mode depth opened at_ lines = closingOf depth opened at_ (codeLines style mode lines) := by
  induction lines generalizing mode depth opened at_ with
  | nil => rfl
  | cons line rest ih => simp only [closingLine?, codeLines, closingOf, ih]

theorem openingLine?_eq (style : CommentStyle) (mode : Mode) (at_ : Nat) (lines : List (List Char)) :
    openingLine? style mode at_ lines = openingOf at_ (codeLines style mode lines) := by
  induction lines generalizing mode at_ with
  | nil => rfl
  | cons line rest ih => simp only [openingLine?, codeLines, openingOf, ih]

theorem closingOf_bounds {opened : Bool} {at_ last : Nat} (h : closingOf depth opened at_ codes = some last) : at_ ≤ last ∧ last < at_ + codes.length := by
  induction codes generalizing depth opened at_ with
  | nil => cases h
  | cons code rest ih =>
    unfold closingOf at h
    split at h
    · cases h
      simp
    · have := ih h
      simp only [length_cons]
      omega

theorem openingOf_bounds {at_ line : Nat} (h : openingOf at_ codes = some line) :
    at_ ≤ line ∧ line < at_ + codes.length := by
  induction codes generalizing at_ with
  | nil => cases h
  | cons code rest ih =>
    unfold openingOf at h
    split at h
    · cases h
      simp
    · have := ih h
      simp only [length_cons]
      omega

/-! ## What was found -/

section Found

variable {language : Language} {lines : List (List Char)} {name : List Char} {signature : Option (List Char)}
  {first last : Nat} {membersOnly : Bool} {found : Located}

theorem linesBetween_getElem? {j : Nat} {line : List Char} (h : (linesBetween lines first last)[j]? = some line) :
    lines[first + j]? = some line ∧ first + j ≤ last := by
  unfold linesBetween at h
  rw [List.getElem?_drop, List.getElem?_take] at h
  split at h
  · exact ⟨h, by omega⟩
  · cases h

/-- A declaration that a search finds begins in a line that it may begin in, whose code its heading fits, and reaches
as far as its kind says. -/
theorem Search.scan_eq_some {s : Search} {d : Declaration} {mode : Mode} {at_ : Nat} {range : List (List Char)}
    (h : s.scan d mode depth at_ range = some found) :
    ∃ j line depth' code, range[j]? = some line ∧ found.first = at_ + j ∧ s.admits depth' line = true ∧
      (codeLines s.language.comments mode range)[j]? = some code ∧ Piece.fits s.name d.heading none code = true ∧
      found.extent = d.extent ∧
      Symbol.lastLine? s.lines s.language.comments found.extent found.first = some found.last := by
  induction range generalizing mode depth at_ with
  | nil => cases h
  | cons line rest ih =>
    simp only [Search.scan] at h
    split at h
    · rename_i last hlast
      cases h
      split at hlast
      · rename_i hadmits
        unfold Search.lastLine? at hlast
        split at hlast
        · rename_i hfits
          refine ⟨0, line, depth, _, rfl, rfl, hadmits, rfl, hfits, rfl, ?_⟩
          grind
        · cases hlast
      · cases hlast
    · obtain ⟨j, line', depth', code, hline, hfirst, hrest⟩ := ih h
      exact ⟨j + 1, line', depth', code, by simpa using hline, by omega, by simpa [codeLines] using hrest⟩

theorem findName_eq_some (h : findName lines language name signature first last membersOnly = some found) :
    ∃ line, lines[found.first]? = some line ∧ first ≤ found.first ∧ found.first ≤ last ∧
      (membersOnly = true → language.isIndented = true →
        Text.allBlank line = false ∧ indentOf line = baseIndent (linesBetween lines first last)) ∧
      (∃ d ∈ language.declarations, found.extent = d.extent) ∧
      Symbol.lastLine? lines language.comments found.extent found.first = some found.last := by
  obtain ⟨d, hd, hscan⟩ := exists_of_findSome?_eq_some h
  obtain ⟨j, line, depth, code, hline, hfirst, hadmits, -, -, hext, hlast⟩ := Search.scan_eq_some hscan
  obtain ⟨hat, hle⟩ := linesBetween_getElem? hline
  rw [← hfirst] at hat
  refine ⟨line, hat, by omega, by omega, ?_, ⟨d, hd, hext⟩, hlast⟩
  intro hmembers hindented
  simp only [Search.admits, hmembers, hindented] at hadmits
  simpa using hadmits

def joins (name : List Char) : List (List Char) → List (List Char)
  | [] => [name]
  | part :: rest => name :: joins (name ++ '.' :: part) rest

theorem findJoined_eq_some {rest left : List (List Char)}
    (h : findJoined lines language signature first last membersOnly name rest = some (found, left)) :
    left <:+ rest ∧ ∃ n ∈ joins name rest, ∃ signature',
      findName lines language n signature' first last membersOnly = some found := by
  induction rest generalizing name with
  | nil =>
    obtain ⟨x, hx, heq⟩ := Option.map_eq_some_iff.1 h
    cases heq
    exact ⟨suffix_refl _, name, mem_singleton_self _, signature, hx⟩
  | cons part rest ih =>
    unfold findJoined at h
    split at h
    · rename_i x hx
      cases h
      exact ⟨suffix_refl _, name, mem_cons_self, none, hx⟩
    · obtain ⟨hleft, n, hn, hfound⟩ := ih h
      exact ⟨hleft.trans (suffix_cons _ _), n, mem_cons_of_mem _ hn, hfound⟩

def blockLine? (style : CommentStyle) (lines : List (List Char)) (extent : Extent) (first : Nat) : Option Nat :=
  match extent with
  | .braces => openingLine? style .code first (lines.drop first)
  | _ => some first

def goOn (lines : List (List Char)) (language : Language) (signature : Option (List Char)) (fuel : Nat)
    (found : Located) (left : List (List Char)) : Option Located :=
  if left.isEmpty then some found
  else (blockLine? language.comments lines found.extent found.first).bind fun line =>
    locateFrom lines language signature (line + 1) found.last true left fuel

theorem locateFrom_succ (parts : List (List Char)) (fuel : Nat) :
    locateFrom lines language signature first last membersOnly (name :: parts) (fuel + 1) =
      (findJoined lines language signature first last membersOnly name parts).bind fun x =>
        goOn lines language signature fuel x.1 x.2 := by
  rw [locateFrom]
  rcases findJoined lines language signature first last membersOnly name parts with _ | ⟨found, _ | ⟨part, rest⟩⟩
  · rfl
  · rfl
  · obtain ⟨start, stop, extent⟩ := found
    rw [Option.bind_some, goOn]
    cases extent with
    | braces =>
      simp only [blockLine?]
      cases openingLine? language.comments .code start (lines.drop start) <;> rfl
    | restOfFile => rfl
    | indentation => rfl

end Found

end Symbol

end Transclude
