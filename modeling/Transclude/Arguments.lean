import Transclude.Number.Reading
import Transclude.Text.Lines
import Transclude.Text.Quoted

/-!
# Arguments of a command

The words after a command are switches, values of switches and at most one operand (`Spec.classify`, `Spec.parse`). A
long name may be cut short as long as it fits one switch only, and short names may stand together after one dash.
-/

namespace Transclude.Arguments

open Transclude.Text

inductive Arity where
  | none
  | one
  | optional
deriving Repr, BEq, DecidableEq

structure Switch (κ : Type) where
  key : κ
  names : List String
  arity : Arity := .none
  isNumber : Bool := false

structure Spec (κ : Type) where
  program : String
  switches : List (Switch κ)
  help : Switch κ

inductive Item (κ : Type) where
  | switch (key : κ) (value : Option String)
  | operand (value : String)
deriving Repr, BEq, DecidableEq

inductive Refusal where
  | ambiguous (word : String) (names : List String)
  | unrecognized (words : List String)
  | ignoredValue (names : List String) (value : String)
  | noValue (names : List String)
  | notNumber (names : List String) (value : String)
deriving Repr, BEq, DecidableEq

def Refusal.message : Refusal → String
  | .ambiguous word names =>
    let found := ", ".intercalate names
    s!"ambiguous option: {word} could match {found}"
  | .unrecognized words =>
    let found := " ".intercalate words
    s!"unrecognized arguments: {found}"
  | .ignoredValue names value => about names ++ "ignored explicit argument " ++ quoted value
  | .noValue names => about names ++ "expected one argument"
  | .notNumber names value => about names ++ "invalid int value: " ++ quoted value
where
  about (names : List String) : String :=
    let all := "/".intercalate names
    s!"argument {all}: "

inductive Stop where
  | help
  | refused (r : Refusal)
deriving Repr, BEq, DecidableEq

/-! ## Words -/

structure Attached where
  equals : Bool
  value : List Char
deriving Repr, BEq, DecidableEq

inductive Word (κ : Type) where
  | plain (text : String)
  | divider
  | switch (s : Switch κ) (isShort : Bool) (attached : Option Attached)
  | unknown (text : String)

def isShort (name : String) : Bool :=
  name.toList[1]? != some '-'

def isNegative (cs : List Char) : Bool :=
  let cs := if cs.getLast? = some '\n' then cs.dropLast else cs
  match cs with
  | '-' :: rest =>
    let whole := rest.takeWhile isDecimal
    match rest.drop whole.length with
    | [] => !whole.isEmpty
    | '.' :: places => !places.isEmpty && places.all isDecimal
    | _ => false
  | _ => false

def cutEquals (cs : List Char) : List Char × Option (List Char) :=
  match cs.dropWhile (· != '=') with
  | [] => (cs, none)
  | _ :: value => (cs.takeWhile (· != '='), some value)

variable {κ : Type}

def Spec.named (spec : Spec κ) : List (String × Switch κ) :=
  (spec.help :: spec.switches).flatMap fun s => s.names.map (·, s)

def Spec.find? (spec : Spec κ) (name : List Char) : Option (Switch κ) :=
  spec.named.lookup (String.ofList name)

def Spec.candidates (spec : Spec κ) (cs : List Char) : List (String × Switch κ × Option Attached) :=
  match cs with
  | '-' :: '-' :: _ =>
    let (name, value) := cutEquals cs
    spec.named.filterMap fun (n, s) =>
      if startsWith n.toList name then some (n, s, value.map (⟨true, ·⟩)) else none
  | _ =>
    spec.named.filterMap fun (n, s) =>
      if n.toList == cs.take 2 then some (n, s, some ⟨false, cs.drop 2⟩)
      else if startsWith n.toList cs then some (n, s, none)
      else none

def Spec.wordOf (spec : Spec κ) (text : String) : Except Refusal (Word κ) :=
  let cs := text.toList
  if cs.head? != some '-' || cs.length = 1 then .ok (.plain text)
  else
    match spec.find? cs, cutEquals cs with
    | some s, _ => .ok (.switch s (isShort text) none)
    | none, (name, value) =>
      match value, spec.find? name with
      | some value, some s => .ok (.switch s (isShort (String.ofList name)) (some ⟨true, value⟩))
      | _, _ =>
        match spec.candidates cs with
        | [(name, s, attached)] => .ok (.switch s (isShort name) attached)
        | [] => .ok (if isNegative cs || cs.contains ' ' then .plain text else .unknown text)
        | found => .error (.ambiguous text (found.map (·.1)))

def Spec.classify (spec : Spec κ) : List String → Except Refusal (List (Word κ))
  | [] => .ok []
  | "--" :: rest => .ok (.divider :: rest.map .plain)
  | text :: rest => do
    let word ← spec.wordOf text
    return word :: (← spec.classify rest)

/-! ## Reading -/

/-- What a word with switches gives: those that have all they take, one that still takes a value, and a rest that is
no switch. -/
structure Unfolded (κ : Type) where
  taken : List (Switch κ × Option String) := []
  open_ : Option (Switch κ) := none
  extra : Option String := none

def Switch.leadsOn (s : Switch κ) (short equals : Bool) : Bool :=
  s.arity == .none && short && !equals

def Switch.close (s : Switch κ) (cs : List Char) : Except Refusal (Unfolded κ) :=
  if s.arity == .none then .error (.ignoredValue s.names (String.ofList cs))
  else .ok { taken := [(s, some (String.ofList cs))] }

/-- The switches of a word, of which `s` is the first. -/
def Spec.unfold (spec : Spec κ) (s : Switch κ) (short equals : Bool) : List Char → Except Refusal (Unfolded κ)
  | [] => s.close []
  | c :: rest =>
    if !s.leadsOn short equals || c == '-' then s.close (c :: rest)
    else
      match spec.find? ['-', c] with
      | none => .ok { taken := [(s, none)], extra := some (String.ofList ('-' :: c :: rest)) }
      | some next => do
        let found ← match rest with
          | [] => pure { open_ := some next }
          | '=' :: value => spec.unfold next true true value
          | letters => spec.unfold next true false letters
        return { found with taken := (s, none) :: found.taken }
termination_by cs => cs.length

def Spec.take (spec : Spec κ) [BEq κ] (s : Switch κ) (value : Option String) : Except Stop (Item κ) :=
  if s.key == spec.help.key then .error .help
  else
    match value with
    | none => .ok (.switch s.key none)
    | some v =>
      match s.isNumber, Number.readInt v with
      | true, .error _ => .error (.refused (.notNumber s.names v))
      | _, _ => .ok (.switch s.key value)

def Spec.takeAll (spec : Spec κ) [BEq κ] (given : List (Switch κ × Option String)) : Except Stop (List (Item κ)) :=
  given.mapM fun g => spec.take g.1 g.2

/-- What words give, and those that nothing takes; `free` says whether the operand is still to come. -/
def Spec.read (spec : Spec κ) [BEq κ] (free : Bool) : List (Word κ) → Except Stop (List (Item κ) × List String)
  | [] => .ok ([], [])
  | .plain text :: rest => do
    if free then
      let (items, extras) ← match rest with
        | .divider :: rest => spec.read false rest
        | rest => spec.read false rest
      return (.operand text :: items, extras)
    else
      let (items, extras) ← spec.read false rest
      return (items, text :: extras)
  | .divider :: rest => do
    if free then
      match rest with
      | .plain text :: rest =>
        let (items, extras) ← spec.read false rest
        return (.operand text :: items, extras)
      | rest => spec.read false rest
    else
      let (items, extras) ← spec.read false rest
      return (items, "--" :: extras)
  | .unknown text :: rest => do
    let (items, extras) ← spec.read free rest
    return (items, text :: extras)
  | .switch s short attached :: rest => do
    let found : Unfolded κ ← match attached with
      | none => pure { open_ := some s }
      | some a => (spec.unfold s short a.equals a.value).mapError .refused
    let own := found.extra.toList
    match found.open_, rest with
    | none, rest =>
      let whole ← spec.takeAll found.taken
      let (items, extras) ← spec.read free rest
      return (whole ++ items, own ++ extras)
    | some s, .plain value :: after =>
      if s.arity == .none then
        let whole ← spec.takeAll (found.taken ++ [(s, none)])
        let (items, extras) ← spec.read free (.plain value :: after)
        return (whole ++ items, own ++ extras)
      else
        let whole ← spec.takeAll (found.taken ++ [(s, some value)])
        let (items, extras) ← spec.read free after
        return (whole ++ items, own ++ extras)
    | some s, rest =>
      if s.arity == .one then .error (.refused (.noValue s.names))
      let whole ← spec.takeAll (found.taken ++ [(s, none)])
      let (items, extras) ← spec.read free rest
      return (whole ++ items, own ++ extras)
termination_by words => words.length

def Spec.parse (spec : Spec κ) [BEq κ] (words : List String) : Except Stop (List (Item κ)) := do
  let classified ← (spec.classify words).mapError .refused
  let (items, extras) ← spec.read true classified
  if extras.isEmpty then return items else .error (.refused (.unrecognized extras))

end Transclude.Arguments
