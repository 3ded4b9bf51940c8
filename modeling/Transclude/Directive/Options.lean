import Transclude.Directive.Basic
import Transclude.Number.Reading
import Transclude.Status
import Transclude.Value.Basic

/-!
# Typed options

Options are texts. A text that cannot be read as the number or truth value that is needed is reported by `validate` and
counts as absent for the readers.
-/

namespace Transclude

open Transclude.Number

inductive OptionKind where
  | int
  | bool
  | str
  | float
deriving Repr, BEq, DecidableEq

def OptionKind.name : OptionKind → String
  | .int => "int"
  | .bool => "bool"
  | .str => "str"
  | .float => "float"

namespace Options

def readInt? (s : String) : Option Int :=
  match readInt s with
  | .ok n => some n
  | .error _ => none

def readBool? (s : String) : Option Bool :=
  if s == "True" then some true else if s == "False" then some false else none

def readAs? (kind : OptionKind) (s : String) : Option Value :=
  match kind with
  | .int => (readInt? s).map .int
  | .bool => (readBool? s).map .bool
  | .str => some (.text s)
  | .float => (readFloat s).map .float

def unreadable (name : String) (kind : OptionKind) (value : String) : String :=
  s!"Cannot cast option '{name}' to {kind.name} (Value: '{value}')"

def validate (options : Options) (name : String) (kind : OptionKind) : Option Status :=
  match options.get? name with
  | none => none
  | some value => if (readAs? kind value).isSome then none else some (.error (unreadable name kind value))

def valueOr (options : Options) (name : String) (kind : OptionKind) (default : Value) : Value :=
  ((options.get? name).bind (readAs? kind)).getD default

def intOr (options : Options) (name : String) (default : Int) : Int :=
  ((options.get? name).bind readInt?).getD default

def isOn (options : Options) (name : String) : Bool :=
  ((options.get? name).bind readBool?).getD false

def textOr (options : Options) (name default : String) : String :=
  (options.get? name).getD default

def renameOld (options : Options) : List (String × List String) → Options × List Status
  | [] => (options, [])
  | (new, olds) :: rest =>
    let (options, warnings) := renameAll options new olds
    let (options, later) := renameOld options rest
    (options, warnings ++ later)
where
  renameAll (options : Options) (new : String) : List String → Options × List Status
    | [] => (options, [])
    | old :: rest =>
      match options.get? old with
      | none => renameAll options new rest
      | some value =>
        let warning := Status.warning s!"option '{old}' is deprecated, use '{new}' instead"
        let (options, later) := renameAll ((options.erase old).put new value) new rest
        (options, warning :: later)

end Options

end Transclude
