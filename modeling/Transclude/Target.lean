import Transclude.Path

/-!
# Where output goes

The folder that a compiled document ends up in is known before it is compiled, so that links in it can
be written from there.
-/

namespace Transclude.Target

def folderOfFile (cwd : Path) (output : Option String) : String :=
  match output with
  | none => ""
  | some "" => ""
  | some s => (Path.resolve cwd (.ofText s)).parent.text

/-- The path of an input below an output folder, where `base` is the folder of the inputs. -/
def pathBelow? (cwd base : Path) (output input : String) : Option Path :=
  (base.below? (Path.resolve cwd (.ofText input))).map fun rest => (Path.ofText output).join rest

def folderBelow (cwd base : Path) (output : Option String) (input : String) : String :=
  match output with
  | none => ""
  | some "" => ""
  | some s =>
    match pathBelow? cwd base s input with
    | some p => (Path.resolve cwd p.parent).text
    | none => ""

/-- A text with the line endings of an output: carriage returns are put before line feeds for `crlf`. -/
def endLines (mode : String) (text : String) : String :=
  if mode == "crlf" then String.ofList (Text.replaceAll ['\n'] ['\r', '\n'] text.toList) else text

end Transclude.Target
