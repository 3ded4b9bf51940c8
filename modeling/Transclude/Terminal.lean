/-!
# Terminals

Texts for a terminal can be painted, and what was written last can be taken back. `screen` says what such writing
leaves to see.
-/

namespace Transclude.Terminal

inductive Style where
  | green
  | red
  | yellow
  | cyan
  | bold
  | dim
deriving Repr, BEq, DecidableEq

def Style.code : Style → String
  | .green => "\x1b[32m"
  | .red => "\x1b[31m"
  | .yellow => "\x1b[33m"
  | .cyan => "\x1b[36m"
  | .bold => "\x1b[1m"
  | .dim => "\x1b[2m"

def reset : String := "\x1b[0m"

def paint (style : Style) (color : Bool) (text : String) : String :=
  if color then style.code ++ text ++ reset else text

def cursorUp (n : Int) : String :=
  if n > 0 then s!"\x1b[{n}A" else ""

def clearToEnd : String := "\x1b[J"

inductive Stroke where
  | line (text : String)
  | back (lines : Nat)
deriving Repr, BEq, DecidableEq

def Stroke.text : Stroke → String
  | .line text => text ++ "\n"
  | .back lines => cursorUp lines ++ clearToEnd

def Stroke.onto (screen : List String) : Stroke → List String
  | .line text => text :: screen
  | .back lines => screen.drop lines

def screen (pieces : List Stroke) : List String :=
  pieces.foldl Stroke.onto []

end Transclude.Terminal
