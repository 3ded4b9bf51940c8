import Transclude.Text.Blank
import Transclude.Text.Lines
import Transclude.Text.Word

/-!
# Headings of declarations

The line in which a declaration begins is described by pieces. `Piece.fits` says whether a line begins with them in
their order.
-/

namespace Transclude

inductive Piece where
  | blanks (least : Nat)
  | gap
  | word (letters : String)
  | modifier (words : List String)
  | anything
  | qualifiers
  | name
  | edge
  | oneOf (chars : String)
  | enumBases
deriving Repr, BEq, DecidableEq

abbrev Fit := Option Char → List Char → Bool

/-- Whether a run of at least `least` characters of a class can be taken so that the rest fits. -/
def Fit.run (p : Char → Bool) (k : Fit) : Nat → Fit
  | least, before, [] => least = 0 && k before []
  | 0, before, c :: cs => k before (c :: cs) || (p c && Fit.run p k 0 (some c) cs)
  | least + 1, _, c :: cs => p c && Fit.run p k least (some c) cs

def Fit.letters (k : Fit) : List Char → Fit
  | [], before, cs => k before cs
  | _ :: _, _, [] => false
  | w :: ws, _, c :: cs => w == c && Fit.letters k ws (some c) cs

/-- Whether names with colons can be taken so that the rest fits; at most `fuel` of them. -/
def Fit.qualifiers (k : Fit) : Nat → Fit
  | 0, before, cs => k before cs
  | fuel + 1, before, cs =>
    k before cs ||
      (let word := cs.takeWhile Text.isWord
       !word.isEmpty && (cs.drop word.length).take 2 == [':', ':'] &&
         Fit.qualifiers k fuel (some ':') (cs.drop (word.length + 2)))

def namesEnum (cs : List Char) : Bool :=
  match cs with
  | '(' :: rest =>
    let inside := rest.takeWhile (· != ')')
    inside.length < rest.length &&
      (Text.contains "Enum".toList inside || Text.contains "enum".toList inside)
  | _ => false

/-- Whether a text can be cut so that it begins with these pieces; `name` is the declared name. -/
def Piece.fits (name : List Char) : List Piece → Fit
  | [], _, _ => true
  | piece :: rest, before, cs =>
    let k := Piece.fits name rest
    match piece with
    | .blanks least => Fit.run Text.isBlank k least before cs
    | .gap => Fit.run (fun c => Text.isBlank c || c == '*') k 1 before cs
    | .word letters => Fit.letters k letters.toList before cs
    | .modifier words =>
      k before cs ||
        words.any fun w => Fit.letters (Fit.run Text.isBlank k 1) w.toList before cs
    | .anything => Fit.run (!Text.isBlank ·) k 1 before cs
    | .qualifiers => Fit.qualifiers k cs.length before cs
    | .name => Fit.letters k name before cs
    | .edge => Text.isWordEdge before cs.head? && k before cs
    | .oneOf chars =>
      match cs with
      | c :: cs => chars.toList.contains c && k (some c) cs
      | [] => false
    | .enumBases => namesEnum cs

end Transclude
