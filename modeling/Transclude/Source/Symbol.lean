import Transclude.Source.Language
import Transclude.Source.Signature

/-!
# Symbols

`Symbol.locate` finds the lines of a declaration by a dotted name: every name is looked for among the direct members
of the declaration found for the names before it, and names that are not found alone are joined with those after them.
-/

namespace Transclude

structure SymbolSpec where
  parts : List (List Char)
  signature : Option (List Char)
deriving Repr, BEq, DecidableEq

def splitSignature? (name : List Char) : Option (List Char × List Char) :=
  match name.reverse with
  | ')' :: rest =>
    let inside := rest.takeWhile (· != '(')
    match rest.drop inside.length with
    | _ :: before =>
      if inside.contains ')' || before.isEmpty then none
      else some (before.reverse, inside.reverse)
    | [] => none
  | _ => none

def SymbolSpec.parse (text : List Char) : SymbolSpec :=
  let name := Text.trim text
  match splitSignature? name with
  | some (before, signature) => { parts := Text.splitAt '.' before, signature := some signature }
  | none => { parts := Text.splitAt '.' name, signature := none }

namespace Symbol

def indentOf (line : List Char) : Nat :=
  line.length - (Text.trimStart line).length

def braceBalance : List Char → Int
  | [] => 0
  | c :: cs => (if c == '{' then 1 else if c == '}' then -1 else 0) + braceBalance cs

/-- The number of the line with the brace that closes the first brace. `at_` is the number of the first
of these lines, `depth` braces are open and `opened` says whether any was. -/
def closingLine? (style : CommentStyle) (mode : Mode) (depth : Int) (opened : Bool) (at_ : Nat) :
    List (List Char) → Option Nat
  | [] => none
  | line :: rest =>
    let (code, mode) := codeLine style mode line
    let depth := depth + braceBalance code
    let opened := opened || code.contains '{'
    if opened && depth == 0 then some at_ else closingLine? style mode depth opened (at_ + 1) rest

/-- The number of the first line with a brace that opens; `at_` is the number of the first of these
lines. -/
def openingLine? (style : CommentStyle) (mode : Mode) (at_ : Nat) : List (List Char) → Option Nat
  | [] => none
  | line :: rest =>
    let (code, mode) := codeLine style mode line
    if code.contains '{' then some at_ else openingLine? style mode (at_ + 1) rest

/-- The number of the last line that belongs to a declaration by its indentation; `last` is the last
one so far and `at_` the number of the first of these lines. -/
def lastIndented (indent last at_ : Nat) : List (List Char) → Nat
  | [] => last
  | line :: rest =>
    if Text.allBlank line then lastIndented indent last (at_ + 1) rest
    else if indentOf line ≤ indent then last
    else lastIndented indent at_ (at_ + 1) rest

/-- The number of the last line of the declaration that begins in line `start`. -/
def lastLine? (lines : List (List Char)) (style : CommentStyle) (extent : Extent) (start : Nat) : Option Nat :=
  match extent with
  | .braces => closingLine? style .code 0 false start (lines.drop start)
  | .restOfFile => some (lines.length - 1)
  | .indentation =>
    match lines.drop start with
    | [] => none
    | line :: rest => some (lastIndented (indentOf line) start (start + 1) rest)

structure Located where
  first : Nat
  last : Nat
  extent : Extent
deriving Repr, BEq, DecidableEq

/-- What a search is about: the lines of the text, the language, the name, the types that are asked
for, and, if only direct members count, the indentation that they have. -/
structure Search where
  lines : List (List Char)
  language : Language
  name : List Char
  types : Option (List (List Char))
  membersOnly : Bool
  indent : Nat

/-- Whether a declaration may begin in a line where `depth` braces are open. -/
def Search.admits (s : Search) (depth : Int) (line : List Char) : Bool :=
  !s.membersOnly ||
    if s.language.isIndented then !Text.allBlank line && indentOf line == s.indent else depth == 0

/-- The last line of the declaration of a kind that begins in line `at_`, whose code is given. -/
def Search.lastLine? (s : Search) (d : Declaration) (at_ : Nat) (code : List Char) : Option Nat :=
  if Piece.fits s.name d.heading none code then
    let typesFit := match s.types with
      | none => true
      | some requested => (Signature.declaredTypes? (s.lines.drop at_)).any (Signature.accepts requested)
    if typesFit then Symbol.lastLine? s.lines s.language.comments d.extent at_ else none
  else none

/-- The first declaration of a kind among these lines, of which `at_` is the number of the first. -/
def Search.scan (s : Search) (d : Declaration) (mode : Mode) (depth : Int) (at_ : Nat) :
    List (List Char) → Option Located
  | [] => none
  | line :: rest =>
    let (code, mode) := codeLine s.language.comments mode line
    let found := if s.admits depth line then s.lastLine? d at_ code else none
    match found with
    | some last => some { first := at_, last, extent := d.extent }
    | none => s.scan d mode (depth + braceBalance code) (at_ + 1) rest

def baseIndent (lines : List (List Char)) : Nat :=
  ((lines.find? (!Text.allBlank ·)).map indentOf).getD 0

/-- The lines of a text from `first` to `last`, both included. -/
def linesBetween (lines : List (List Char)) (first last : Nat) : List (List Char) :=
  (lines.take (last + 1)).drop first

/-- The first declaration of a name between two lines; kinds of declarations are tried one after the
other. -/
def findName (lines : List (List Char)) (language : Language) (name : List Char)
    (signature : Option (List Char)) (first last : Nat) (membersOnly : Bool) : Option Located :=
  let range := linesBetween lines first last
  let search : Search :=
    { lines, language, name, types := signature.map Signature.splitParameters, membersOnly,
      indent := baseIndent range }
  language.declarations.findSome? fun d => search.scan d .code 0 first range

/-- The declaration of a name, joined with as few of the names after it as need be, and the names that
are left. -/
def findJoined (lines : List (List Char)) (language : Language) (signature : Option (List Char))
    (first last : Nat) (membersOnly : Bool) (name : List Char) : List (List Char) → Option (Located × List (List Char))
  | [] => (findName lines language name signature first last membersOnly).map (·, [])
  | part :: rest =>
    match findName lines language name none first last membersOnly with
    | some found => some (found, part :: rest)
    | none =>
      findJoined lines language signature first last membersOnly (name ++ '.' :: part) rest

def locateFrom (lines : List (List Char)) (language : Language) (signature : Option (List Char))
    (first last : Nat) (membersOnly : Bool) (parts : List (List Char)) : Nat → Option Located
  | 0 => none
  | fuel + 1 =>
    match parts with
    | [] => none
    | name :: rest =>
      match findJoined lines language signature first last membersOnly name rest with
      | none => none
      | some (found, []) => some found
      | some (found, rest) =>
        let inner := match found.extent with
          | .braces => openingLine? language.comments .code found.first (lines.drop found.first)
          | _ => some found.first
        match inner with
        | none => none
        | some line => locateFrom lines language signature (line + 1) found.last true rest fuel

def locate (language : Language) (spec : SymbolSpec) (lines : List (List Char)) : Option Located :=
  locateFrom lines language spec.signature 0 (lines.length - 1) false spec.parts spec.parts.length

def extract (language : Language) (symbol content : List Char) : Option (List (List Char)) :=
  let lines := Text.lines content
  (locate language (.parse symbol) lines).map fun found => linesBetween lines found.first found.last

end Symbol

end Transclude
