import Transclude.Value.Yaml.Style

/-!
# Writing YAML

`write` gives collections in block style with two columns of indentation, and texts broken at spaces after column 80.
A `Pen` holds what has been written and what the next token depends on.
-/

namespace Transclude.Yaml

open Transclude.Text

/-- What has been written: the text, the column, whether the last character was a blank, whether only
indentation was written in the line, and whether the end of a plain text is still open. -/
structure Pen where
  out : String
  column : Nat
  blank : Bool
  indenting : Bool
  openEnded : Bool

namespace Pen

def start : Pen :=
  { out := "", column := 0, blank := true, indenting := true, openEnded := false }

def put (p : Pen) (cs : List Char) : Pen :=
  { p with out := p.out ++ String.ofList cs, column := p.column + cs.length }

def indicator (p : Pen) (s : String) (needsBlank : Bool) (blank indenting : Bool) : Pen :=
  let cs := s.toList
  let p := p.put (if p.blank || !needsBlank then cs else ' ' :: cs)
  { p with blank, indenting := p.indenting && indenting, openEnded := false }

def lineBreak (p : Pen) (c : Char) : Pen :=
  { p with out := p.out.push c, column := 0, blank := true, indenting := true }

def indent (p : Pen) (column : Nat) : Pen :=
  let p := if !p.indenting || p.column > column || (p.column = column && !p.blank) then p.lineBreak '\n'
    else p
  if p.column < column then { p.put (List.replicate (column - p.column) ' ') with blank := true } else p

end Pen

def maxColumn : Nat := 80

/-! ## Plain texts -/

def spaceRuns (cs : List Char) : List (List Char) :=
  cs.splitBy fun a b => (a == ' ') == (b == ' ')

/-- Writes a plain text; `split` says whether it may be broken. -/
def writePlain (indent : Nat) (split : Bool) (p : Pen) : List (List Char) → Pen
  | [] => p
  | run :: rest =>
    let p :=
      if run == [' '] && p.column > maxColumn && split then
        { p.indent indent with blank := false, indenting := false }
      else p.put run
    writePlain indent split p rest

/-! ## Texts in single quotes -/

def quotedClass (c : Char) : Nat :=
  if c == ' ' then 1 else if isWrittenBreak c then 2 else 0

def writeBreaks (p : Pen) (breaks : List Char) : Pen :=
  let p := if breaks.head? == some '\n' then p.lineBreak '\n' else p
  breaks.foldl Pen.lineBreak p

/-- Writes the runs of a text in single quotes; `first` says whether it is at its start. -/
def writeSingle (indent : Nat) (split first : Bool) (p : Pen) : List (List Char) → Pen
  | [] => p
  | run :: rest =>
    let p := match run with
      | [] => p
      | c :: _ =>
        if c == ' ' then
          if run.length = 1 && p.column > maxColumn && split && !first && !rest.isEmpty then
            p.indent indent
          else p.put run
        else if isWrittenBreak c then (writeBreaks p run).indent indent
        else p.put (run.flatMap fun d => if d == '\'' then ['\'', '\''] else [d])
    writeSingle indent split false p rest

/-! ## Texts in double quotes -/

def isUnescaped (c : Char) : Bool :=
  let n := c.toNat
  c != '"' && c != '\\' && n != 0x2028 && n != 0x2029 && n != 0xfeff &&
    ((0x20 ≤ n && n ≤ 0x7e) || (0xa0 ≤ n && n ≤ 0xfffd))

def escapeLetter? (c : Char) : Option Char :=
  [(0, '0'), (7, 'a'), (8, 'b'), (9, 't'), (10, 'n'), (11, 'v'), (12, 'f'), (13, 'r'), (27, 'e'),
    (34, '"'), (92, '\\'), (0x85, 'N'), (0xa0, '_'), (0x2028, 'L'), (0x2029, 'P')].lookup c.toNat

def capitalHex (width n : Nat) : List Char :=
  (hex width n).map Char.toUpper

def escaped (c : Char) : List Char :=
  match escapeLetter? c with
  | some l => ['\\', l]
  | none =>
    let n := c.toNat
    if n ≤ 0xff then '\\' :: 'x' :: capitalHex 2 n
    else if n ≤ 0xffff then '\\' :: 'u' :: capitalHex 4 n
    else '\\' :: 'U' :: capitalHex 8 n

/-- Writes a text in double quotes. `held` are characters that have been read and not been written, the
last first; `place` is the number of the next character and `last` that of the last one. -/
def writeDouble (indent : Nat) (split : Bool) (last place : Nat) (held : List Char) (p : Pen) : List Char → Pen
  | [] => p.put held.reverse
  | c :: rest =>
    let plain := isUnescaped c
    let (p, held) := if plain then (p, held) else ((p.put held.reverse).put (escaped c), [])
    let reached := if plain then p.column + held.length else p.column - 1
    let breaks := 0 < place && place < last && (c == ' ' || held.isEmpty) && reached > maxColumn && split
    if plain then
      if breaks then
        let p := (p.put (held.reverse ++ ['\\'])).indent indent
        let p := { p with blank := false, indenting := false }
        let p := if c == ' ' then p.put ['\\'] else p
        writeDouble indent split last (place + 1) [c] p rest
      else writeDouble indent split last (place + 1) (c :: held) p rest
    else
      if breaks then
        let p := (p.put ['\\']).indent indent
        let p := { p with blank := false, indenting := false }
        let p := if rest.head? == some ' ' then p.put ['\\'] else p
        writeDouble indent split last (place + 1) [] p rest
      else writeDouble indent split last (place + 1) [] p rest

/-! ## Literal blocks -/

def writeLiteral (indent : Nat) (p : Pen) : List (List Char) → Pen
  | [] => p
  | line :: rest =>
    let p := if line.isEmpty then p else (p.indent indent).put line
    writeLiteral indent (p.lineBreak '\n') rest

/-! ## Nodes -/

inductive Context where
  | root
  | item
  | value
  | key
deriving DecidableEq

/-- Writes a scalar; `indent` is the column that broken lines begin in. -/
def writeScalar (indent : Nat) (context : Context) (s : Scalar) (p : Pen) : Pen :=
  let style := s.style (context = .key)
  let split := context ≠ .key
  let implied := if style = .plain then s.plainImplied else s.quotedImplied
  let p := if implied then p else p.indicator s.tag true false false
  match style with
  | .plain =>
    let p := if context = .root then { p with openEnded := true } else p
    if s.text.isEmpty then p
    else
      let p := if p.blank then p else p.put [' ']
      writePlain indent split { p with blank := false, indenting := false } (spaceRuns s.text)
  | .singleQuoted =>
    let p := p.indicator "'" true false false
    let runs := s.text.splitBy fun a b => quotedClass a == quotedClass b
    (writeSingle indent split true p runs).indicator "'" false false false
  | .doubleQuoted =>
    let p := p.indicator "\"" true false false
    (writeDouble indent split (s.text.length - 1) 0 [] p s.text).indicator "\"" false false false
  | .literal =>
    let p := (p.indicator "|" true false false).lineBreak '\n'
    writeLiteral indent p ((splitAt '\n' s.text).dropLast)

def writeAnchor (anchor : Option String) (p : Pen) : Pen :=
  match anchor with
  | some name => p.indicator ("&" ++ name) true false false
  | none => p

def writeTag (tag : Option String) (p : Pen) : Pen :=
  match tag with
  | some t => p.indicator t true false false
  | none => p

def maxKey : Nat := 128

def Tree.isSimpleKey : Tree → Bool
  | .alias name => name.length < maxKey
  | .scalar anchor s =>
    let t := Traits.of s.text
    (anchor.getD "").length + s.tag.length + s.text.length < maxKey && !t.empty && !t.multiline
  | .sequence _ _ items => items.isEmpty
  | .mapping _ _ pairs => pairs.isEmpty

/-- The column of a collection inside one at `outer`. -/
def inner (outer : Option Nat) : Nat :=
  match outer with
  | none => 0
  | some n => n + 2

/-- The column of broken lines of a scalar inside a collection at `outer`. -/
def scalarIndent (outer : Option Nat) : Nat :=
  (outer.getD 0) + 2

mutual
def writeTree (outer : Option Nat) (context : Context) (p : Pen) : Tree → Pen
  | .alias name => p.indicator ("*" ++ name) true false false
  | .scalar anchor s => writeScalar (scalarIndent outer) context s (writeAnchor anchor p)
  | .sequence anchor tag items =>
    let p := writeTag tag (writeAnchor anchor p)
    match items with
    | [] => (p.indicator "[" true true false).indicator "]" false false false
    | items =>
      let below := (context = .value || context = .key) && !p.indenting
      writeItems (if below then outer.getD 0 else inner outer) p items
  | .mapping anchor tag pairs =>
    let p := writeTag tag (writeAnchor anchor p)
    match pairs with
    | [] => (p.indicator "\x7b" true true false).indicator "\x7d" false false false
    | pairs => writePairs (inner outer) p pairs

def writeItems (column : Nat) (p : Pen) : List Tree → Pen
  | [] => p
  | item :: rest =>
    let p := (p.indent column).indicator "-" true false true
    writeItems column (writeTree (some column) .item p item) rest

def writePairs (column : Nat) (p : Pen) : List (Tree × Tree) → Pen
  | [] => p
  | (key, value) :: rest =>
    let p := p.indent column
    let p := if key.isSimpleKey then
        (writeTree (some column) .key p key).indicator ":" false false false
      else
        let p := writeTree (some column) .value (p.indicator "?" true false true) key
        (p.indent column).indicator ":" true false true
    writePairs column (writeTree (some column) .value p value) rest
end

def write (v : Value) : String :=
  let p := (writeTree none .root .start (Tree.of v)).indent 0
  let p := if p.openEnded then (p.indicator "..." true false false).indent 0 else p
  p.out

end Transclude.Yaml
