import Transclude.Text.Digit
import Transclude.Text.Quoted

/-!
# Templates

A template is a text with fields in braces, such as `{name!r:>10}`: the name of a text, how it is converted and how it
is laid out. The layout may hold fields of its own, and those may not hold more.
-/

namespace Transclude.Template

open Transclude.Text

inductive Fault where
  | single (brace : Char)
  | braceInName
  | endInConversion
  | noColon
  | openLayout
  | openField
  | tooDeep
  | tooManyDigits
  | positional
  | unknown (name : String)
  | noBracket
  | afterBracket
  | emptyPart
  | member (name : String)
  | itemByName
  | itemRange
  | conversion (c : Char)
  | bothSeparators
  | separator (mark type : Char)
  | noPrecision
  | layout (text : String)
  | code (c : Char)
  | space
  | sign
  | negativeZero
  | alternate
  | padding
  | tooWide
deriving Repr, DecidableEq

def charText (c : Char) : String :=
  if 32 < c.toNat && c.toNat < 127 then c.toString
  else String.ofList ('\\' :: 'x' :: hex 1 c.toNat)

def Fault.message : Fault → String
  | .single brace => s!"Single '{brace}' encountered in format string"
  | .braceInName => "unexpected '\x7b' in field name"
  | .endInConversion => "end of string while looking for conversion specifier"
  | .noColon => "expected ':' after conversion specifier"
  | .openLayout => "unmatched '\x7b' in format spec"
  | .openField => "expected '\x7d' before end of string"
  | .tooDeep => "Max string recursion exceeded"
  | .tooManyDigits => "Too many decimal digits in format string"
  | .positional => "Format string contains positional fields"
  | .unknown name => quoted name
  | .noBracket => "Missing ']' in format string"
  | .afterBracket => "Only '.' or '[' may follow ']' in format field specifier"
  | .emptyPart => "Empty attribute in format string"
  | .member name => s!"'str' object has no attribute '{name}'"
  | .itemByName => "string indices must be integers, not 'str'"
  | .itemRange => "string index out of range"
  | .conversion c => "Unknown conversion specifier " ++ charText c
  | .bothSeparators => "Cannot specify both ',' and '_'."
  | .separator mark type => "Cannot specify '" ++ mark.toString ++ "' with '" ++ charText type ++ "'."
  | .noPrecision => "Format specifier missing precision"
  | .layout text => s!"Invalid format specifier '{text}' for object of type 'str'"
  | .code c => "Unknown format code '" ++ charText c ++ "' for object of type 'str'"
  | .space => "Space not allowed in string format specifier"
  | .sign => "Sign not allowed in string format specifier"
  | .negativeZero => "Negative zero coercion (z) not allowed in string format specifier"
  | .alternate => "Alternate form (#) not allowed in string format specifier"
  | .padding => "'=' alignment not allowed in string format specifier"
  | .tooWide => ""

/-! ## Pieces -/

structure Field where
  name : List Char
  conversion : Option Char
  layout : List Char
deriving Repr

inductive Piece where
  | literal (text : List Char)
  | field (f : Field)
deriving Repr

/-- The name of a field, the mark after it and the text after the mark; marks in square brackets do not
count. -/
def takeName (inBrackets : Bool) : List Char → Except Fault (List Char × Option Char × List Char)
  | [] => .ok ([], none, [])
  | c :: cs => do
    if inBrackets then
      let (name, mark, rest) ← takeName (c != ']') cs
      return (c :: name, mark, rest)
    else if c == '{' then .error .braceInName
    else if c == '}' || c == ':' || c == '!' then return ([], some c, cs)
    else
      let (name, mark, rest) ← takeName (c == '[') cs
      return (c :: name, mark, rest)

/-- The layout of a field up to its closing brace; `depth` braces are open inside it. -/
def takeLayout (depth : Nat) : List Char → Except Fault (List Char × List Char)
  | [] => .error .openLayout
  | c :: cs => do
    if c == '}' && depth == 0 then return ([], cs)
    else
      let depth := if c == '{' then depth + 1 else if c == '}' then depth - 1 else depth
      let (layout, rest) ← takeLayout depth cs
      return (c :: layout, rest)

def takeField (cs : List Char) : Except Fault (Field × List Char) := do
  let (name, mark, rest) ← takeName false cs
  match mark with
  | none => .error .openField
  | some '!' =>
    match rest with
    | [] => .error .endInConversion
    | c :: '}' :: rest => return ({ name, conversion := some c, layout := [] }, rest)
    | c :: ':' :: rest =>
      let (layout, rest) ← takeLayout 0 rest
      return ({ name, conversion := some c, layout }, rest)
    | [_] => .error .openLayout
    | _ => .error .noColon
  | some ':' =>
    let (layout, rest) ← takeLayout 0 rest
    return ({ name, conversion := none, layout }, rest)
  | some _ => return ({ name, conversion := none, layout := [] }, rest)

def pieces (cs : List Char) : Nat → List (Except Fault Piece)
  | 0 => []
  | fuel + 1 =>
    match cs with
    | [] => []
    | '{' :: '{' :: rest => .ok (.literal ['{']) :: pieces rest fuel
    | '}' :: '}' :: rest => .ok (.literal ['}']) :: pieces rest fuel
    | '}' :: _ => [.error (.single '}')]
    | ['{'] => [.error (.single '{')]
    | '{' :: rest =>
      match takeField rest with
      | .ok (f, rest) => .ok (.field f) :: pieces rest fuel
      | .error fault => [.error fault]
    | c :: rest => .ok (.literal [c]) :: pieces rest fuel

/-! ## The text of a field -/

def maxNumber : Nat := Nat.pow 2 63 - 1

def number? (cs : List Char) : Except Fault (Option Nat) :=
  if cs.isEmpty then .ok none
  else
    let digits := cs.takeWhile isDecimal
    if digitsValue digits > maxNumber then .error .tooManyDigits
    else .ok (if digits.length = cs.length then some (digitsValue digits) else none)

def follow (text : List Char) (cs : List Char) : Nat → Except Fault (List Char)
  | 0 => .ok text
  | fuel + 1 =>
    match cs with
    | [] => .ok text
    | '.' :: rest =>
      let name := rest.takeWhile fun c => c != '.' && c != '['
      if name.isEmpty then .error .emptyPart else .error (.member (String.ofList name))
    | '[' :: rest => do
      let name := rest.takeWhile (· != ']')
      if name.length = rest.length then .error .noBracket
      else
        let index ← number? name
        if name.isEmpty then .error .emptyPart
        else
          match index with
          | none => .error .itemByName
          | some i =>
            match text[i]? with
            | some c => follow [c] (rest.drop (name.length + 1)) fuel
            | none => .error .itemRange
    | _ => .error .afterBracket

def look (fields : List (String × String)) (cs : List Char) : Except Fault (List Char) := do
  let first := cs.takeWhile fun c => c != '.' && c != '['
  let name := String.ofList first
  if first.isEmpty || (← number? first).isSome then .error .positional
  else
    match fields.lookup name with
    | none => .error (.unknown name)
    | some text => follow text.toList (cs.drop first.length) (cs.length + 1)

def asciiOnly (c : Char) : List Char :=
  if c.toNat < 0x80 then [c]
  else if c.toNat < 0x100 then '\\' :: 'x' :: hex 2 c.toNat
  else if c.toNat < 0x10000 then '\\' :: 'u' :: hex 4 c.toNat
  else '\\' :: 'U' :: hex 8 c.toNat

def convert (text : List Char) : Option Char → Except Fault (List Char)
  | none => .ok text
  | some 's' => .ok text
  | some 'r' => .ok (quotedChars text)
  | some 'a' => .ok ((quotedChars text).flatMap asciiOnly)
  | some c => .error (.conversion c)

/-! ## Layout -/

structure Layout where
  fill : Char
  align : Char
  width : Nat
  precision : Option Nat
deriving Repr

def isAlign (c : Char) : Bool :=
  c == '<' || c == '>' || c == '=' || c == '^'

def takeNumber (cs : List Char) : Except Fault (Option Nat × List Char) :=
  let digits := cs.takeWhile isDecimal
  if digitsValue digits > maxNumber then .error .tooManyDigits
  else .ok (if digits.isEmpty then none else some (digitsValue digits), cs.drop digits.length)

def takeFlag (c : Char) (cs : List Char) : Bool × List Char :=
  match cs with
  | d :: rest => if c == d then (true, rest) else (false, cs)
  | [] => (false, [])

def takeSeparator (cs : List Char) : Except Fault (Option Char × List Char) :=
  match cs with
  | ',' :: '_' :: _ => .error .bothSeparators
  | '_' :: ',' :: _ => .error .bothSeparators
  | ',' :: rest => .ok (some ',', rest)
  | '_' :: rest => .ok (some '_', rest)
  | cs => .ok (none, cs)

def takePrecision (cs : List Char) : Except Fault (Option Nat × List Char) :=
  match cs with
  | '.' :: rest => do
    match ← takeNumber rest with
    | (some n, rest) => return (some n, rest)
    | (none, _) => .error .noPrecision
  | cs => .ok (none, cs)

def takeAlign (cs : List Char) : Char × Char × Bool × List Char :=
  match cs with
  | c :: d :: rest =>
    if isAlign d then (c, d, true, rest)
    else if isAlign c then (' ', c, false, d :: rest)
    else (' ', '<', false, cs)
  | [c] => if isAlign c then (' ', c, false, []) else (' ', '<', false, cs)
  | [] => (' ', '<', false, [])

def groups (mark type : Char) : Bool :=
  ['d', 'e', 'f', 'g', 'E', 'G', '%', 'F', Char.ofNat 0].contains type ||
    (mark == '_' && ['b', 'o', 'x', 'X'].contains type)

def Layout.read (cs : List Char) : Except Fault Layout := do
  let (fill, align, filled, rest) := takeAlign cs
  let (sign, rest) := match rest with
    | c :: after => if c == ' ' || c == '+' || c == '-' then (some c, after) else (none, rest)
    | [] => (none, [])
  let (coerced, rest) := takeFlag 'z' rest
  let (alternate, rest) := takeFlag '#' rest
  let (zero, rest) := if filled then (false, rest) else takeFlag '0' rest
  let fill := if zero then '0' else fill
  let (width, rest) ← takeNumber rest
  let (mark, rest) ← takeSeparator rest
  let (precision, rest) ← takePrecision rest
  let type ← match rest with
    | [] => .ok 's'
    | [c] => .ok c
    | _ => .error (.layout (String.ofList cs))
  match mark with
  | some mark => if groups mark type then .ok () else .error (.separator mark type)
  | none => .ok ()
  if type != 's' then .error (.code type)
  else if sign == some ' ' then .error .space
  else if sign.isSome then .error .sign
  else if coerced then .error .negativeZero
  else if alternate then .error .alternate
  else if align == '=' then .error .padding
  else return { fill, align, width := width.getD 0, precision }

def maxWidth : Nat := Nat.pow 2 32

def Layout.apply (l : Layout) (text : List Char) : Except Fault (List Char) :=
  let text := match l.precision with
    | some n => text.take n
    | none => text
  if l.width > maxWidth then .error .tooWide
  else
    let room := l.width - text.length
    let left := if l.align == '>' then room else if l.align == '^' then room / 2 else 0
    .ok (List.replicate left l.fill ++ text ++ List.replicate (room - left) l.fill)

/-! ## Filling -/

def fillTo (fields : List (String × String)) (cs : List Char) : Nat → Except Fault (List Char)
  | 0 => .error .tooDeep
  | depth + 1 => do
    let texts ← (pieces cs (cs.length + 1)).mapM fun piece => do
      match ← piece with
      | .literal text => return text
      | .field f =>
        let text ← convert (← look fields f.name) f.conversion
        let layout ← if f.layout.contains '{' then fillTo fields f.layout depth else .ok f.layout
        if layout.isEmpty then return text else (← Layout.read layout).apply text
    return texts.flatten

def fill (fields : List (String × String)) (template : String) : Except Fault String := do
  return String.ofList (← fillTo fields template.toList 2)

end Transclude.Template
