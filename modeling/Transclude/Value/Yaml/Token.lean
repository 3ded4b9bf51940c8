import Transclude.Value.Yaml.Cursor

/-!
# The tokens of a YAML document

The scanner keeps the columns of the open block collections (`Scanner.indents`). A key is known only when its colon
comes, so the scanner remembers for each level of brackets where one may have begun (`Scanner.keys`). A key must be on
one line and of at most 1024 characters.
-/

namespace Transclude.Yaml

inductive Token where
  | streamEnd
  | versionDirective (major : Nat)
  | tagDirective (handle leader : String)
  | otherDirective
  | documentStart
  | documentEnd
  | blockSequenceStart
  | blockMappingStart
  | blockEnd
  | flowSequenceStart
  | flowSequenceEnd
  | flowMappingStart
  | flowMappingEnd
  | blockEntry
  | flowEntry
  | key
  | value
  | alias (name : String)
  | anchor (name : String)
  | tag (handle : Option String) (suffix : String)
  | scalar (text : String) (plain : Bool)
deriving Repr, DecidableEq

/-- A place where a key may have begun: the number of its token, whether only a key can stand there,
and the place. -/
structure KeyPlace where
  level : Nat
  token : Nat
  required : Bool
  index : Nat
  line : Nat
  column : Nat

structure Scanner where
  at_ : Cursor
  flow : Nat
  indent : Int
  indents : List Int
  keyAllowed : Bool
  keys : List KeyPlace
  tokens : Array Token

namespace Scanner

def start (cs : List Char) : Scanner :=
  { at_ := .start cs, flow := 0, indent := -1, indents := [], keyAllowed := true, keys := [],
    tokens := #[] }

def push (s : Scanner) (t : Token) : Scanner :=
  { s with tokens := s.tokens.push t }

def goto (s : Scanner) (c : Cursor) : Scanner :=
  { s with at_ := c }

/-! ## Indentation -/

/-- Closes the block collections that are indented more than `column`; `open_` are the columns of the
collections outside the current one. -/
def unwindFrom (column : Int) (indent : Int) (tokens : Array Token) : List Int → Int × List Int × Array Token
  | [] => (indent, [], tokens)
  | outer :: rest =>
    if indent > column then unwindFrom column outer (tokens.push .blockEnd) rest
    else (indent, outer :: rest, tokens)

/-- Closes the block collections that are indented more than `column`. -/
def unwind (s : Scanner) (column : Int) : Scanner :=
  if s.flow > 0 then s
  else
    let (indent, indents, tokens) := unwindFrom column s.indent s.tokens s.indents
    { s with indent, indents, tokens }

/-- Whether a block collection at `column` would be a new one. -/
def isDeeper (s : Scanner) (column : Nat) : Bool :=
  s.indent < column

def indentTo (s : Scanner) (column : Nat) : Scanner :=
  { s with indents := s.indent :: s.indents, indent := column }

/-! ## Possible keys -/

def dropStaleKeys (s : Scanner) : Except Fault Scanner :=
  let isStale := fun k : KeyPlace => k.line ≠ s.at_.line || s.at_.index - k.index > 1024
  if s.keys.any fun k => isStale k && k.required then .error .malformed
  else .ok { s with keys := s.keys.filter (!isStale ·) }

def dropKey (s : Scanner) : Except Fault Scanner :=
  if s.keys.any fun k => k.level = s.flow && k.required then .error .malformed
  else .ok { s with keys := s.keys.filter (·.level ≠ s.flow) }

def saveKey (s : Scanner) : Except Fault Scanner := do
  if !s.keyAllowed then return s
  let required := s.flow = 0 && s.indent == s.at_.column
  let s ← s.dropKey
  let place : KeyPlace :=
    { level := s.flow, token := s.tokens.size, required, index := s.at_.index, line := s.at_.line,
      column := s.at_.column }
  return { s with keys := place :: s.keys }

/-! ## Blanks and comments -/

/-- Moves to the next token; at most `fuel` lines are passed. -/
def toNextToken (s : Scanner) : Nat → Scanner
  | 0 => s
  | fuel + 1 =>
    let c := s.at_.skipWhile (· == ' ')
    let c := if c.peek == some '#' then c.skipWhile (!isBreak ·) else c
    let (br, c') := c.lineBreak
    if br.isEmpty then s.goto c
    else
      let s := s.goto c'
      (if s.flow = 0 then { s with keyAllowed := true } else s).toNextToken fuel

def skipMark (s : Scanner) : Scanner :=
  if s.at_.index = 0 && s.at_.peek.any (·.toNat == 0xfeff) then s.goto s.at_.next else s

end Scanner

/-! ## Names, tags and directives -/

def isNameChar (c : Char) : Bool :=
  c.isAlphanum || c == '-' || c == '_'

def isUriChar (c : Char) : Bool :=
  c.isAlphanum || "-;/?:@&=+$,_.!~*'()[]".toList.contains c

def uriEscapes (octets : List UInt8) (c : Cursor) : Nat → Except Fault (List UInt8 × Cursor)
  | 0 => .error .malformed
  | fuel + 1 =>
    match c.rest with
    | '%' :: a :: b :: _ =>
      match Json.hexValue? a, Json.hexValue? b with
      | some x, some y => uriEscapes (octets ++ [UInt8.ofNat (16 * x + y)]) (c.skip 3) fuel
      | _, _ => .error .malformed
    | '%' :: _ => .error .malformed
    | _ => .ok (octets, c)

def tagUri (text : List Char) (c : Cursor) : Nat → Except Fault (String × Cursor)
  | 0 => .error .malformed
  | fuel + 1 =>
    match c.peek with
    | some '%' => do
      let (octets, c) ← uriEscapes [] c (c.rest.length + 1)
      match String.fromUTF8? ⟨octets.toArray⟩ with
      | some s => tagUri (text ++ s.toList) c fuel
      | none => .error .malformed
    | _ =>
      let (taken, c') := c.span isUriChar
      if taken.isEmpty then
        if text.isEmpty then .error .malformed else .ok (String.ofList text, c)
      else tagUri (text ++ taken) c' fuel

def tagHandle (c : Cursor) : Except Fault (String × Cursor) :=
  match c.rest with
  | '!' :: rest =>
    if rest.head? == some ' ' then .ok ("!", c.next)
    else
      let name := rest.takeWhile isNameChar
      if rest[name.length]? == some '!' then
        .ok (String.ofList ('!' :: name ++ ['!']), c.skip (name.length + 2))
      else .error .malformed
  | _ => .error .malformed

def anchorName (c : Cursor) : Except Fault (String × Cursor) :=
  let (name, c) := c.next.span isNameChar
  let follows := c.peek
  if name.isEmpty then .error .malformed
  else if isGap follows || follows.any ("?:,]\x7d%@`".toList.contains ·) then
    .ok (String.ofList name, c)
  else .error .malformed

def scanTag (c : Cursor) : Except Fault (Token × Cursor) := do
  let finish := fun (t : Token) (c : Cursor) =>
    if isSpaceGap c.peek then Except.ok (t, c) else .error Fault.malformed
  match c.peekAt 1 with
  | some '<' =>
    let c := c.skip 2
    let (suffix, c) ← tagUri [] c (c.rest.length + 1)
    if c.peek == some '>' then finish (.tag none suffix) c.next else .error .malformed
  | follows =>
    if isGap follows then finish (.tag none "!") c.next
    else
      let word := c.rest.drop 1 |>.takeWhile fun ch => !isSpaceGap (some ch)
      let (handle, c) ← if word.contains '!' then tagHandle c else .ok ("!", c.next)
      let (suffix, c) ← tagUri [] c (c.rest.length + 1)
      finish (.tag (some handle) suffix) c

def ignoredLine (c : Cursor) : Except Fault Cursor :=
  let c := c.skipWhile (· == ' ')
  let c := if c.peek == some '#' then c.skipWhile (!isBreak ·) else c
  if isLineEnd c.peek then .ok c.lineBreak.2 else .error .malformed

def scanDirective (c : Cursor) : Except Fault (Token × Cursor) := do
  let (name, c) := c.next.span isNameChar
  if name.isEmpty || !isSpaceGap c.peek then .error .malformed
  else if name == "YAML".toList then
    let (major, c) := (c.skipWhile (· == ' ')).span Char.isDigit
    if major.isEmpty || c.peek != some '.' then .error .malformed
    else
      let (minor, c) := c.next.span Char.isDigit
      if minor.isEmpty || !isSpaceGap c.peek then .error .malformed
      else return (.versionDirective (Text.digitsValue major), ← ignoredLine c)
  else if name == "TAG".toList then
    let (handle, c) ← tagHandle (c.skipWhile (· == ' '))
    if c.peek != some ' ' then .error .malformed
    else
      let c := c.skipWhile (· == ' ')
      let (leader, c) ← tagUri [] c (c.rest.length + 1)
      if !isSpaceGap c.peek then .error .malformed
      else return (.tagDirective handle leader, ← ignoredLine c)
  else return (.otherDirective, ← ignoredLine (c.skipWhile (!isBreak ·)))

/-! ## Block scalars -/

inductive Chomping where
  | clip
  | strip
  | keep
deriving DecidableEq

def chomping? : Option Char → Option Chomping
  | some '+' => some .keep
  | some '-' => some .strip
  | _ => none

def increment? (ch : Option Char) : Except Fault (Option Nat) :=
  match ch with
  | some d =>
    if d == '0' then .error .malformed
    else if d.isDigit then .ok (some (d.toNat - 48)) else .ok none
  | none => .ok none

def blockHead (c : Cursor) : Except Fault (Chomping × Option Nat × Cursor) := do
  let (chomp, step, c) ← match chomping? c.peek with
    | some chomp => do
      let c := c.next
      match ← increment? c.peek with
      | some n => pure (chomp, some n, c.next)
      | none => pure (chomp, none, c)
    | none => do
      match ← increment? c.peek with
      | some n =>
        let c := c.next
        match chomping? c.peek with
        | some chomp => pure (chomp, some n, c.next)
        | none => pure (.clip, some n, c)
      | none => pure (.clip, none, c)
  if isSpaceGap c.peek then return (chomp, step, c) else .error .malformed

def blockLead (breaks : List Char) (widest : Nat) (c : Cursor) : Nat → List Char × Nat × Cursor
  | 0 => (breaks, widest, c)
  | fuel + 1 =>
    match c.peek with
    | some ' ' =>
      let c := c.next
      blockLead breaks (max widest c.column) c fuel
    | _ =>
      let (br, c') := c.lineBreak
      if br.isEmpty then (breaks, widest, c) else blockLead (breaks ++ br) widest c' fuel

def toIndent (indent : Nat) (c : Cursor) : Nat → Cursor
  | 0 => c
  | fuel + 1 =>
    if c.column < indent && c.peek == some ' ' then toIndent indent c.next fuel else c

def blockBreaks (indent : Nat) (breaks : List Char) (c : Cursor) : Nat → List Char × Cursor
  | 0 => (breaks, c)
  | fuel + 1 =>
    let c := toIndent indent c indent
    let (br, c') := c.lineBreak
    if br.isEmpty then (breaks, c) else blockBreaks indent (breaks ++ br) c' fuel

/-- The lines of a block scalar. `text` is what has been read, with the line breaks `breaks` after
it that are not decided on yet; the result has the text, its last line break and the breaks after
that. -/
def blockLines (folded : Bool) (indent : Nat) (text breaks : List Char) (c : Cursor) :
    Nat → List Char × List Char × List Char × Cursor
  | 0 => (text, [], breaks, c)
  | fuel + 1 =>
    if c.column ≠ indent || c.peek.isNone then (text, [], breaks, c)
    else
      let isBlank := fun ch : Option Char => ch == some ' ' || ch == some '\t'
      let starts := !isBlank c.peek
      let (line, c) := c.span (!isBreak ·)
      let text := text ++ breaks ++ line
      let (br, c) := c.lineBreak
      let (breaks, c) := blockBreaks indent [] c (c.rest.length + 1)
      if c.column = indent && c.peek.isSome then
        if folded && br == ['\n'] && starts && !isBlank c.peek then
          let joint := if breaks.isEmpty then [' '] else []
          blockLines folded indent (text ++ joint) breaks c fuel
        else blockLines folded indent (text ++ br) breaks c fuel
      else (text, br, breaks, c)

/-- A block scalar; `c` stands on its sign, and `parent` is the indentation around it. -/
def scanBlockScalar (folded : Bool) (parent : Int) (c : Cursor) : Except Fault (Token × Cursor) := do
  let (chomp, step, c) ← blockHead c.next
  let c ← ignoredLine c
  let least := (max (parent + 1) 1).toNat
  let size := c.rest.length + 1
  let (indent, breaks, c) := match step with
    | some n =>
      let indent := least + n - 1
      let (breaks, c) := blockBreaks indent [] c size
      (indent, breaks, c)
    | none =>
      let (breaks, widest, c) := blockLead [] 0 c size
      (max least widest, breaks, c)
  let (text, br, breaks, c) := blockLines folded indent [] breaks c size
  let tail := match chomp with
    | .strip => []
    | .clip => br
    | .keep => br ++ breaks
  return (.scalar (String.ofList (text ++ tail)) false, c)

/-! ## Quoted scalars -/

def escapeChar? : Char → Option Char
  | '0' => some (Char.ofNat 0)
  | 'a' => some (Char.ofNat 7)
  | 'b' => some (Char.ofNat 8)
  | 't' | '\t' => some '\t'
  | 'n' => some '\n'
  | 'v' => some (Char.ofNat 11)
  | 'f' => some (Char.ofNat 12)
  | 'r' => some '\r'
  | 'e' => some (Char.ofNat 27)
  | ' ' => some ' '
  | '"' => some '"'
  | '\\' => some '\\'
  | '/' => some '/'
  | 'N' => some (Char.ofNat 0x85)
  | '_' => some (Char.ofNat 0xa0)
  | 'L' => some (Char.ofNat 0x2028)
  | 'P' => some (Char.ofNat 0x2029)
  | _ => none

def escapeDigits? : Char → Option Nat
  | 'x' => some 2
  | 'u' => some 4
  | 'U' => some 8
  | _ => none

def quotedBreaks (breaks : List Char) (c : Cursor) : Nat → Except Fault (List Char × Cursor)
  | 0 => .error .malformed
  | fuel + 1 =>
    if c.atMarker then .error .malformed
    else
      let c := c.skipWhile fun ch => ch == ' ' || ch == '\t'
      let (br, c') := c.lineBreak
      if br.isEmpty then .ok (breaks, c) else quotedBreaks (breaks ++ br) c' fuel

def quotedSpaces (c : Cursor) : Except Fault (List Char × Cursor) :=
  let (blanks, c) := c.span fun ch => ch == ' ' || ch == '\t'
  if c.peek.isNone then .error .malformed
  else
    let (br, c') := c.lineBreak
    if br.isEmpty then .ok (blanks, c)
    else do
      let (breaks, c) ← quotedBreaks [] c' (c'.rest.length + 1)
      let joint := if br != ['\n'] then br else if breaks.isEmpty then [' '] else []
      return (joint ++ breaks, c)

def escapeNumber (digits : Nat) (c : Cursor) : Except Fault (Char × Cursor) :=
  let word := c.rest.take digits
  if word.length = digits && word.all fun ch => (Json.hexValue? ch).isSome then
    let n := word.foldl (fun n ch => 16 * n + (Json.hexValue? ch).getD 0) 0
    if n > 0x10ffff then .error (.codePoint n) else .ok (Json.charOfUnit n, c.skip digits)
  else .error .malformed

def quotedText (double : Bool) (text : List Char) (c : Cursor) : Nat → Except Fault (String × Cursor)
  | 0 => .error .malformed
  | fuel + 1 =>
    match c.rest with
    | [] => .error .malformed
    | ch :: rest =>
      if ch == '"' && double then .ok (String.ofList text, c.next)
      else if ch == '\'' && !double then
        if rest.head? == some '\'' then quotedText double (text ++ ['\'']) (c.skip 2) fuel
        else .ok (String.ofList text, c.next)
      else if ch == '\\' && double then
        match rest with
        | [] => .error .malformed
        | e :: _ =>
          match escapeChar? e, escapeDigits? e with
          | some out, _ => quotedText double (text ++ [out]) (c.skip 2) fuel
          | none, some n => do
            let (out, c) ← escapeNumber n (c.skip 2)
            quotedText double (text ++ [out]) c fuel
          | none, none =>
            if isBreak e then do
              let c := c.next.lineBreak.2
              let (breaks, c) ← quotedBreaks [] c (c.rest.length + 1)
              quotedText double (text ++ breaks) c fuel
            else .error .malformed
      else if ch == ' ' || ch == '\t' || isBreak ch then do
        let (spaces, c) ← quotedSpaces c
        quotedText double (text ++ spaces) c fuel
      else
        let (word, c) := c.span fun ch => !(ch == '\'' || ch == '"' || ch == '\\' || isGap (some ch))
        if word.isEmpty then quotedText double (text ++ [ch]) c.next fuel
        else quotedText double (text ++ word) c fuel

/-! ## Plain scalars -/

/-- Whether a plain scalar ends before the character `ch` that `follows` comes after. -/
def endsPlain (inFlow : Bool) (ch : Char) (follows : Option Char) : Bool :=
  isGap (some ch) ||
    (ch == ':' && (isGap follows || (inFlow && follows.any (",[]\x7b\x7d".toList.contains ·)))) ||
    (inFlow && ",?[]\x7b\x7d".toList.contains ch)

def plainWord (inFlow : Bool) : List Char → List Char
  | [] => []
  | ch :: rest => if endsPlain inFlow ch rest.head? then [] else ch :: plainWord inFlow rest

def plainBreaks (breaks : List Char) (c : Cursor) : Nat → Option (List Char) × Cursor
  | 0 => (some breaks, c)
  | fuel + 1 =>
    match c.peek with
    | some ' ' => plainBreaks breaks c.next fuel
    | _ =>
      let (br, c') := c.lineBreak
      if br.isEmpty then (some breaks, c)
      else if c'.atMarker then (none, c')
      else plainBreaks (breaks ++ br) c' fuel

def plainSpaces (c : Cursor) : List Char × Bool × Cursor :=
  let (blanks, c) := c.span (· == ' ')
  let (br, c') := c.lineBreak
  if br.isEmpty then (blanks, false, c)
  else if c'.atMarker then ([], true, c')
  else
    match plainBreaks [] c' (c'.rest.length + 1) with
    | (none, c) => ([], true, c)
    | (some breaks, c) =>
      let joint := if br != ['\n'] then br else if breaks.isEmpty then [' '] else []
      (joint ++ breaks, true, c)

/-- The text of a plain scalar from one of its pieces on; `spaces` are the blanks before it, and
`ended` says whether a line ended last. -/
def plainText (inFlow : Bool) (indent : Int) (text spaces : List Char) (ended : Bool) (c : Cursor) :
    Nat → String × Bool × Cursor
  | 0 => (String.ofList text, ended, c)
  | fuel + 1 =>
    let word := if c.peek == some '#' then [] else plainWord inFlow c.rest
    if word.isEmpty then (String.ofList text, ended, c)
    else
      let text := text ++ spaces ++ word
      let (spaces, ended, c) := plainSpaces (c.skip word.length)
      if spaces.isEmpty || c.peek == some '#' || (!inFlow && (c.column : Int) < indent) then
        (String.ofList text, ended, c)
      else plainText inFlow indent text spaces ended c fuel

/-- Whether a plain scalar can begin with `ch` when `follows` comes after it. -/
def startsPlain (inFlow : Bool) (ch : Char) (follows : Option Char) : Bool :=
  !(isGap (some ch) || "-?:,[]\x7b\x7d#&*!|>'\"%@`".toList.contains ch) ||
    (!isGap follows && (ch == '-' || (!inFlow && (ch == '?' || ch == ':'))))

/-! ## The scanner -/

namespace Scanner

def outdent (s : Scanner) : Except Fault Scanner := do
  let s ← (s.unwind (-1)).dropKey
  return { s with keyAllowed := false }

def openFlow (s : Scanner) (t : Token) : Except Fault Scanner := do
  let s ← s.saveKey
  return ({ s with flow := s.flow + 1, keyAllowed := true }.goto s.at_.next).push t

def closeFlow (s : Scanner) (t : Token) : Except Fault Scanner := do
  if s.flow = 0 then .error .malformed
  else
    let s ← s.dropKey
    return ({ s with flow := s.flow - 1, keyAllowed := false }.goto s.at_.next).push t

def openBlock (s : Scanner) (t : Token) : Except Fault Scanner :=
  if s.flow > 0 then .ok s
  else if !s.keyAllowed then .error .malformed
  else if s.isDeeper s.at_.column then .ok ((s.indentTo s.at_.column).push t)
  else .ok s

def blockEntry (s : Scanner) : Except Fault Scanner := do
  let s ← s.openBlock .blockSequenceStart
  let s ← { s with keyAllowed := true }.dropKey
  return (s.goto s.at_.next).push .blockEntry

def explicitKey (s : Scanner) : Except Fault Scanner := do
  let s ← s.openBlock .blockMappingStart
  let s ← { s with keyAllowed := s.flow = 0 }.dropKey
  return (s.goto s.at_.next).push .key

/-- The tokens with `t` put before the token number `n`. -/
def insertToken (tokens : Array Token) (n : Nat) (t : Token) : Array Token :=
  (tokens.toList.take n ++ t :: tokens.toList.drop n).toArray

def valueMark (s : Scanner) : Except Fault Scanner := do
  let s ← match s.keys.find? (·.level = s.flow) with
    | some place =>
      let s := { s with
        keys := s.keys.filter (·.level ≠ s.flow)
        tokens := insertToken s.tokens place.token .key }
      let s := if s.flow = 0 && s.isDeeper place.column then
          { s.indentTo place.column with
            tokens := insertToken s.tokens place.token .blockMappingStart }
        else s
      pure { s with keyAllowed := false }
    | none => do
      let s ← s.openBlock .blockMappingStart
      { s with keyAllowed := s.flow = 0 }.dropKey
  return (s.goto s.at_.next).push .value

/-- A node that may be a key and is made by `scan`. -/
def nodeToken (s : Scanner) (scan : Cursor → Except Fault (Token × Cursor)) : Except Fault Scanner := do
  let s ← s.saveKey
  let (t, c) ← scan s.at_
  return ({ s with keyAllowed := false }.goto c).push t

def plainScalar (s : Scanner) : Except Fault Scanner := do
  let s ← s.saveKey
  let (text, ended, c) :=
    plainText (s.flow > 0) (s.indent + 1) [] [] false s.at_ (s.at_.rest.length + 1)
  return ({ s with keyAllowed := ended }.goto c).push (.scalar text true)

def quotedScalar (double : Bool) (c : Cursor) : Except Fault (Token × Cursor) := do
  let (text, c) ← quotedText double [] c.next (c.rest.length + 1)
  return (.scalar text false, c)

def blockScalar (s : Scanner) (folded : Bool) : Except Fault Scanner := do
  let s ← { s with keyAllowed := true }.dropKey
  let (t, c) ← scanBlockScalar folded s.indent s.at_
  return (s.goto c).push t

def fetch (s : Scanner) (ch : Char) : Except Fault Scanner := do
  let follows := s.at_.peekAt 1
  let inFlow := s.flow > 0
  let first := s.at_.column = 0
  if ch == '%' && first then
    let s ← s.outdent
    let (t, c) ← scanDirective s.at_
    return (s.goto c).push t
  else if ch == '-' && first && s.at_.atMarker then
    let s ← s.outdent
    return (s.goto (s.at_.skip 3)).push .documentStart
  else if ch == '.' && first && s.at_.atMarker then
    let s ← s.outdent
    return (s.goto (s.at_.skip 3)).push .documentEnd
  else if ch == '[' then s.openFlow .flowSequenceStart
  else if ch == '{' then s.openFlow .flowMappingStart
  else if ch == ']' then s.closeFlow .flowSequenceEnd
  else if ch == '}' then s.closeFlow .flowMappingEnd
  else if ch == ',' then
    let s ← { s with keyAllowed := true }.dropKey
    return (s.goto s.at_.next).push .flowEntry
  else if ch == '-' && isGap follows then s.blockEntry
  else if ch == '?' && (inFlow || isGap follows) then s.explicitKey
  else if ch == ':' && (inFlow || isGap follows) then s.valueMark
  else if ch == '*' then
    s.nodeToken fun c => do let (name, c) ← anchorName c; return (.alias name, c)
  else if ch == '&' then
    s.nodeToken fun c => do let (name, c) ← anchorName c; return (.anchor name, c)
  else if ch == '!' then s.nodeToken scanTag
  else if ch == '|' && !inFlow then s.blockScalar false
  else if ch == '>' && !inFlow then s.blockScalar true
  else if ch == '\'' then s.nodeToken (quotedScalar false)
  else if ch == '"' then s.nodeToken (quotedScalar true)
  else if startsPlain inFlow ch follows then s.plainScalar
  else .error .malformed

/-- Reads tokens up to the end of the document. Every round reads a character, so the length of the
document bounds their number. -/
def run (s : Scanner) : Nat → Except Fault (List Token)
  | 0 => .error .malformed
  | fuel + 1 => do
    let s := s.skipMark
    let s ← (s.toNextToken (s.at_.rest.length + 1)).dropStaleKeys
    let s := s.unwind s.at_.column
    match s.at_.peek with
    | none =>
      let s ← (s.unwind (-1)).dropKey
      return (s.push .streamEnd).tokens.toList
    | some ch => (← s.fetch ch).run fuel

end Scanner

def isPermitted (c : Char) : Bool :=
  let n := c.toNat
  n == 9 || n == 10 || n == 13 || (0x20 ≤ n && n ≤ 0x7e) || n == 0x85 || (0xa0 ≤ n && n ≤ 0xfffd) ||
    0x10000 ≤ n

def Token.scan (cs : List Char) : Except Fault (List Token) :=
  if cs.all isPermitted then (Scanner.start cs).run (cs.length + 2) else .error .malformed

end Transclude.Yaml
