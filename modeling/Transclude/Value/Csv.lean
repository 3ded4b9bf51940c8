/-!
# Delimited records

A field of a record may stand in quotes; then it can hold delimiters and line feeds, and a quote in it is written
twice. A line without any character is a record without fields.
-/

namespace Transclude.Csv

inductive Fault where
  | strayReturn
  | fieldTooLong
deriving Repr, BEq, DecidableEq

def maxField : Nat := 131072

def Fault.message : Fault → String
  | .strayReturn =>
    "new-line character seen in unquoted field - do you need to open the file with newline=''?"
  | .fieldTooLong => s!"field larger than field limit ({maxField})"

inductive Place where
  | recordStart
  | fieldStart
  | inField
  | inQuotes
  | afterQuote
  | lineEnd
deriving Repr, BEq, DecidableEq

structure Reader where
  place : Place
  fields : List (List Char)
  field : List Char
  length : Nat

namespace Reader

def start : Reader :=
  { place := .recordStart, fields := [], field := [], length := 0 }

def add (r : Reader) (c : Char) (place : Place) : Except Fault Reader :=
  if r.length ≥ maxField then .error .fieldTooLong
  else .ok { r with field := c :: r.field, length := r.length + 1, place }

def save (r : Reader) (place : Place) : Reader :=
  { r with fields := r.field.reverse :: r.fields, field := [], length := 0, place }

def record (r : Reader) : List (List Char) :=
  r.fields.reverse

def atFieldStart (delimiter : Char) (r : Reader) (c : Char) : Except Fault Reader :=
  if c == '\n' || c == '\r' then .ok (r.save .lineEnd)
  else if c == '"' then .ok { r with place := .inQuotes }
  else if c == delimiter then .ok (r.save .fieldStart)
  else r.add c .inField

def step (delimiter : Char) (r : Reader) (c : Char) : Except Fault Reader :=
  match r.place with
  | .recordStart =>
    if c == '\n' || c == '\r' then .ok { r with place := .lineEnd } else r.atFieldStart delimiter c
  | .fieldStart => r.atFieldStart delimiter c
  | .inField =>
    if c == '\n' || c == '\r' then .ok (r.save .lineEnd)
    else if c == delimiter then .ok (r.save .fieldStart)
    else r.add c .inField
  | .inQuotes => if c == '"' then .ok { r with place := .afterQuote } else r.add c .inQuotes
  | .afterQuote =>
    if c == '"' then r.add c .inQuotes
    else if c == delimiter then .ok (r.save .fieldStart)
    else if c == '\n' || c == '\r' then .ok (r.save .lineEnd)
    else r.add c .inField
  | .lineEnd => if c == '\n' || c == '\r' then .ok r else .error .strayReturn

def endLine (r : Reader) : Reader :=
  match r.place with
  | .recordStart => r
  | .fieldStart | .inField | .afterQuote => r.save .recordStart
  | .inQuotes => r
  | .lineEnd => { r with place := .recordStart }

end Reader

/-- The records of a text from here on; `open_` says whether a line has begun. -/
def recordsFrom (delimiter : Char) (r : Reader) (open_ : Bool) : List Char → Except Fault (List (List (List Char)))
  | [] =>
    let r' := if open_ then r.endLine else r
    if open_ && r'.place = .recordStart then .ok [r'.record]
    else if r'.length ≠ 0 || r'.place = .inQuotes then .ok [(r'.save .recordStart).record]
    else .ok []
  | c :: cs => do
    let r ← r.step delimiter c
    if c == '\n' then
      let r := r.endLine
      if r.place = .recordStart then
        return r.record :: (← recordsFrom delimiter .start false cs)
      else recordsFrom delimiter r false cs
    else recordsFrom delimiter r true cs

def records (delimiter : Char) (cs : List Char) : Except Fault (List (List (List Char))) :=
  recordsFrom delimiter .start false cs

end Transclude.Csv
