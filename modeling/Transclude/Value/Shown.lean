import Transclude.Value.Basic
import Transclude.Number.Decimal

/-!
# The text of a value

`Value.shown` writes a value so that its kind can be seen. `Value.asText` writes a text as it stands, and dates and
times in their usual form.
-/

namespace Transclude.Value

open Transclude.Number Transclude.Time Transclude.Text

def boolWord (b : Bool) : String :=
  if b then "True" else "False"

def numbersText (ns : List Nat) : String :=
  ", ".intercalate (ns.map toString)

def clockParts (c : Clock) : List Nat :=
  if c.microsecond ≠ 0 then [c.hour, c.minute, c.second, c.microsecond]
  else if c.second ≠ 0 then [c.hour, c.minute, c.second]
  else [c.hour, c.minute]

def shownOffset (offset : Int) : String :=
  if offset = 0 then "datetime.timezone.utc" else s!"datetime.timezone({spanText offset})"

def shownMoment (m : Moment) : String :=
  let parts := [m.date.year, m.date.month, m.date.day] ++ clockParts m.clock
  let zone :=
    match m.offset with
    | some o => s!", tzinfo={shownOffset o}"
    | none => ""
  s!"datetime.datetime({numbersText parts}{zone})"

mutual
def shown : Value → String
  | .null => "None"
  | .bool b => boolWord b
  | .int n => toString n
  | .float x => x.text
  | .text s => quoted s
  | .bytes octets => quotedBytes octets
  | .date d => s!"datetime.date({numbersText [d.year, d.month, d.day]})"
  | .moment m => shownMoment m
  | .clock c => s!"datetime.time({numbersText (clockParts c)})"
  | .list items => "[" ++ ", ".intercalate (shownItems items) ++ "]"
  | .pair a b => "(" ++ shown a ++ ", " ++ shown b ++ ")"
  | .set [] => "set()"
  | .set (v :: vs) => "\x7b" ++ ", ".intercalate (shown v :: shownItems vs) ++ "\x7d"
  | .map entries => "\x7b" ++ ", ".intercalate (shownEntries entries) ++ "\x7d"
  | .shared _ v => shown v

def shownItems : List Value → List String
  | [] => []
  | v :: rest => shown v :: shownItems rest

def shownEntries : List (Value × Value) → List String
  | [] => []
  | (k, v) :: rest => (shown k ++ ": " ++ shown v) :: shownEntries rest
end

def asText : Value → String
  | .text s => s
  | .date d => d.text
  | .moment m => m.text
  | .clock c => c.text
  | .shared _ v => asText v
  | v => shown v

end Transclude.Value
