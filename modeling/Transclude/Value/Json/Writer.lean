import Transclude.Value.Shown

/-!
# Writing JSON

`Json.write` writes a value on one line, characters outside ASCII by number in UTF-16 code units. Keys that are
numbers, truth values or absent become strings; values that JSON does not have are refused.
-/

namespace Transclude.Json

open Transclude.Number Transclude.Text

inductive Unwritable where
  | value (kind : String)
  | key (kind : String)
deriving Repr, DecidableEq

def Unwritable.message : Unwritable → String
  | .value kind => s!"Object of type {kind} is not JSON serializable"
  | .key kind => s!"keys must be str, int, float, bool or None, not {kind}"

def unitEscape (n : Nat) : List Char :=
  '\\' :: 'u' :: hex 4 n

def writeChar (c : Char) : List Char :=
  if c == '"' then ['\\', '"']
  else if c == '\\' then ['\\', '\\']
  else if c == '\n' then ['\\', 'n']
  else if c == '\r' then ['\\', 'r']
  else if c == '\t' then ['\\', 't']
  else if c.toNat == 8 then ['\\', 'b']
  else if c.toNat == 12 then ['\\', 'f']
  else if 0x20 ≤ c.toNat && c.toNat < 0x7f then [c]
  else if c.toNat < 0x10000 then unitEscape c.toNat
  else
    let n := c.toNat - 0x10000
    unitEscape (0xd800 + n / 0x400) ++ unitEscape (0xdc00 + n % 0x400)

def writeString (s : String) : String :=
  String.ofList ('"' :: s.toList.flatMap writeChar ++ ['"'])

def writeFloat : Binary64 → String
  | .nan _ => "NaN"
  | .infinite s => if s then "-Infinity" else "Infinity"
  | x => x.text

def writeKey : Value → Except Unwritable String
  | .text s => .ok (writeString s)
  | .null => .ok "\"null\""
  | .bool b => .ok (if b then "\"true\"" else "\"false\"")
  | .int n => .ok (writeString (toString n))
  | .float x => .ok (writeString (writeFloat x))
  | v => .error (.key v.kind)

mutual
def write : Value → Except Unwritable String
  | .null => .ok "null"
  | .bool b => .ok (if b then "true" else "false")
  | .int n => .ok (toString n)
  | .float x => .ok (writeFloat x)
  | .text s => .ok (writeString s)
  | .list items => do return "[" ++ ", ".intercalate (← writeItems items) ++ "]"
  | .pair a b => do return "[" ++ (← write a) ++ ", " ++ (← write b) ++ "]"
  | .map entries => do return "\x7b" ++ ", ".intercalate (← writeEntries entries) ++ "\x7d"
  | .shared _ v => write v
  | .bytes _ => .error (.value "bytes")
  | .date _ => .error (.value "date")
  | .moment _ => .error (.value "datetime")
  | .clock _ => .error (.value "time")
  | .set _ => .error (.value "set")

def writeItems : List Value → Except Unwritable (List String)
  | [] => .ok []
  | v :: rest => do
    let first ← write v
    return first :: (← writeItems rest)

def writeEntries : List (Value × Value) → Except Unwritable (List String)
  | [] => .ok []
  | (k, v) :: rest => do
    let key ← writeKey k
    let value ← write v
    return (key ++ ": " ++ value) :: (← writeEntries rest)
end

end Transclude.Json
