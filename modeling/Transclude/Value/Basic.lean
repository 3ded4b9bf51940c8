import Transclude.Number.Binary64
import Transclude.Time.Calendar

/-!
# Dynamic values

JSON, YAML, TOML and XML are all read into `Value`. A mapping is a list of entries that only `Value.put` changes, so a
key stands once. A `shared` value is used in several places; every reader of values looks through it (`bare`).
-/

namespace Transclude

open Transclude.Number Transclude.Time

def syntaxDetail : String := "<detail>"

inductive Value where
  | null
  | bool (b : Bool)
  | int (n : Int)
  | float (x : Binary64)
  | text (s : String)
  | bytes (octets : List UInt8)
  | date (d : Date)
  | moment (m : Moment)
  | clock (c : Clock)
  | list (items : List Value)
  | pair (first second : Value)
  | set (items : List Value)
  | map (entries : List (Value × Value))
  | shared (label : Nat) (value : Value)
deriving Repr, Inhabited

namespace Value

mutual
def same : Value → Value → Bool
  | .null, .null => true
  | .bool a, .bool b => a == b
  | .int m, .int n => m == n
  | .float x, .float y => x == y
  | .text s, .text t => s == t
  | .bytes s, .bytes t => s == t
  | .date d, .date e => d == e
  | .moment m, .moment n => m == n
  | .clock c, .clock d => c == d
  | .list vs, .list ws => sameItems vs ws
  | .pair a b, .pair c d => same a c && same b d
  | .set vs, .set ws => sameItems vs ws
  | .map es, .map fs => sameEntries es fs
  | .shared i v, .shared j w => i == j && same v w
  | _, _ => false

def sameItems : List Value → List Value → Bool
  | [], [] => true
  | v :: vs, w :: ws => same v w && sameItems vs ws
  | _, _ => false

def sameEntries : List (Value × Value) → List (Value × Value) → Bool
  | [], [] => true
  | (k, v) :: es, (l, w) :: fs => same k l && same v w && sameEntries es fs
  | _, _ => false
end

instance : BEq Value := ⟨same⟩

def bare : Value → Value
  | .shared _ v => v.bare
  | v => v

def kind : Value → String
  | .null => "NoneType"
  | .bool _ => "bool"
  | .int _ => "int"
  | .float _ => "float"
  | .text _ => "str"
  | .bytes _ => "bytes"
  | .date _ => "date"
  | .moment _ => "datetime"
  | .clock _ => "time"
  | .list _ => "list"
  | .pair .. => "tuple"
  | .set _ => "set"
  | .map _ => "dict"
  | .shared _ v => v.kind

def number? : Value → Option Binary64
  | .bool b => some (.ofInt b.toNat)
  | .float x => some x
  | _ => none

/-- Whether two values are the same key: numbers are the same if they are equal, whatever their
kind, and truth values count as one and zero. -/
def sameKey : Value → Value → Bool
  | .text a, .text b => a == b
  | .int a, .int b => a == b
  | .bool a, .bool b => a == b
  | .int a, .bool b => a == b.toNat
  | .bool a, .int b => b == a.toNat
  | .int a, .float x => x.compare? (.ofInt a) == some .eq && x.truncate? == some a
  | .float x, .int a => x.compare? (.ofInt a) == some .eq && x.truncate? == some a
  | .float x, .bool b => x.eq (.ofInt b.toNat)
  | .bool b, .float x => x.eq (.ofInt b.toNat)
  | .float x, .float y => x.eq y
  | a, b => a == b

def put (entries : List (Value × Value)) (key value : Value) : List (Value × Value) :=
  match entries with
  | [] => [(key, value)]
  | (k, v) :: rest => if sameKey k key then (k, value) :: rest else (k, v) :: put rest key value

def lookup? (entries : List (Value × Value)) (key : Value) : Option Value :=
  (entries.find? fun e => sameKey e.1 key).map (·.2)

def get? (entries : List (Value × Value)) (key : String) : Option Value :=
  lookup? entries (.text key)

def isCollection (v : Value) : Bool :=
  match v.bare with
  | .list _ => true
  | .map _ => true
  | _ => false

def isTruthy : Value → Bool
  | .null => false
  | .bool b => b
  | .int n => n != 0
  | .float x => !x.isZero
  | .text s => s != ""
  | .bytes octets => !octets.isEmpty
  | .list items => !items.isEmpty
  | .set items => !items.isEmpty
  | .map entries => !entries.isEmpty
  | .shared _ v => v.isTruthy
  | _ => true

mutual
def plain : Value → Value
  | .shared _ v => plain v
  | .list items => .list (plainItems items)
  | .set items => .set (plainItems items)
  | .pair a b => .pair (plain a) (plain b)
  | .map entries => .map (plainEntries entries)
  | v => v

def plainItems : List Value → List Value
  | [] => []
  | v :: rest => plain v :: plainItems rest

def plainEntries : List (Value × Value) → List (Value × Value)
  | [] => []
  | (k, v) :: rest => (plain k, plain v) :: plainEntries rest
end

end Value

end Transclude
