import Transclude.Number.Decimal
import Transclude.Value.Yaml.Scalar

/-!
# What is written of a value in YAML

Before a value is written its mappings are sorted by their keys, if these can be compared, and values that stand in
several places are named, in the order in which they come up for the second time.
-/

namespace Transclude.Yaml

open Transclude.Number Transclude.Time

/-- A scalar to be written: its tag, its text, whether the tag goes without saying for a plain and for
a quoted text, and whether it is to be written as a literal block. -/
structure Scalar where
  tag : String
  text : List Char
  plainImplied : Bool
  quotedImplied : Bool
  literal : Bool

inductive Tree where
  | alias (name : String)
  | scalar (anchor : Option String) (s : Scalar)
  | sequence (anchor : Option String) (tag : Option String) (items : List Tree)
  | mapping (anchor : Option String) (tag : Option String) (pairs : List (Tree × Tree))

/-! ## Sorting -/

def instant (m : Moment) : Int :=
  let c := m.clock
  ((m.date.ordinal * 24 + c.hour) * 60 + c.minute) * 60000000 + c.second * 1000000 + c.microsecond -
    m.offset.getD 0

def keyLess? : Value → Value → Option Bool
  | .text a, .text b => some (decide (a < b))
  | .int a, .int b => some (decide (a < b))
  | .bytes a, .bytes b => some (decide (a.map UInt8.toNat < b.map UInt8.toNat))
  | .date a, .date b => some (decide (a.ordinal < b.ordinal))
  | .moment a, .moment b =>
    if a.offset.isSome == b.offset.isSome then some (decide (instant a < instant b)) else none
  | .int a, .bool b => some (decide (a < b.toNat))
  | .bool a, .int b => some (decide ((a.toNat : Int) < b))
  | .bool a, .bool b => some (decide (a.toNat < b.toNat))
  | .int a, .float b => some ((Binary64.ofInt a).lt b)
  | .float a, .int b => some (a.lt (.ofInt b))
  | .float a, .float b => some (a.lt b)
  | .bool a, .float b => some ((Binary64.ofInt a.toNat).lt b)
  | .float a, .bool b => some (a.lt (.ofInt b.toNat))
  | _, _ => none

def sortEntries (entries : List (Value × Value)) : List (Value × Value) :=
  let comparable := match entries with
    | [] => true
    | first :: rest => rest.all fun e => (keyLess? first.1 e.1).isSome
  if comparable then
    entries.mergeSort fun a b => !((keyLess? b.1 a.1).getD false)
  else entries

mutual
def sorted : Value → Value
  | .shared label v => .shared label (sorted v)
  | .list items => .list (sortedItems items)
  | .pair a b => .pair (sorted a) (sorted b)
  | .set items => .set ((sortEntries (items.map (·, .null))).map (·.1))
  | .map entries => .map (sortEntries (sortedEntries entries))
  | v => v

def sortedItems : List Value → List Value
  | [] => []
  | v :: rest => sorted v :: sortedItems rest

def sortedEntries : List (Value × Value) → List (Value × Value)
  | [] => []
  | (k, v) :: rest => (k, sorted v) :: sortedEntries rest
end

/-! ## Naming -/

structure Sightings where
  once : List Nat
  again : List Nat

mutual
def sight (s : Sightings) : Value → Sightings
  | .shared label v =>
    if s.once.contains label then
      if s.again.contains label then s else { s with again := label :: s.again }
    else sight { s with once := label :: s.once } v
  | .list items => sightItems s items
  | .pair a b => sight (sight s a) b
  | .map entries => sightEntries s entries
  | _ => s

def sightItems (s : Sightings) : List Value → Sightings
  | [] => s
  | v :: rest => sightItems (sight s v) rest

def sightEntries (s : Sightings) : List (Value × Value) → Sightings
  | [] => s
  | (_, v) :: rest => sightEntries (sight s v) rest
end

def nameOf? (again : List Nat) (label : Nat) : Option String :=
  (again.reverse.findIdx? (· == label)).map fun n => "id" ++ zeroPadded 3 (n + 1)

/-! ## Texts -/

def base64Digits : List Char :=
  "ABCDEFGHIJKLMNOPQRSTUVWXYZabcdefghijklmnopqrstuvwxyz0123456789+/".toList

def base64Digit (n : Nat) : Char :=
  base64Digits.getD (n % 64) 'A'

def base64 : List UInt8 → List Char
  | [] => []
  | [a] => [base64Digit (a.toNat / 4), base64Digit (a.toNat % 4 * 16), '=', '=']
  | [a, b] =>
    [base64Digit (a.toNat / 4), base64Digit (a.toNat % 4 * 16 + b.toNat / 16),
      base64Digit (b.toNat % 16 * 4), '=']
  | a :: b :: c :: rest =>
    base64Digit (a.toNat / 4) :: base64Digit (a.toNat % 4 * 16 + b.toNat / 16) ::
      base64Digit (b.toNat % 16 * 4 + c.toNat / 64) :: base64Digit (c.toNat % 64) :: base64 rest

def wrapped (cs : List Char) : Nat → List Char
  | 0 => []
  | fuel + 1 => if cs.isEmpty then [] else cs.take 76 ++ '\n' :: wrapped (cs.drop 76) fuel

def octetsText (octets : List UInt8) : List Char :=
  let digits := base64 octets
  wrapped digits (digits.length + 1)

def floatText (x : Binary64) : String :=
  match x with
  | .nan _ => ".nan"
  | .infinite negative => if negative then "-.inf" else ".inf"
  | _ =>
    let cs := x.text.toList
    if cs.contains '.' || !cs.contains 'e' then x.text
    else String.ofList (cs.takeWhile (· != 'e') ++ ".0".toList ++ cs.dropWhile (· != 'e'))

def Scalar.ofText (word : String) (tag : Tag) (text : String) : Scalar :=
  { tag := "!!" ++ word, text := text.toList, plainImplied := Tag.ofForm text = tag,
    quotedImplied := tag = .str, literal := false }

def Scalar.ofOctets (octets : List UInt8) : Scalar :=
  { tag := "!!binary", text := octetsText octets, plainImplied := false, quotedImplied := false,
    literal := true }

def clockOctets (c : Clock) : List UInt8 :=
  [c.hour, c.minute, c.second, c.microsecond / 65536, c.microsecond / 256 % 256,
    c.microsecond % 256].map UInt8.ofNat

mutual
/-- What is written of a value; `again` are the values to be named, and `done` those that have been
written. -/
def Tree.ofValue (again : List Nat) (anchor : Option String) (done : List Nat) : Value → Tree × List Nat
  | .null => (.scalar anchor (.ofText "null" .null "null"), done)
  | .bool b => (.scalar anchor (.ofText "bool" .bool (if b then "true" else "false")), done)
  | .int n => (.scalar anchor (.ofText "int" .int (toString n)), done)
  | .float x => (.scalar anchor (.ofText "float" .float (floatText x)), done)
  | .text s => (.scalar anchor (.ofText "str" .str s), done)
  | .bytes octets => (.scalar anchor (.ofOctets octets), done)
  | .date d => (.scalar anchor (.ofText "timestamp" .timestamp d.text), done)
  | .moment m => (.scalar anchor (.ofText "timestamp" .timestamp m.text), done)
  | .clock c =>
    (.sequence anchor (some "!!python/object/apply:datetime.time")
      [.scalar none (.ofOctets (clockOctets c))], done)
  | .list items =>
    let (trees, done) := Tree.ofItems again done items
    (.sequence anchor none trees, done)
  | .pair a b =>
    let (first, done) := Tree.ofValue again none done a
    let (second, done) := Tree.ofValue again none done b
    (.sequence anchor (some "!!python/tuple") [first, second], done)
  | .set items =>
    let (trees, done) := Tree.ofItems again done items
    (.mapping anchor (some "!!set")
      (trees.map (·, .scalar none (.ofText "null" .null "null"))), done)
  | .map entries =>
    let (pairs, done) := Tree.ofEntries again done entries
    (.mapping anchor none pairs, done)
  | .shared label v =>
    match nameOf? again label with
    | none => Tree.ofValue again anchor done v
    | some name =>
      if done.contains label then (.alias name, done)
      else Tree.ofValue again (some name) (label :: done) v

def Tree.ofItems (again done : List Nat) : List Value → List Tree × List Nat
  | [] => ([], done)
  | v :: rest =>
    let (tree, done) := Tree.ofValue again none done v
    let (trees, done) := Tree.ofItems again done rest
    (tree :: trees, done)

def Tree.ofEntries (again done : List Nat) : List (Value × Value) → List (Tree × Tree) × List Nat
  | [] => ([], done)
  | (k, v) :: rest =>
    let (key, done) := Tree.ofValue again none done k
    let (value, done) := Tree.ofValue again none done v
    let (pairs, done) := Tree.ofEntries again done rest
    ((key, value) :: pairs, done)
end

def Tree.of (v : Value) : Tree :=
  let v := sorted v
  (Tree.ofValue (sight { once := [], again := [] } v).again none [] v).1

end Transclude.Yaml
