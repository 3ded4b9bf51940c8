import Transclude.Value.Toml.Scalar

/-!
# Reading TOML documents

A document is a list of keys with values and of headers that the keys after them belong to. Marks keep what may not be
touched again: tables that were opened by a header (`opened`) and values written in one piece (`frozen`).
-/

namespace Transclude.Toml

open Transclude.Text

abbrev Key := List String

abbrev Entries := List (Value × Value)

/-! ## Keys -/

def isBareChar (c : Char) : Bool :=
  c.isAlphanum || c == '-' || c == '_'

def takeKeyPart? (cs : List Char) : Option (String × List Char) :=
  match cs with
  | '\'' :: rest => (takeLiteral? rest).map fun (text, rest) => (String.ofList text, rest)
  | '"' :: rest =>
    (takeBasic? false [] rest (rest.length + 1)).map fun (text, rest) => (String.ofList text, rest)
  | cs =>
    let name := cs.takeWhile isBareChar
    if name.isEmpty then none else some (String.ofList name, cs.drop name.length)

def takeKey? (cs : List Char) : Nat → Option (Key × List Char)
  | 0 => none
  | fuel + 1 => do
    let (part, rest) ← takeKeyPart? cs
    match rest.dropWhile isSpace with
    | '.' :: rest =>
      let (key, rest) ← takeKey? (rest.dropWhile isSpace) fuel
      return (part :: key, rest)
    | rest => return ([part], rest)

/-! ## Tables -/

/-- The entries with a change made in the table that a key leads to; missing tables are made. A key
leads through the last table of a list if `throughLists`. -/
def changeAt (throughLists : Bool) (change : Entries → Option Entries) (entries : Entries) : Key → Option Entries
  | [] => change entries
  | k :: rest =>
    match Value.get? entries k with
    | none => do return Value.put entries (.text k) (.map (← changeAt throughLists change [] rest))
    | some (.map inner) => do
      return Value.put entries (.text k) (.map (← changeAt throughLists change inner rest))
    | some (.list items) =>
      match items.getLast? with
      | some (.map inner) =>
        if throughLists then do
          let inner ← changeAt throughLists change inner rest
          return Value.put entries (.text k) (.list (items.dropLast ++ [.map inner]))
        else none
      | _ => none
    | some _ => none

def addNew (key : String) (v : Value) (entries : Entries) : Option Entries :=
  if (Value.get? entries key).isSome then none else some (Value.put entries (.text key) v)

def addTable (key : String) (entries : Entries) : Option Entries :=
  match Value.get? entries key with
  | none => some (Value.put entries (.text key) (.list [.map []]))
  | some (.list items) => some (Value.put entries (.text key) (.list (items ++ [.map []])))
  | some _ => none

/-! ## Values -/

def skipComment? (cs : List Char) : Option (List Char) :=
  match cs with
  | '#' :: rest =>
    let comment := rest.takeWhile (· != '\n')
    if comment.any isControl then none else some (rest.drop comment.length)
  | cs => some cs

def skipFiller? (cs : List Char) : Nat → Option (List Char)
  | 0 => none
  | fuel + 1 => do
    let rest := cs.dropWhile isSpaceOrFeed
    match rest with
    | '#' :: _ => skipFiller? (← skipComment? rest) fuel
    | rest => some rest

def orMalformed {α : Type} (o : Option α) : Except Fault α :=
  match o with
  | some a => .ok a
  | none => .error .malformed

mutual
def takeValue (cs : List Char) : Nat → Except Fault (Value × List Char)
  | 0 => .error .malformed
  | fuel + 1 =>
    let text := fun (o : Option (List Char × List Char)) =>
      (orMalformed o).map fun (t, rest) => (Value.text (String.ofList t), rest)
    match cs with
    | '"' :: '"' :: '"' :: rest => text (takeMultiline? '"' rest)
    | '"' :: rest => text (takeBasic? false [] rest (rest.length + 1))
    | '\'' :: '\'' :: '\'' :: rest => text (takeMultiline? '\'' rest)
    | '\'' :: rest => text (takeLiteral? rest)
    | 't' :: 'r' :: 'u' :: 'e' :: rest => .ok (.bool true, rest)
    | 'f' :: 'a' :: 'l' :: 's' :: 'e' :: rest => .ok (.bool false, rest)
    | '[' :: rest => do
      let (items, rest) ← takeItems rest fuel
      return (.list items, rest)
    | '{' :: rest =>
      match rest.dropWhile isSpace with
      | '}' :: rest => .ok (.map [], rest)
      | rest => do
        let (entries, rest) ← takeInline [] [] rest fuel
        return (.map entries, rest)
    | cs =>
      match takeDate? cs with
      | some (some v, rest) => .ok (v, rest)
      | some (none, _) => .error .malformed
      | none =>
        match takeClock? cs with
        | some (clock, rest) => .ok (.clock clock, rest)
        | none => do
          match ← takeNumber? cs with
          | some (v, rest) => return (v, rest)
          | none =>
            match specialFloats.find? fun w => w.1.toList.isPrefixOf cs with
            | some w => return (.float w.2, cs.drop w.1.length)
            | none => .error .malformed

def takeItems (cs : List Char) : Nat → Except Fault (List Value × List Char)
  | 0 => .error .malformed
  | fuel + 1 => do
    match ← orMalformed (skipFiller? cs (cs.length + 1)) with
    | ']' :: rest => return ([], rest)
    | cs =>
      let (v, rest) ← takeValue cs fuel
      match ← orMalformed (skipFiller? rest (rest.length + 1)) with
      | ']' :: rest => return ([v], rest)
      | ',' :: rest =>
        let (items, rest) ← takeItems rest fuel
        return (v :: items, rest)
      | _ => .error .malformed

/-- The entries of a table in braces; `frozen` are the keys of the values written in one piece. -/
def takeInline (entries : Entries) (frozen : List Key) (cs : List Char) : Nat → Except Fault (Entries × List Char)
  | 0 => .error .malformed
  | fuel + 1 => do
    let (key, rest) ← orMalformed (takeKey? cs (cs.length + 1))
    match rest with
    | '=' :: rest =>
      let (v, rest) ← takeValue (rest.dropWhile isSpace) fuel
      if frozen.any (·.isPrefixOf key) then .error .malformed
      else
        let entries ← orMalformed
          (changeAt false (addNew (key.getLast?.getD "") v) entries key.dropLast)
        match rest.dropWhile isSpace with
        | '}' :: rest => return (entries, rest)
        | ',' :: rest =>
          let frozen := if v.isCollection then key :: frozen else frozen
          takeInline entries frozen (rest.dropWhile isSpace) fuel
        | _ => .error .malformed
    | _ => .error .malformed
end

/-! ## Statements -/

/-- What has been read: the entries, the header that the next keys belong to, the tables that a header
may not open again, those that will be so after the next header, and the values written in one piece. -/
structure Document where
  entries : Entries
  header : Key
  opened : List Key
  pending : List Key
  frozen : List Key

namespace Document

def start : Document :=
  { entries := [], header := [], opened := [], pending := [], frozen := [] }

def isFrozen (d : Document) (key : Key) : Bool :=
  d.frozen.any fun f => f.isPrefixOf key

def settle (d : Document) : Document :=
  { d with opened := d.pending ++ d.opened, pending := [] }

def openTable? (d : Document) (cs : List Char) : Option (Document × List Char) := do
  let (key, rest) ← takeKey? (cs.dropWhile isSpace) (cs.length + 1)
  if d.opened.contains key || d.isFrozen key then none
  else
    let entries ← changeAt true some d.entries key
    match rest with
    | ']' :: rest => return ({ d with entries, header := key, opened := key :: d.opened }, rest)
    | _ => none

def openItem? (d : Document) (cs : List Char) : Option (Document × List Char) := do
  let (key, rest) ← takeKey? (cs.dropWhile isSpace) (cs.length + 1)
  if d.isFrozen key then none
  else
    let others := fun keys : List Key => keys.filter (!key.isPrefixOf ·)
    let entries ← changeAt true (addTable (key.getLast?.getD "")) d.entries key.dropLast
    match rest with
    | ']' :: ']' :: rest =>
      let opened := key :: others d.opened
      return ({ d with entries, header := key, opened, frozen := others d.frozen }, rest)
    | _ => none

def assign (d : Document) (cs : List Char) : Except Fault (Document × List Char) := do
  let (key, rest) ← orMalformed (takeKey? cs (cs.length + 1))
  match rest with
  | '=' :: rest =>
    let (v, rest) ← takeValue (rest.dropWhile isSpace) (2 * rest.length + 2)
    let inner := (List.range key.length).drop 1 |>.map fun n => d.header ++ key.take n
    let parent := d.header ++ key.dropLast
    if inner.any d.opened.contains || d.isFrozen parent then .error .malformed
    else
      let entries ← orMalformed (changeAt true (addNew (key.getLast?.getD "") v) d.entries parent)
      let frozen := if v.isCollection then (d.header ++ key) :: d.frozen else d.frozen
      return ({ d with entries, pending := inner ++ d.pending, frozen }, rest)
  | _ => .error .malformed

def readFrom (d : Document) (cs : List Char) : Nat → Except Fault Document
  | 0 => .error .malformed
  | fuel + 1 => do
    match cs.dropWhile isSpace with
    | [] => return d
    | '\n' :: rest => d.readFrom rest fuel
    | cs =>
      let (d, rest) ← match cs with
        | '[' :: '[' :: rest => orMalformed (d.settle.openItem? rest)
        | '[' :: rest => orMalformed (d.settle.openTable? rest)
        | '#' :: _ => .ok (d, cs)
        | cs => d.assign cs
      match ← orMalformed (skipComment? (rest.dropWhile isSpace)) with
      | [] => return d
      | '\n' :: rest => d.readFrom rest fuel
      | _ => .error .malformed

end Document

def read (s : String) : Except Fault Value := do
  let cs := dropReturns s.toList
  let d ← Document.start.readFrom cs (cs.length + 1)
  return .map d.entries

end Transclude.Toml
