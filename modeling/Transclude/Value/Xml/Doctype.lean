import Transclude.Value.Json.Reader
import Transclude.Value.Xml.Name

/-!
# The type declaration of an XML document

The declaration before the root element can name entities and give attributes types and default values. Declarations
after a reference to a parameter entity do not count, because that entity is not read.
-/

namespace Transclude.Xml

open Transclude.Text

inductive Entity where
  | internal (text : List Char)
  | external
  | unparsed
deriving Repr, DecidableEq

structure AttributeRule where
  name : List Char
  words : Bool
  default : Option (List Char)
deriving Repr, DecidableEq

structure Doctype where
  entities : List (List Char × Entity)
  attributes : List (List Char × AttributeRule)
  incomplete : Bool
  reading : Bool
  standalone : Bool

def Doctype.start (standalone : Bool) : Doctype :=
  { entities := [], attributes := [], incomplete := false, reading := true, standalone }

def standardEntities : List (List Char × Char) := [
  ("lt".toList, '<'), ("gt".toList, '>'), ("amp".toList, '&'), ("quot".toList, '"'),
  ("apos".toList, '\'')]

/-! ## References -/

inductive Reference where
  | char (c : Char)
  | entity (name : List Char)

def charOf? (n : Nat) : Option Char :=
  if n ≤ 0x10ffff && !(0xd800 ≤ n && n ≤ 0xdfff) && isPermitted (Char.ofNat n) then some (Char.ofNat n)
  else .none

def digitsIn (base : Nat) (digits : List Char) : Nat :=
  digits.foldl (fun n c => min 0x1000000 (base * n + (Json.hexValue? c).getD 0)) 0

def takeReference? (cs : List Char) : Option (Reference × List Char) :=
  let number := fun (base : Nat) (isDigit : Char → Bool) (cs : List Char) =>
    let digits := cs.takeWhile isDigit
    match cs.drop digits.length with
    | ';' :: rest =>
      if digits.isEmpty then .none
      else (charOf? (digitsIn base digits)).map fun c => (Reference.char c, rest)
    | _ => .none
  match cs with
  | '#' :: 'x' :: rest => number 16 (fun c => (Json.hexValue? c).isSome) rest
  | '#' :: rest => number 10 Char.isDigit rest
  | cs => do
    let (name, rest) ← takeSimpleName? cs
    match rest with
    | ';' :: rest => some (.entity name, rest)
    | _ => .none

/-! ## Literals -/

def takeLiteral? : List Char → Option (List Char × List Char)
  | q :: cs =>
    if q == '"' || q == '\'' then
      let inside := cs.takeWhile (· != q)
      match cs.drop inside.length with
      | _ :: rest => if inside.all isPermitted then some (inside, rest) else .none
      | [] => .none
    else .none
  | [] => .none

def entityText? (cs : List Char) : Nat → Option (List Char)
  | 0 => .none
  | fuel + 1 =>
    match cs with
    | [] => some []
    | '%' :: _ => .none
    | '&' :: rest =>
      match takeReference? rest with
      | some (.char c, rest) => (entityText? rest fuel).map (c :: ·)
      | some (.entity name, rest) => (entityText? rest fuel).map fun t => '&' :: name ++ ';' :: t
      | .none => .none
    | c :: rest => (entityText? rest fuel).map (c :: ·)

def collapseSpaces (cs : List Char) : List Char :=
  joinWith [' '] ((splitAt ' ' cs).filter (!·.isEmpty))

/-- The value of an attribute with its references replaced; `open_` are the entities that are being
replaced. -/
def attributeText? (d : Doctype) (open_ : List (List Char)) (cs : List Char) : Nat → Option (List Char)
  | 0 => .none
  | fuel + 1 =>
    match cs with
    | [] => some []
    | '<' :: _ => .none
    | '&' :: rest => do
      match ← takeReference? rest with
      | (.char c, rest) => return c :: (← attributeText? d open_ rest fuel)
      | (.entity name, rest) =>
        let tail ← attributeText? d open_ rest fuel
        match standardEntities.lookup name, d.entities.lookup name with
        | some c, _ => return c :: tail
        | .none, some (.internal text) =>
          if open_.contains name then .none
          else return (← attributeText? d (name :: open_) text fuel) ++ tail
        | .none, some _ => .none
        | .none, .none => if d.incomplete && !d.standalone then return tail else .none
    | c :: rest => do
      let tail ← attributeText? d open_ rest fuel
      return (if isSpace c then ' ' else c) :: tail

def Doctype.fuel (d : Doctype) (length : Nat) : Nat :=
  let sizes := d.entities.map fun e => match e.2 with
    | .internal text => text.length + 2
    | _ => 1
  (sizes.foldl (· + ·) 0 + length + 4) * (d.entities.length + 2)

def attributeValue? (d : Doctype) (words : Bool) (cs : List Char) : Option (List Char) :=
  (attributeText? d [] cs (d.fuel cs.length)).map fun t => if words then collapseSpaces t else t

/-! ## Declarations -/

def afterWord? (word : String) (cs : List Char) : Option (List Char) :=
  after? word.toList cs

def isPublicChar (c : Char) : Bool :=
  c.isAlphanum || " \r\n-'()+,./:=?;!*#@$_%".toList.contains c

/-- What is named outside the document: `SYSTEM` and a place, or `PUBLIC`, a name and a place, which may
be left out if `placeless`. -/
def afterExternal? (placeless : Bool) (cs : List Char) : Option (List Char) :=
  match afterWord? "SYSTEM" cs with
  | some rest => do
    let (_, rest) ← takeLiteral? (← needSpace? rest)
    return rest
  | .none => do
    let (name, rest) ← takeLiteral? (← needSpace? (← afterWord? "PUBLIC" cs))
    if !name.all isPublicChar then .none
    else
      match (needSpace? rest).bind takeLiteral? with
      | some (_, rest) => return rest
      | .none => if placeless then return rest else .none

def afterEnd? (cs : List Char) : Option (List Char) :=
  match skipSpace cs with
  | '>' :: rest => some rest
  | _ => .none

def entityDeclaration? (d : Doctype) (cs : List Char) : Option (Doctype × List Char) := do
  let cs ← needSpace? cs
  let (isParameter, cs) ← match cs with
    | '%' :: rest => do
      let rest ← needSpace? rest
      pure (true, rest)
    | cs => pure (false, cs)
  let (name, rest) ← takeSimpleName? cs
  let rest ← needSpace? rest
  let add := fun e => if isParameter || !d.reading || (d.entities.lookup name).isSome then d
    else { d with entities := d.entities ++ [(name, e)] }
  match takeLiteral? rest with
  | some (text, rest) =>
    let rest ← afterEnd? rest
    if d.reading then
      let value ← entityText? (universalNewlines text) (text.length + 1)
      return (add (.internal value), rest)
    else return (d, rest)
  | .none =>
    let rest ← afterExternal? false rest
    match (needSpace? rest).bind (afterWord? "NDATA") with
    | some after =>
      if isParameter then .none
      else
        let (_, after) ← takeSimpleName? (← needSpace? after)
        return (add .unparsed, ← afterEnd? after)
    | .none => return (add .external, ← afterEnd? rest)

def afterChoices? (cs : List Char) : Nat → Option (List Char)
  | 0 => .none
  | fuel + 1 =>
    let cs := skipSpace cs
    let token := cs.takeWhile fun c => isNameChar c || c == ':'
    if token.isEmpty then .none
    else
      match skipSpace (cs.drop token.length) with
      | '|' :: rest => afterChoices? rest fuel
      | ')' :: rest => some rest
      | _ => .none

def wordTypes : List String :=
  ["IDREFS", "IDREF", "ID", "ENTITIES", "ENTITY", "NMTOKENS", "NMTOKEN"]

def takeType? (cs : List Char) : Option (Bool × List Char) :=
  match afterWord? "CDATA" cs with
  | some rest => some (false, rest)
  | .none =>
    match wordTypes.findSome? (afterWord? · cs) with
    | some rest => some (true, rest)
    | .none =>
      match cs with
      | '(' :: rest => (afterChoices? rest (rest.length + 1)).map (true, ·)
      | cs => do
        match ← needSpace? (← afterWord? "NOTATION" cs) with
        | '(' :: rest => (afterChoices? rest (rest.length + 1)).map (true, ·)
        | _ => .none

def attributeRules? (d : Doctype) (element : List Char) (cs : List Char) : Nat → Option (Doctype × List Char)
  | 0 => .none
  | fuel + 1 =>
    match afterEnd? cs with
    | some rest => some (d, rest)
    | .none => do
      let (name, rest) ← takeName? (← needSpace? cs)
      let (words, rest) ← takeType? (← needSpace? rest)
      let rest ← needSpace? rest
      let (default, rest) ←
        match afterWord? "#REQUIRED" rest, afterWord? "#IMPLIED" rest with
        | some rest, _ => pure (Option.none, rest)
        | _, some rest => pure (Option.none, rest)
        | .none, .none => do
          let rest ← match afterWord? "#FIXED" rest with
            | some rest => needSpace? rest
            | .none => pure rest
          let (text, rest) ← takeLiteral? rest
          let value ← attributeValue? d words (universalNewlines text)
          pure (some value, rest)
      let known := d.attributes.any fun a => a.1 == element && a.2.name == name
      let d := if known || !d.reading then d
        else { d with attributes := d.attributes ++ [(element, { name, words, default })] }
      attributeRules? d element rest fuel

def attributesDeclaration? (d : Doctype) (cs : List Char) : Option (Doctype × List Char) := do
  let (element, rest) ← takeName? (← needSpace? cs)
  attributeRules? d element rest (rest.length + 1)

def skipCount (cs : List Char) : List Char :=
  match cs with
  | '?' :: rest => rest
  | '*' :: rest => rest
  | '+' :: rest => rest
  | cs => cs

mutual
/-- The parts of an element in parentheses, after the opening one; `separator` is the sign between
them, if it is known. -/
def afterGroup? (separator : Option Char) (cs : List Char) : Nat → Option (List Char)
  | 0 => .none
  | fuel + 1 => do
    let rest ← afterPart? (skipSpace cs) fuel
    match skipSpace rest with
    | ')' :: rest => some (skipCount rest)
    | c :: rest =>
      if (c == ',' || c == '|') && separator.all (· == c) then afterGroup? (some c) rest fuel else .none
    | [] => .none

def afterPart? (cs : List Char) : Nat → Option (List Char)
  | 0 => .none
  | fuel + 1 =>
    match cs with
    | '(' :: rest => afterGroup? .none rest fuel
    | cs => (takeName? cs).map fun (_, rest) => skipCount rest
end

/-- The names after `#PCDATA`. -/
def afterMixed? (named : Bool) (cs : List Char) : Nat → Option (List Char)
  | 0 => .none
  | fuel + 1 =>
    match skipSpace cs with
    | ')' :: '*' :: rest => some rest
    | ')' :: rest => if named then .none else some rest
    | '|' :: rest => do
      let (_, rest) ← takeName? (skipSpace rest)
      afterMixed? true rest fuel
    | _ => .none

def elementDeclaration? (cs : List Char) : Option (List Char) := do
  let (_, rest) ← takeName? (← needSpace? cs)
  let rest ← needSpace? rest
  match afterWord? "EMPTY" rest, afterWord? "ANY" rest with
  | some rest, _ => afterEnd? rest
  | _, some rest => afterEnd? rest
  | .none, .none =>
    match rest with
    | '(' :: inside =>
      match afterWord? "#PCDATA" (skipSpace inside) with
      | some rest => afterEnd? (← afterMixed? false rest (rest.length + 1))
      | .none => afterEnd? (← afterGroup? .none inside (2 * inside.length + 2))
    | _ => .none

def notationDeclaration? (cs : List Char) : Option (List Char) := do
  let (_, rest) ← takeSimpleName? (← needSpace? cs)
  afterEnd? (← afterExternal? true (← needSpace? rest))

def afterComment? (cs : List Char) : Option (List Char) := do
  let (inside, rest) ← cutAt? ['-', '-'] cs
  match rest with
  | '>' :: rest => if inside.all isPermitted then some rest else .none
  | _ => .none

def afterInstruction? (cs : List Char) : Option (List Char) := do
  let (target, rest) ← takeSimpleName? cs
  if target.map Char.toLower == "xml".toList then .none
  else
    let (inside, after) ← cutAt? ['?', '>'] rest
    if inside.all isPermitted && (inside.isEmpty || inside.head?.any isSpace) then some after else .none

def declarations? (d : Doctype) (cs : List Char) : Nat → Option (Doctype × List Char)
  | 0 => .none
  | fuel + 1 =>
    match skipSpace cs with
    | ']' :: rest => some (d, rest)
    | '%' :: rest => do
      let (_, rest) ← takeSimpleName? rest
      match rest with
      | ';' :: rest => declarations? { d with incomplete := true, reading := d.standalone } rest fuel
      | _ => .none
    | '<' :: '!' :: '-' :: '-' :: rest => do declarations? d (← afterComment? rest) fuel
    | '<' :: '?' :: rest => do declarations? d (← afterInstruction? rest) fuel
    | '<' :: '!' :: rest =>
      match afterWord? "ENTITY" rest, afterWord? "ATTLIST" rest, afterWord? "ELEMENT" rest,
          afterWord? "NOTATION" rest with
      | some rest, _, _, _ => do
        let (d, rest) ← entityDeclaration? d rest
        declarations? d rest fuel
      | _, some rest, _, _ => do
        let (d, rest) ← attributesDeclaration? d rest
        declarations? d rest fuel
      | _, _, some rest, _ => do declarations? d (← elementDeclaration? rest) fuel
      | _, _, _, some rest => do declarations? d (← notationDeclaration? rest) fuel
      | _, _, _, _ => .none
    | _ => .none

def takeDoctype? (d : Doctype) (cs : List Char) : Option (Doctype × List Char) := do
  let (_, rest) ← takeName? (← needSpace? cs)
  let (d, rest) := match (needSpace? rest).bind (afterExternal? false) with
    | some rest => ({ d with incomplete := true }, rest)
    | .none => (d, rest)
  match skipSpace rest with
  | '[' :: rest =>
    let (d, rest) ← declarations? d rest (rest.length + 1)
    return (d, ← afterEnd? rest)
  | '>' :: rest => some (d, rest)
  | _ => .none

end Transclude.Xml
