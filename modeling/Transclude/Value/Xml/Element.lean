import Transclude.Value.Xml.Doctype

/-!
# The elements of an XML document

`Element.read` reads a document into the tree of its elements. Of the text of an element only what stands before its
first child is kept.
-/

namespace Transclude.Xml

open Transclude.Text

inductive Element where
  | node (tag : String) (attributes : List (String × String)) (text : String) (children : List Element)
deriving Repr

abbrev Scope := List (List Char × List Char)

def xmlAddress : List Char := "http://www.w3.org/XML/1998/namespace".toList

def xmlnsAddress : List Char := "http://www.w3.org/2000/xmlns/".toList

def Scope.start : Scope := [("xml".toList, xmlAddress)]

def splitName (name : List Char) : List Char × List Char :=
  match cutAt? [':'] name with
  | some (lead, rest) => (lead, rest)
  | none => ([], name)

def fullName? (scope : Scope) (isAttribute : Bool) (name : List Char) : Option (List Char) :=
  let (lead, rest) := splitName name
  match scope.lookup lead with
  | some [] => if lead.isEmpty then some name else none
  | some address =>
    if isAttribute && lead.isEmpty then some name else some ('{' :: address ++ '}' :: rest)
  | none => if lead.isEmpty then some name else none

def declare? (scope : Scope) (lead address : List Char) : Option Scope :=
  let isXml := lead == "xml".toList
  if lead == "xmlns".toList then none
  else if isXml != (address == xmlAddress) then none
  else if address == xmlnsAddress || address.contains '}' then none
  else if address.isEmpty && !lead.isEmpty then none
  else some ((lead, address) :: scope)

def declareAll? (scope : Scope) : List (List Char × List Char) → Option (Scope × List (List Char × List Char))
  | [] => some (scope, [])
  | (name, value) :: rest => do
    let (lead, tail) := splitName name
    if name == "xmlns".toList then declareAll? (← declare? scope [] value) rest
    else if lead == "xmlns".toList then declareAll? (← declare? scope tail value) rest
    else
      let (scope, others) ← declareAll? scope rest
      return (scope, (name, value) :: others)

def takeAttributes? (d : Doctype) (element : List Char) (found : List (List Char × List Char))
    (cs : List Char) : Nat → Option (List (List Char × List Char) × Bool × List Char)
  | 0 => none
  | fuel + 1 =>
    match skipSpace cs with
    | '>' :: rest => some (found.reverse, false, rest)
    | '/' :: '>' :: rest => some (found.reverse, true, rest)
    | _ => do
      let (name, rest) ← takeName? (← needSpace? cs)
      match skipSpace rest with
      | '=' :: rest =>
        let (text, rest) ← takeLiteral? (skipSpace rest)
        let words := d.attributes.any fun a => a.1 == element && a.2.name == name && a.2.words
        let value ← attributeValue? d words (universalNewlines text)
        if (found.lookup name).isSome then none
        else takeAttributes? d element ((name, value) :: found) rest fuel
      | _ => none

def defaultAttributes (d : Doctype) (element : List Char) (found : List (List Char × List Char)) :
    List (List Char × List Char) :=
  d.attributes.filterMap fun (e, rule) =>
    if e == element && (found.lookup rule.name).isNone then
      rule.default.map fun value => (rule.name, value)
    else none

def fullAttributes? (scope : Scope) (seen : List (List Char)) :
    List (List Char × List Char) → Option (List (String × String))
  | [] => some []
  | (name, value) :: rest => do
    let name ← fullName? scope true name
    if seen.contains name then none
    else
      return (String.ofList name, String.ofList value) :: (← fullAttributes? scope (name :: seen) rest)

inductive Content where
  | text (cs : List Char)
  | child (e : Element)

def Element.ofContent (tag : List Char) (attributes : List (String × String)) (content : List Content) : Element :=
  let lead := content.takeWhile fun part => match part with
    | .text _ => true
    | .child _ => false
  let text := lead.flatMap fun part => match part with
    | .text cs => cs
    | .child _ => []
  let children := content.filterMap fun part => match part with
    | .text _ => none
    | .child e => some e
  .node (String.ofList tag) attributes (String.ofList text) children

mutual
def takeElement? (d : Doctype) (open_ : List (List Char)) (scope : Scope) (cs : List Char) :
    Nat → Option (Element × List Char)
  | 0 => none
  | fuel + 1 => do
    let (name, rest) ← takeName? cs
    let (found, isEmpty, rest) ← takeAttributes? d name [] rest (rest.length + 1)
    let (scope, attributes) ← declareAll? scope (found ++ defaultAttributes d name found)
    let tag ← fullName? scope false name
    let attributes ← fullAttributes? scope [] attributes
    if isEmpty then return (.ofContent tag attributes [], rest)
    else
      let (content, rest) ← takeContent? d open_ scope rest fuel
      let rest ← after? ('<' :: '/' :: name) rest
      match skipSpace rest with
      | '>' :: rest => return (.ofContent tag attributes content, rest)
      | _ => none

/-- The content up to an end tag or the end of the text; `open_` are the entities that are being
replaced. -/
def takeContent? (d : Doctype) (open_ : List (List Char)) (scope : Scope) (cs : List Char) :
    Nat → Option (List Content × List Char)
  | 0 => none
  | fuel + 1 =>
    match cs with
    | [] => some ([], [])
    | '<' :: '/' :: _ => some ([], cs)
    | '<' :: '!' :: '-' :: '-' :: rest => do
      takeContent? d open_ scope (← afterComment? rest) fuel
    | '<' :: '?' :: rest => do takeContent? d open_ scope (← afterInstruction? rest) fuel
    | '<' :: '!' :: rest => do
      let (text, rest) ← cutAt? "]]>".toList (← after? "[CDATA[".toList rest)
      let (content, rest) ← takeContent? d open_ scope rest fuel
      if text.all isPermitted then return (.text (universalNewlines text) :: content, rest) else none
    | '<' :: rest => do
      let (child, rest) ← takeElement? d open_ scope rest fuel
      let (content, rest) ← takeContent? d open_ scope rest fuel
      return (.child child :: content, rest)
    | '&' :: rest => do
      let (reference, rest) ← takeReference? rest
      let here ← match reference with
        | .char c => some [Content.text [c]]
        | .entity name =>
          match standardEntities.lookup name, d.entities.lookup name with
          | some c, _ => some [Content.text [c]]
          | none, some (.internal text) =>
            if open_.contains name then none
            else
              match takeContent? d (name :: open_) scope text fuel with
              | some (content, []) => some content
              | _ => none
          | none, _ => none
      let (content, rest) ← takeContent? d open_ scope rest fuel
      return (here ++ content, rest)
    | c :: rest => do
      let tail := rest.takeWhile fun c => c != '<' && c != '&'
      let text := c :: tail
      if !text.all isPermitted || Text.contains "]]>".toList text then none
      else
        let (content, rest) ← takeContent? d open_ scope (rest.drop tail.length) fuel
        return (.text (universalNewlines text) :: content, rest)
end

/-! ## Documents -/

def takePseudo? (name : String) (cs : List Char) : Option (List Char × List Char) := do
  let rest ← after? name.toList (← needSpace? cs)
  match skipSpace rest with
  | '=' :: rest =>
    let (value, rest) ← takeLiteral? (skipSpace rest)
    if value.all fun c => c.isAlphanum || c == '.' || c == '-' || c == '_' then some (value, rest)
    else none
  | _ => none

/-- The declaration at the start of a document after its first word: whether the document stands alone,
and the text after it. -/
def takeDeclaration? (cs : List Char) : Option (Bool × List Char) := do
  let (_, rest) ← takePseudo? "version" cs
  let rest ← match takePseudo? "encoding" rest with
    | some (value, rest) => if value.head?.any Char.isAlpha then some rest else none
    | none => some rest
  let (standalone, rest) ← match takePseudo? "standalone" rest with
    | some (value, rest) =>
      if value == "yes".toList || value == "no".toList then some (value == "yes".toList, rest) else none
    | none => some (false, rest)
  match skipSpace rest with
  | '?' :: '>' :: rest => some (standalone, rest)
  | _ => none

/-- What comes before the root element: comments, instructions, and a type declaration if it is not
`done`. -/
def takeProlog? (d : Doctype) (done : Bool) (cs : List Char) : Nat → Option (Doctype × List Char)
  | 0 => none
  | fuel + 1 =>
    match skipSpace cs with
    | '<' :: '!' :: '-' :: '-' :: rest => do takeProlog? d done (← afterComment? rest) fuel
    | '<' :: '?' :: rest => do takeProlog? d done (← afterInstruction? rest) fuel
    | '<' :: '!' :: rest => do
      let rest ← after? "DOCTYPE".toList rest
      if done then none
      else
        let (d, rest) ← takeDoctype? d rest
        takeProlog? d true rest fuel
    | '<' :: rest => some (d, rest)
    | _ => none

def isEpilog (cs : List Char) : Nat → Bool
  | 0 => false
  | fuel + 1 =>
    match skipSpace cs with
    | [] => true
    | '<' :: '!' :: '-' :: '-' :: rest => (afterComment? rest).any (isEpilog · fuel)
    | '<' :: '?' :: rest => (afterInstruction? rest).any (isEpilog · fuel)
    | _ => false

def Element.read (s : String) : Option Element := do
  let cs := match s.toList with
    | c :: rest => if c.toNat == 0xfeff then rest else c :: rest
    | [] => []
  let (standalone, cs) ← match after? "<?xml".toList cs with
    | some rest => if rest.head?.any isSpace then takeDeclaration? rest else some (false, cs)
    | none => some (false, cs)
  let (d, rest) ← takeProlog? (.start standalone) false cs (cs.length + 1)
  let (root, rest) ← takeElement? d [] .start rest (d.fuel (2 * rest.length))
  if isEpilog rest (rest.length + 1) then some root else none

end Transclude.Xml
