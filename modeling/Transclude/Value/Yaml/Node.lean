import Transclude.Value.Yaml.Token
import Transclude.Value.Yaml.Scalar

/-!
# The nodes of a YAML document

`Node.ofTokens` builds the tree of a document. Every node has a number, so that the places where an alias stands for
it can be told from places that look alike.
-/

namespace Transclude.Yaml

inductive Node where
  | scalar (id : Nat) (tag : Tag) (text : String)
  | sequence (id : Nat) (tag : Tag) (items : List Node)
  | mapping (id : Nat) (tag : Tag) (pairs : List (Node × Node))
deriving Repr

def Node.tag : Node → Tag
  | .scalar _ t _ => t
  | .sequence _ t _ => t
  | .mapping _ t _ => t

/-- What is known while a document is read: the tokens that are left, what the handles of tags stand
for, the named nodes, and the next number. A name whose node is not complete has none. -/
structure Composer where
  tokens : List Token
  handles : List (String × String)
  anchors : List (String × Option Node)
  nextId : Nat

abbrev Compose := StateT Composer (Except Fault)

namespace Compose

def refuse {α : Type} : Compose α :=
  throw Fault.malformed

def peek : Compose Token := do
  return (← get).tokens.headD .streamEnd

def advance : Compose Unit :=
  modify fun s => { s with tokens := s.tokens.drop 1 }

def isAt (ts : List Token) : Compose Bool := do
  return ts.contains (← peek)

def newId : Compose Nat := do
  let s ← get
  set { s with nextId := s.nextId + 1 }
  return s.nextId

def emptyNode : Compose Node := do
  return .scalar (← newId) .null ""

def named (name : String) : Compose Node := do
  match (← get).anchors.lookup name with
  | some (some node) => return node
  | some none => throw Fault.recursive
  | none => refuse

def takeName (name : Option String) : Compose Unit := do
  match name with
  | none => pure ()
  | some n =>
    if ((← get).anchors.lookup n).isSome then refuse
    else modify fun s => { s with anchors := (n, none) :: s.anchors }

def giveName (name : Option String) (node : Node) : Compose Node := do
  match name with
  | none => pure ()
  | some n => modify fun s => { s with anchors := (n, some node) :: s.anchors }
  return node

def fullTag (handle : Option String) (suffix : String) : Compose (Option Tag) := do
  let uri ← match handle with
    | none => pure suffix
    | some h =>
      match (← get).handles.lookup h with
      | some leader => pure (leader ++ suffix)
      | none => refuse
  return if uri == "!" then none else some (.ofUri uri)

structure Properties where
  name : Option String
  tag : Option Tag
  tagged : Bool

def properties : Compose Properties := do
  match ← peek with
  | .anchor n =>
    advance
    match ← peek with
    | .tag handle suffix => do
      advance
      return { name := some n, tag := ← fullTag handle suffix, tagged := true }
    | _ => return { name := some n, tag := none, tagged := false }
  | .tag handle suffix =>
    advance
    let name ← match ← peek with
      | .anchor n => do
        advance
        pure (some n)
      | _ => pure none
    return { name, tag := ← fullTag handle suffix, tagged := true }
  | _ => return { name := none, tag := none, tagged := false }

/-- Where a node stands: among blocks, there also as a list at the indentation of its key, or within
brackets. -/
inductive Position where
  | block
  | blockValue
  | flow
deriving DecidableEq

mutual
def node (position : Position) : Nat → Compose Node
  | 0 => refuse
  | fuel + 1 => do
    match ← peek with
    | .alias name =>
      advance
      named name
    | _ =>
      let props ← properties
      let t ← peek
      let inBlock := position ≠ .flow
      let collect := fun (tag : Tag) (build : Nat → Tag → Compose Node) => do
        takeName props.name
        let id ← newId
        let made ← build id (props.tag.getD tag)
        giveName props.name made
      if t = .blockEntry && position = .blockValue then
        collect .seq fun id tag => do return .sequence id tag (← indentlessItems fuel)
      else
        match t with
        | .scalar text plain =>
          advance
          takeName props.name
          let tag := match props.tag with
            | some tag => tag
            | none => if plain || props.tagged then Tag.ofForm text else .str
          giveName props.name (.scalar (← newId) tag text)
        | .flowSequenceStart =>
          advance
          collect .seq fun id tag => do return .sequence id tag (← flowItems true fuel)
        | .flowMappingStart =>
          advance
          collect .map fun id tag => do return .mapping id tag (← flowPairs true fuel)
        | .blockSequenceStart =>
          if inBlock then
            advance
            collect .seq fun id tag => do return .sequence id tag (← blockItems fuel)
          else emptyOr props
        | .blockMappingStart =>
          if inBlock then
            advance
            collect .map fun id tag => do return .mapping id tag (← blockPairs fuel)
          else emptyOr props
        | _ => emptyOr props
where
  emptyOr (props : Properties) : Compose Node := do
    if props.name.isSome || props.tagged then
      takeName props.name
      giveName props.name (.scalar (← newId) (props.tag.getD .null) "")
    else refuse

def blockItems : Nat → Compose (List Node)
  | 0 => refuse
  | fuel + 1 => do
    match ← peek with
    | .blockEntry =>
      advance
      let item ← if ← isAt [.blockEntry, .blockEnd] then emptyNode else node .block fuel
      return item :: (← blockItems fuel)
    | .blockEnd =>
      advance
      return []
    | _ => refuse

def indentlessItems : Nat → Compose (List Node)
  | 0 => refuse
  | fuel + 1 => do
    match ← peek with
    | .blockEntry =>
      advance
      let item ←
        if ← isAt [.blockEntry, .key, .value, .blockEnd] then emptyNode else node .block fuel
      return item :: (← indentlessItems fuel)
    | _ => return []

def blockPairs : Nat → Compose (List (Node × Node))
  | 0 => refuse
  | fuel + 1 => do
    match ← peek with
    | .key =>
      advance
      let key ← if ← isAt [.key, .value, .blockEnd] then emptyNode else node .blockValue fuel
      let value ← blockPairValue fuel
      return (key, value) :: (← blockPairs fuel)
    | .value =>
      refuse
    | .blockEnd =>
      advance
      return []
    | _ => refuse

def blockPairValue : Nat → Compose Node
  | 0 => refuse
  | fuel + 1 => do
    match ← peek with
    | .value =>
      advance
      if ← isAt [.key, .value, .blockEnd] then emptyNode else node .blockValue fuel
    | _ => emptyNode

def flowItems (first : Bool) : Nat → Compose (List Node)
  | 0 => refuse
  | fuel + 1 => do
    if ← isAt [.flowSequenceEnd] then
      advance
      return []
    else
      if !first then
        if ← isAt [.flowEntry] then advance else refuse
      match ← peek with
      | .key =>
        let id ← newId
        advance
        let key ← if ← isAt [.value, .flowEntry, .flowSequenceEnd] then emptyNode
          else node .flow fuel
        let value ← flowPairValue .flowSequenceEnd fuel
        return .mapping id .map [(key, value)] :: (← flowItems false fuel)
      | .flowSequenceEnd =>
        advance
        return []
      | _ =>
        let item ← node .flow fuel
        return item :: (← flowItems false fuel)

def flowPairs (first : Bool) : Nat → Compose (List (Node × Node))
  | 0 => refuse
  | fuel + 1 => do
    if ← isAt [.flowMappingEnd] then
      advance
      return []
    else
      if !first then
        if ← isAt [.flowEntry] then advance else refuse
      match ← peek with
      | .key =>
        advance
        let key ← if ← isAt [.value, .flowEntry, .flowMappingEnd] then emptyNode
          else node .flow fuel
        let value ← flowPairValue .flowMappingEnd fuel
        return (key, value) :: (← flowPairs false fuel)
      | .flowMappingEnd =>
        advance
        return []
      | _ =>
        let key ← node .flow fuel
        let value ← emptyNode
        return (key, value) :: (← flowPairs false fuel)

/-- The value after a key within brackets that `close` ends. -/
def flowPairValue (close : Token) : Nat → Compose Node
  | 0 => refuse
  | fuel + 1 => do
    match ← peek with
    | .value =>
      advance
      if ← isAt [.flowEntry, close] then emptyNode else node .flow fuel
    | _ => emptyNode
end

def standardHandles : List (String × String) := [("!", "!"), ("!!", tagLeader)]

/-- The directives before a document; `versioned` says whether the version came already. -/
def directives (versioned : Bool) (handles : List (String × String)) : Nat → Compose Unit
  | 0 => refuse
  | fuel + 1 => do
    match ← peek with
    | .versionDirective major =>
      if versioned || major ≠ 1 then refuse
      else
        advance
        directives true handles fuel
    | .tagDirective handle leader =>
      if (handles.lookup handle).isSome then refuse
      else
        advance
        directives versioned ((handle, leader) :: handles) fuel
    | .otherDirective =>
      advance
      directives versioned handles fuel
    | _ => modify fun s => { s with handles := handles ++ standardHandles }

def document (fuel : Nat) : Compose (Option Node) := do
  let root ← match ← peek with
    | .streamEnd => pure none
    | .versionDirective _ | .tagDirective .. | .otherDirective | .documentStart => do
      directives false [] fuel
      if ← isAt [.documentStart] then
        advance
        match ← peek with
        | .versionDirective _ | .tagDirective .. | .otherDirective | .documentStart
        | .documentEnd | .streamEnd => some <$> emptyNode
        | _ => some <$> node .block fuel
      else refuse
    | _ => some <$> node .block fuel
  modify fun s => { s with tokens := s.tokens.dropWhile (· == .documentEnd) }
  if ← isAt [.streamEnd] then return root else refuse

end Compose

def Node.ofTokens (tokens : List Token) : Except Fault (Option Node) :=
  let start : Composer := { tokens, handles := Compose.standardHandles, anchors := [], nextId := 0 }
  (·.1) <$> (Compose.document (3 * tokens.length + 4)).run start

end Transclude.Yaml
