import Transclude.Value.Yaml.Node

/-!
# Reading a YAML document

Of two entries with the same key the later one counts. Under the key `<<` a mapping takes over the entries of others,
before its own. A value that aliases stand for is marked as shared.
-/

namespace Transclude.Yaml

def isKey (v : Value) : Bool :=
  match v.bare with
  | .list _ | .set _ | .map _ => false
  | _ => true

def entriesOf (entries : List (Value × Value)) : List (Value × Value) → Except Fault (List (Value × Value))
  | [] => .ok entries
  | (k, v) :: rest =>
    if isKey k then entriesOf (Value.put entries k.plain v) rest else .error .malformed

/-- The text of a node that should be a scalar: a mapping stands for the value of its key `=`. -/
def Node.textOf? : Node → Option String
  | .scalar _ _ text => some text
  | .sequence .. => none
  | .mapping _ _ pairs => go pairs
where
  go : List (Node × Node) → Option String
    | [] => none
    | (key, value) :: rest => if key.tag = .value then value.textOf? else go rest

def mark (id : Nat) (v : Value) : Value :=
  match v with
  | .date _ | .moment _ | .list _ | .map _ | .set _ => .shared id v
  | _ => v

mutual
def Node.value : Node → Except Fault Value
  | .scalar id tag text => do return mark id (← tag.read text)
  | .sequence id tag items =>
    match tag with
    | .seq => do return mark id (.list (← itemValues items))
    | .orderedMap | .pairs => do return mark id (.list (← pairItems items))
    | _ => .error .malformed
  | .mapping id tag pairs =>
    match tag with
    | .map => do
      let (merged, own) ← pairValues pairs
      return mark id (.map (← entriesOf [] (merged ++ own)))
    | .set => do
      let (merged, own) ← pairValues pairs
      return mark id (.set ((← entriesOf [] (merged ++ own)).map (·.1)))
    | .seq | .orderedMap | .pairs => .error .malformed
    | tag =>
      match Node.textOf?.go pairs with
      | some text => do return mark id (← tag.read text)
      | none => .error .malformed

def itemValues : List Node → Except Fault (List Value)
  | [] => .ok []
  | n :: rest => do
    let v ← n.value
    return v :: (← itemValues rest)

def pairItems : List Node → Except Fault (List Value)
  | [] => .ok []
  | .mapping _ _ [(key, value)] :: rest => do
    let k ← key.value
    let v ← value.value
    return .pair k v :: (← pairItems rest)
  | _ :: _ => .error .malformed

def pairValues : List (Node × Node) → Except Fault (List (Value × Value) × List (Value × Value))
  | [] => .ok ([], [])
  | (key, value) :: rest =>
    if key.tag = .merge then do
      let taken ← mergedPairs value
      let (merged, own) ← pairValues rest
      return (taken ++ merged, own)
    else do
      let k ← if key.tag = .value then pure (.text ((key.textOf?).getD "")) else key.value
      let v ← value.value
      let (merged, own) ← pairValues rest
      return (merged, (k, v) :: own)

/-- The pairs that the value of `<<` contributes: those of a mapping, or of a list of mappings, the
last one first. -/
def mergedPairs : Node → Except Fault (List (Value × Value))
  | .mapping _ _ pairs => do
    let (merged, own) ← pairValues pairs
    return merged ++ own
  | .sequence _ _ items => mergedItems items
  | .scalar .. => .error .malformed

def mergedItems : List Node → Except Fault (List (Value × Value))
  | [] => .ok []
  | .mapping _ _ pairs :: rest => do
    let (merged, own) ← pairValues pairs
    let later ← mergedItems rest
    return later ++ merged ++ own
  | _ :: _ => .error .malformed
end

def Token.isAlias : Token → Bool
  | .alias _ => true
  | _ => false

def read (s : String) : Except Fault Value := do
  let tokens ← Token.scan s.toList
  match ← Node.ofTokens tokens with
  | none => return .null
  | some node =>
    let v ← node.value
    return if tokens.any Token.isAlias then v else v.plain

end Transclude.Yaml
