import Transclude.Value.Xml.Element

/-!
# XML documents as values

An element becomes a mapping: its attributes under `attributes`, its text under `value`, and its children under their
names, in grave accents if a name is one of these two words.
-/

namespace Transclude.Xml

def reservedKeys : List String := ["attributes", "value"]

def childKey (tag : String) : String :=
  if reservedKeys.contains tag then
    let mark := String.singleton (Char.ofNat 96)
    mark ++ tag ++ mark
  else tag

def addChild (groups : List (String × List Value)) (tag : String) (v : Value) : List (String × List Value) :=
  match groups with
  | [] => [(tag, [v])]
  | (t, vs) :: rest => if t == tag then (t, vs ++ [v]) :: rest else (t, vs) :: addChild rest tag v

def groupValue : List Value → Value
  | [v] => v
  | vs => .list vs

mutual
def Element.value : Element → Value
  | .node _ attributes text children =>
    let named := if attributes.isEmpty then []
      else [(Value.text "attributes", Value.map (attributes.map fun a => (.text a.1, .text a.2)))]
    let trimmed := Text.strip text
    let texted := if trimmed == "" then [] else [(Value.text "value", Value.text trimmed)]
    let groups := childGroups [] children
    .map (groups.foldl (fun es g => Value.put es (.text (childKey g.1)) (groupValue g.2))
      (named ++ texted))

def childGroups (groups : List (String × List Value)) : List Element → List (String × List Value)
  | [] => groups
  | e :: rest =>
    match e with
    | .node tag attributes text children =>
      childGroups (addChild groups tag (Element.value (.node tag attributes text children))) rest
end

def Element.tag : Element → String
  | .node tag _ _ _ => tag

def read (s : String) : Option Value :=
  (Element.read s).map fun root => .map [(.text root.tag, root.value)]

end Transclude.Xml
