import Transclude.Plugin.Basic

/-!
# Plans

A plan is a tree with a node for each directive, which holds the document of its source. A node knows the place of its
directive in the document above, so that two equal directives are told apart.
-/

namespace Transclude

structure Node where
  directive : Directive
  place : Nat := 0
  status : List Status := []
  document : Option (List Fragment) := none
  children : List Node := []
  data : Option Data := none
deriving Repr

namespace Node

def failed (d : Directive) (place : Nat) (errors : List Status) : Node :=
  { directive := d, place, status := errors }

/-! ## Walking -/

mutual
def walk : Node → List Node
  | ⟨d, place, status, document, children, data⟩ =>
    ⟨d, place, status, document, children, data⟩ :: walkAll children

def walkAll : List Node → List Node
  | [] => []
  | n :: rest => walk n ++ walkAll rest
end

mutual
def count : Node → Nat
  | ⟨_, _, _, _, children, _⟩ => 1 + countAll children

def countAll : List Node → Nat
  | [] => 0
  | n :: rest => count n + countAll rest
end

def failures (root : Node) : List Status :=
  root.walk.flatMap fun n => n.status.filter (·.isFailure)

def hasLevel (root : Node) (level : Level) : Bool :=
  root.walk.any fun n => n.status.any (·.level == level)

def hasFailure (root : Node) : Bool :=
  !root.failures.isEmpty

def firstFailure (root : Node) : String :=
  match root.failures with
  | s :: _ => s.text
  | [] => "plan error"

def embedded (cwd : Path) (kind : String) (root : Node) : Except Crash (List String) :=
  let found := (root.walk.flatMap (·.children)).filter fun c =>
    !c.directive.source.isEmpty && c.directive.kind == kind
  found.mapM fun c => return (← Path.follow cwd c.directive.source).text

/-! ## Showing -/

def worst (status : List Status) : String :=
  if status.any (·.level == .fatal) then "FATAL"
  else if status.any (·.level == .error) then "ERROR"
  else if status.any (·.level == .warning) then "WARN"
  else "OK"

mutual
def outline (depth : Nat) : Node → List String
  | ⟨d, _, status, _, children, _⟩ =>
    let indent := String.ofList (List.replicate (2 * depth) ' ')
    let source := if d.source.isEmpty then "" else ": " ++ d.source
    let label := if depth = 0 then d.source else d.kind ++ source
    let notes := status.filter (·.level != .ok)
    (s!"{indent}[{worst status}] {label}" :: notes.map fun s => s!"{indent}  -> {s.text}") ++
      outlineAll (depth + 1) children

def outlineAll (depth : Nat) : List Node → List String
  | [] => []
  | n :: rest => outline depth n ++ outlineAll depth rest
end

end Node

end Transclude
