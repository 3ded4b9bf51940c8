import Transclude.Crash
import Transclude.Status
import Transclude.Directive.Basic
import Transclude.Directive.Block
import Transclude.Value.Yaml.Reader

/-!
# Reading directives

The text of a block is a YAML mapping with the kind, the source and the options of a directive. An option is a text: a
list or a mapping is written as JSON, everything else by its shown form.
-/

namespace Transclude

inductive Refusal where
  | empty
  | malformed (detail : String)
  | notMapping
  | untyped
  | unclosed
deriving Repr, BEq, DecidableEq

def Refusal.message : Refusal → String
  | .empty => "empty embedm block"
  | .malformed detail => s!"invalid YAML in embedm block: {detail}"
  | .notMapping => "embedm block must contain YAML key-value pairs"
  | .untyped => "embedm block is missing required 'type' field"
  | .unclosed => "unclosed embedm block"

def Refusal.status (r : Refusal) : Status :=
  .error r.message

namespace Directive

def optionText (v : Value) : Except Crash String :=
  if v.isCollection then (Json.write v).mapError .unwritable else .ok v.asText

def readOptions (options : Options) : List (Value × Value) → Except Crash Options
  | [] => .ok options
  | (k, v) :: rest =>
    if k == .text "type" || k == .text "source" then readOptions options rest
    else do
      let text ← optionText v
      readOptions (options.put k.asText text) rest

def resolveSource (cwd : Path) (baseDir source : String) : Except Crash String :=
  if source != "" && baseDir != "" && !(Path.ofText source).isAbsolute then
    let p := (Path.ofText baseDir).join (Path.ofText source)
    if Path.hasNull p.text then .error .nullInPath else .ok (Path.resolve cwd p).text
  else .ok source

def read (cwd : Path) (baseDir : String) (raw : List Char) : Except Crash (Except Refusal Directive) :=
  if Text.allBlank raw then .ok (.error .empty)
  else
    match Yaml.read (String.ofList raw) with
    | .error .malformed => .ok (.error (.malformed syntaxDetail))
    | .error fault => .error (.yaml fault)
    | .ok v =>
      match v.plain with
      | .map entries =>
        match Value.get? entries "type" with
        | none => .ok (.error .untyped)
        | some kind => do
          let source := ((Value.get? entries "source").map Value.asText).getD ""
          let source ← resolveSource cwd baseDir source
          let options ← readOptions [] entries
          return .ok { kind := kind.asText, source, options, baseDir }
      | _ => .ok (.error .notMapping)

end Directive

namespace Fragment

/-- The fragments of a document from its blocks on; `position` is where the text before them begins. -/
def ofBlocks (cwd : Path) (baseDir : String) (position stop : Nat) :
    List Block → Except Crash (List Fragment × List Refusal)
  | [] => .ok (spanTo position stop, [])
  | b :: rest => do
    let made ← Directive.read cwd baseDir b.raw
    let (fragments, refusals) ← ofBlocks cwd baseDir b.stop stop rest
    let before := spanTo position b.start
    match made with
    | .ok d => return (before ++ .directive d :: fragments, refusals)
    | .error r => return (before ++ fragments, r :: refusals)
where
  spanTo (start stop : Nat) : List Fragment :=
    if start < stop then [.span { start, length := stop - start }] else []

def ofText (cwd : Path) (baseDir : String) (cs : List Char) : Except Crash (List Fragment × List Refusal) := do
  let scan := Block.all cs
  let (fragments, refusals) ← ofBlocks cwd baseDir 0 (scan.stop cs) scan.blocks
  return (fragments, (if scan.unclosed.isSome then [.unclosed] else []) ++ refusals)

end Fragment

end Transclude
