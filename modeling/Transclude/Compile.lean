import Transclude.Digest.Synopsis
import Transclude.Outline
import Transclude.Plan.Making
import Transclude.Table.View

/-!
# Compiling plans

A document is compiled by putting a text in the place of each directive. The kinds of directives take turns, and the
plugin of a kind sees the document as the earlier turns left it.
-/

namespace Transclude.Compile

structure Setting where
  registry : Registry
  maxEmbed : Amount
  sequence : List String := []
  compiledDir : String := ""
  settings : List (Value × Value) := []
  progress : Option (String × Nat) := none

/-! ## What stands for a directive -/

def tableView (options : Options) : Except Crash Table.View := do
  let filter ← match Embed.given? options "filter" with
    | some s => (Json.read s).mapError fun fault => match fault with
      | .integer digits => Crash.longInteger digits
      | fault => Crash.json fault
    | none => .ok (.map [])
  return {
    select := options.textOr "select" "", orderBy := options.textOr "order_by" ""
    limit := options.intOr "limit" (-1), offset := options.intOr "offset" 0, filter
    dateFormat := options.textOr "date_format" "", nullText := options.textOr "null_string" ""
    maxCell := options.intOr "max_cell_length" 0 }

def digestRequest (options : Options) : Digest.Request where
  maxSentences := options.intOr "max_sentences" 3
  language := options.textOr "language" "en"
  sections := options.intOr "sections" 0

def digestText (d : Directive) (parent : List Fragment) : Work String := do
  if d.source.isEmpty then
    return String.join (parent.map fun f => match f with
      | .text s => s
      | _ => "")
  else return ((← Work.readFile d.source).1).getD ""

def contents (options : Options) (place : Nat) (parent : List Fragment) : String :=
  if parent.isEmpty then ""
  else
    let start := options.intOr "start_fragment" (-1)
    Outline.render (if start = -1 then place else start) (options.intOr "max_depth" 5)
      (options.isOn "add_slugs") parent

def dataText : Option Data → String
  | some (.text s) => s
  | _ => "None"

/-- What a plugin writes for a directive, with the compiled document of its source and the document it stands in. -/
def transform (s : Setting) (p : Plugin) (d : Directive) (place : Nat) (data : Option Data)
    (compiled : Option (Work String)) (parent : List Fragment) : Work String := do
  match p.behaviour, compiled with
  | .embed, some text =>
    let own := match (Value.get? s.settings p.module).map Value.bare with
      | some (.map own) => own
      | _ => []
    let content ← text
    Work.lift (Embed.finish (← get).disk.folder s.compiledDir (.ofSettings own) d content)
  | .query, some _ =>
    match data with
    | some (.answer a) => Work.lift a.render
    | _ => return ""
  | .table, some _ =>
    let rows := match data with
      | some (.rows rows) => rows
      | _ => []
    Work.lift (do (← tableView d.options).render rows)
  | .embed, none => return ""
  | .query, none => return ""
  | .table, none => return ""
  | .greeting, _ => return "hello embedded world!"
  | .synopsis, _ =>
    let text ← digestText d parent
    let algorithm := d.options.textOr "algorithm" "frequency"
    Work.lift (Digest.synopsis (digestRequest d.options) algorithm text.toList)
  | .recollection, _ =>
    let text ← digestText d parent
    let question := d.options.textOr "query" ""
    Work.lift (Digest.recollection (digestRequest d.options) question.toList text.toList)
  | .contents, _ => return contents d.options place parent
  | .custom answers, _ =>
    return String.ofList
      (Text.replaceAll "\x7bdata\x7d".toList (dataText data).toList answers.output.toList)

/-! ## Documents -/

def tooLong (limit : Amount) : String :=
  s!"embedded content exceeds max_embed_size ({limit.text} bytes)."

def advance (s : Setting) : Work Unit := do
  match s.progress with
  | none => return
  | some (path, total) =>
    modify fun d => { d with compiled := d.compiled + 1 }
    Work.emit (.nodeCompiled path (← get).compiled total (.zero false))

def limited (s : Setting) (made : Work String) : Work String := do
  let text ← made
  advance s
  if s.maxEmbed.value > 0 && (text.length : Int) > s.maxEmbed.value then
    return Embed.errorNote [tooLong s.maxEmbed]
  else return text

abbrev Action := Plugin → List Fragment → Work String

def standIn (s : Setting) (actions : List (Nat × Action)) (parent : List Fragment) (place : Nat)
    (d : Directive) : Work String := do
  match s.registry.find? d.kind with
  | none => return Embed.errorNote [Plan.noPlugin d.kind]
  | some p =>
    match actions.lookup place with
    | some act => act p parent
    | none =>
      if d.source.isEmpty then limited s (transform s p d place none none parent)
      else return Embed.errorNote [s!"source '{d.source}' could not be processed"]

def turn (s : Setting) (actions : List (Nat × Action)) (parent : List Fragment) (kind : Option String)
    (place : Nat) : List Fragment → Work (List Fragment)
  | [] => return []
  | .directive d :: rest => do
    let f ← if kind.all (· == d.kind) then Fragment.text <$> standIn s actions parent place d
      else pure (.directive d)
    return f :: (← turn s actions parent kind (place + 1) rest)
  | f :: rest => return f :: (← turn s actions parent kind (place + 1) rest)

def turns (s : Setting) (actions : List (Nat × Action)) (fragments : List Fragment) : Work (List Fragment) :=
  if s.sequence.isEmpty then turn s actions fragments none 0 fragments
  else s.sequence.foldlM (fun fs kind => turn s actions fs (some kind) 0 fs) fragments

def withTexts (content : List Char) (fragments : List Fragment) : List Fragment :=
  fragments.map fun f => match f with
    | .span x => .text (String.ofList (x.of content))
    | f => f

def joinTexts (fragments : List Fragment) : String :=
  String.join (fragments.map fun f => match f with
    | .text s => s
    | _ => "")

def compileDocument (s : Setting) (actions : List (Nat × Action)) (source : String)
    (fragments : List Fragment) : Work String := do
  match ← Work.readFile source with
  | (some content, []) =>
    return joinTexts (← turns s actions (withTexts content.toList fragments))
  | _ => throw (.broken "source file should be cached after planning")

/-! ## Plans -/

mutual
def compileNode (s : Setting) : Node → Action
  | ⟨d, place, _, document, children, data⟩ =>
    let actions := compileAll s children
    let compiled := document.map (compileDocument s actions d.source)
    fun p parent => transform s p d place data compiled parent

def compileAll (s : Setting) : List Node → List (Nat × Action)
  | [] => []
  | n :: rest =>
    let action := compileNode s n
    let errors := n.status.filter (·.isFailure)
    let guarded : Action := fun p parent =>
      if n.document.isNone && !errors.isEmpty then pure (Embed.errorNote (errors.map (·.text)))
      else limited s (action p parent)
    (n.place, guarded) :: compileAll s rest
end

def settingOf (config : Config) (registry : Registry) (compiledDir : String) (root : Node) : Setting where
  registry
  maxEmbed := config.maxEmbed
  sequence := registry.sequence config.sequence
  compiledDir
  settings := config.settings
  progress := some (root.directive.source, root.count)

def presentErrors (errors : List Status) : Work Unit := do
  for e in errors do
    Work.errorLine s!"error: {e.text}"

def showErrors (config : Config) (errors : List Status) : Work Unit := do
  if config.verbosity ≥ 2 || !(← get).acceptAll then presentErrors errors

def goesOn (errors : List Status) : Work Bool := do
  if errors.any (·.level == .fatal) then return false
  else if (← get).acceptAll then return true
  else
    match ← Work.ask with
    | .exit => throw (.exit 1)
    | .no => return false
    | .yes => return true
    | .always =>
      modify fun d => { d with acceptAll := true }
      return true

/-- The compiled text of a plan. If the plan has errors, they are shown and the user is asked whether to go on. -/
def compilePlan (config : Config) (registry : Registry) (compiledDir : String) (root : Node) : Work String := do
  if root.document.isNone then
    showErrors config root.status
    return ""
  let errors := root.failures
  if !errors.isEmpty then
    showErrors config errors
    if !(← goesOn errors) then return ""
  match registry.find? root.directive.kind with
  | none => return ""
  | some p =>
    modify fun d => { d with compiled := 0 }
    compileNode (settingOf config registry compiledDir root) root p []

end Transclude.Compile
