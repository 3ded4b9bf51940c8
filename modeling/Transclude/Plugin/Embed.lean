import Transclude.Crash
import Transclude.Directive.Options
import Transclude.Source.LineRange
import Transclude.Source.Region
import Transclude.Source.Symbol

/-!
# Embedding a file

Of an embedded file a region, a range of lines or a symbol is taken, comments are removed, and the rest is put under a
header and, unless it is Markdown, into a fence.
-/

namespace Transclude.Embed

open Transclude.Text

inductive Problem where
  | noSource
  | exclusive
  | badRange (range : String)
  | noSymbols (extension : String)
  | noRegion (region source : String)
  | noSymbol (symbol source : String)
deriving Repr, DecidableEq

def Problem.message : Problem → String
  | .noSource => "'file' directive requires a source"
  | .exclusive => "only one of 'region', 'lines', or 'symbol' may be specified."
  | .badRange range => s!"invalid 'lines' value '{range}'. Expected: 10, 5..10, 10.., or ..10."
  | .noSymbols ext => s!"symbol extraction is not supported for '{ext}' files."
  | .noRegion region source => s!"region '{region}' not found in '{source}'."
  | .noSymbol symbol source => s!"symbol '{symbol}' not found in '{source}'."

def noComments (ext : String) : String :=
  s!"'filter_comments' has no effect for '{ext}' files (language not supported)."

def errorNote (messages : List String) : String :=
  "\n".intercalate ("> [!CAUTION]" :: messages.map fun m => s!"> **embedm:** {m}") ++ "\n"

def extensionOf (source : String) : String :=
  (Path.ofText source).extension

def given? (options : Options) (name : String) : Option String :=
  (options.get? name).filter (· != "")

/-! ## Checking -/

def parts : List String := ["region", "lines", "symbol"]

def check (d : Directive) : List Status :=
  if d.source.isEmpty then [.error Problem.noSource.message]
  else
    let ext := extensionOf d.source
    let known := (Language.ofFile? d.source).isSome
    let exclusive := if (parts.filter fun k => (given? d.options k).isSome).length > 1
      then [Status.error Problem.exclusive.message] else []
    let range := match d.options.get? "lines" with
      | some r => if LineRange.isValid r.toList then [] else [Status.error (Problem.badRange r).message]
      | none => []
    let symbol := if (given? d.options "symbol").isSome && !known
      then [Status.error (Problem.noSymbols ext).message] else []
    let comments := if d.options.isOn "filter_comments" && !known
      then [Status.warning (noComments ext)] else []
    exclusive ++ range ++ symbol ++ comments

/-! ## Taking a part -/

structure Markers where
  start : Value := .text Region.defaultStart
  stop : Value := .text Region.defaultEnd
deriving Repr

def markerText (v : Value) : Except Crash String :=
  match v.bare with
  | .text s => .ok s
  | v => .error (.noAttribute v.kind "split")

def Markers.ofSettings (settings : List (Value × Value)) : Markers where
  start := (Value.get? settings "region_start").getD (.text Region.defaultStart)
  stop := (Value.get? settings "region_end").getD (.text Region.defaultEnd)

def joined (lines : List (List Char)) : String :=
  String.ofList (joinWith ['\n'] lines)

def part (markers : Markers) (d : Directive) (content : String) : Except Crash (Except Problem String) := do
  let cs := content.toList
  match given? d.options "region", given? d.options "lines", given? d.options "symbol" with
  | some region, _, _ =>
    match Region.extract (← markerText markers.start) (← markerText markers.stop) region cs with
    | some lines => return .ok (joined lines)
    | none => return .error (.noRegion region d.source)
  | none, some range, _ =>
    match LineRange.extract cs range.toList with
    | .ok (some lines) => return .ok (joined lines)
    | .ok none => return .error (.badRange range)
    | .error (.tooLong digits) => .error (.longInteger digits)
    | .error .malformed => return .error (.badRange range)
  | none, none, some symbol =>
    match Language.ofFile? d.source with
    | none => return .error (.noSymbols (extensionOf d.source))
    | some language =>
      match Symbol.extract language symbol.toList cs with
      | some lines => return .ok (joined lines)
      | none => return .error (.noSymbol symbol d.source)
  | none, none, none => return .ok content

def withoutComments (d : Directive) (content : String) : String :=
  if d.options.isOn "filter_comments" then
    match Language.ofFile? d.source with
    | some language => String.ofList (removeComments language.comments content.toList)
    | none => content
  else content

/-! ## Putting it in place -/

def linkTarget (cwd : Path) (source compiledDir : String) : String :=
  let p := Path.ofText source
  if compiledDir.isEmpty then p.name
  else
    (Path.relativeFrom (Path.resolve cwd (.ofText compiledDir)) (Path.resolve cwd p)).text

def header (cwd : Path) (compiledDir : String) (d : Directive) : String :=
  let title := match given? d.options "title" with
    | some t => [s!"**\"{t}\"**"]
    | none => []
  let range := match given? d.options "lines" with
    | some r => if d.options.isOn "show_line_range" then [s!"(lines {r})"] else []
    | none => []
  let link := if d.options.isOn "show_link" then
      [s!"[link {(Path.ofText d.source).name}]({linkTarget cwd d.source compiledDir})"]
    else []
  match title ++ range ++ link with
  | [] => ""
  | parts => "> " ++ " ".intercalate parts ++ "\n"

def isMarkdown (source : String) : Bool :=
  [".md", ".markdown"].contains (lower (extensionOf source))

def inFence (source content : String) : String :=
  let fence := String.ofList (List.replicate 3 (Char.ofNat 96))
  let ext := String.ofList ((extensionOf source).toList.dropWhile (· == '.'))
  let name := if ext.isEmpty then "text" else ext
  fence ++ name ++ "\n" ++ stripEnd content ++ "\n" ++ fence

def finish (cwd : Path) (compiledDir : String) (markers : Markers) (d : Directive) (content : String) :
    Except Crash String := do
  match ← part markers d content with
  | .error problem => return errorNote [problem.message]
  | .ok content =>
    let content := withoutComments d content
    let top := header cwd compiledDir d
    return top ++ (if isMarkdown d.source then content else inFence d.source content)

end Transclude.Embed
