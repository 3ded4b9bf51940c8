import Transclude.Proofs.Reopening
import Transclude.Proofs.Repeating

/-!
# Comparing agrees with writing

A session that is repeated with a request to compare finds all that it wrote up to date, unless it wrote what it
reads. The folders that are made on the way to an output may be listed with the inputs of the next session, and so
matter too.
-/

namespace Transclude

open List CommandLine

def Disk.Entry.bytes? : Disk.Entry → Option (List UInt8)
  | .folder => none
  | .file bytes => some bytes.data.toList

theorem Disk.Entry.bytes?_inj {e e' : Disk.Entry} : e.bytes? = e'.bytes? ↔ e = e' := by
  cases e <;> cases e' <;> simp [bytes?, ByteArray.ext_iff, Array.toList_inj]

instance : DecidableEq Disk.Entry := fun _ _ => decidable_of_iff _ Disk.Entry.bytes?_inj

def CommandLine.Request.writes (r : Request) : Bool :=
  (isGiven r.outputFile || isGiven r.outputFolder) && !r.verify && !r.dryRun

namespace Session

open Work

variable {d : Disk} {i : Invocation} {config : Config} {r : Registry} {s : Summary} {plans : List Node}

/-! ## What a session shows -/

theorem Renderer.infix_errorText {text : String} {log : List Output} (renderer : Renderer)
    (h : .err text ∈ log) : text.toList <:+: (renderer.errorText log).toList := by
  induction log generalizing renderer with
  | nil => cases h
  | cons o log ih =>
    rcases mem_cons.1 h with rfl | hlater
    · rw [Renderer.errorText, String.toList_append]
      exact infix_append' [] _ _
    · cases o with
      | out _ => exact ih renderer hlater
      | err line =>
        rw [Renderer.errorText, String.toList_append]
        exact (ih renderer hlater).trans (suffix_append _ _).isInfix
      | event e =>
        rw [Renderer.errorText, String.toList_append]
        exact (ih _ hlater).trans (suffix_append _ _).isInfix

theorem infix_stderr {line : String} (h : line ∈ (ending d i).2.verdicts) :
    line.toList <:+: (run d i).stderr.toList := by
  obtain ⟨renderer, hrun⟩ := run_eq d i
  rw [hrun]
  exact renderer.infix_errorText (Desk.err_mem_of_verdict h)

/-! ## Sessions that are repeated -/

def planned (d : Disk) (i : Invocation) : Except Crash (Config × List Node) :=
  (do
    let opened ← opening i
    return (opened.1, ← plansOf opened.1 opened.2.1) : Work (Config × List Node)).run (desk d i) |>.1

def written (d : Disk) (i : Invocation) (config : Config) : List String :=
  resolved d.folder (outputs config (ending d i).2)

/-- Whether a session reads nothing of what it leaves on the disk: it writes no source of its plans and no
configuration file, and puts nothing into the folder of its input. -/
@[mk_iff]
structure Isolated (d : Disk) (i : Invocation) (config : Config) (plans : List Node) : Prop where
  sources : ∀ root ∈ plans, ∀ m ∈ root.walk,
    (Path.resolve d.folder (.ofText m.directive.source)).text ∉ written d i config
  configuration : (Path.resolve d.folder (.ofText (configPath d.folder config))).text ∉ written d i config
  base : config.mode = .directory → ∀ e ∈ (run d i).disk.entries,
    (d.baseFolder config.input).parts <+: e.1 → e ∈ d.entries
  paths : ∀ path ∈ written d i config, path.utf8ByteSize ≤ Disk.maxPath
  names : ∀ name ∈ (Path.ofText (configPath d.folder config)).parts, name.utf8ByteSize ≤ Disk.maxName

instance : Decidable (Isolated d i config plans) := decidable_of_iff' _ (isolated_iff d i config plans)

/-- Whether a session that compares reports each written file as up to date and nothing else, ends with the code 0 and
leaves the disk as it is. -/
structure Confirms (d : Disk) (i : Invocation) (written : List String) : Prop where
  verdicts : (ending d i).2.verdicts = written.map freshLine
  shown : ∀ path ∈ written, (freshLine path).toList <:+: (run d i).stderr.toList
  exit : (run d i).exit = .ok 0
  disk : (run d i).disk = d

theorem exists_filter_of_isGiven {path : Option String} (h : isGiven path = true) :
    ∃ given, path.filter (· != "") = some given := by
  cases path with
  | none => cases h
  | some given => exact ⟨given, Option.filter_eq_some_iff.2 ⟨rfl, h⟩⟩

theorem outputs_after_complete (config : Config) (done : Desk) (s : Summary) :
    outputs config (done.after (.sessionComplete s)) = outputs config done := by
  rw [outputs, outputs, Desk.completed_after_of_none rfl]

theorem conclusion_ok {s' : Summary} {x y : Desk} (h : (processInput config r s).run x = (.ok s', y))
    (herrors : s'.errors = 0) (hstale : s'.stale = 0) :
    (conclusion config r s).run x = (.ok (), y.after (.sessionComplete s')) := by
  rw [conclusion, run_bind_of_ok h, herrors, hstale, if_neg (by simp)]
  rfl

namespace Opens

variable {request : CommandLine.Request} {asked : Config} {loaded done z : Desk} {cache : Cache}
  (h : Opens d i request asked config r loaded cache) (hd : d.Tidy)
  (hinit : config.initPath = none) (hlist : config.listPlugins = false)
  (hout : (isGiven request.outputFile || isGiven request.outputFolder) = true)
  (hver : request.verify = false) (hdry : request.dryRun = false)

include h in
theorem at_start : loaded.completed = [] ∧ loaded.verdicts = [] := by
  constructor
  · exact Desk.completed_congr ((leaves_loadPlugins i.entries).milestones.view_eq h.loads)
  · exact Desk.verdicts_congr (h.loaded_eq.2.2.trans rfl) (d := desk d i)

include h hd hinit hlist hout hver hdry in
theorem repeats (hs : .event (.sessionComplete s) ∈ (ending d i).2.log)
    (hplan : (plansOf config r).run { loaded with cache, acceptAll := config.acceptAll } = (.ok plans, z))
    (hplans : ∀ root ∈ plans, root.failures = []) (hiso : Isolated d i config plans) :
    Repeats config { target := targetLabel d.folder config } { loaded with cache, acceptAll := config.acceptAll }
      (ending d i).2 (processInput { config with verify := true } r { target := targetLabel d.folder config }) ∧
    (isGiven request.outputFile = true →
      isFolderInput (run d i).disk request.input = isFolderInput d request.input) ∧
    (isGiven request.outputFolder = true →
      ∃ folder, isFolderInput (run d i).disk request.input = .ok folder) := by
  obtain ⟨rfl, hcache, -⟩ := h.loaded_eq
  obtain ⟨done, hprocess, hend⟩ := h.processInput_ok hinit hlist hs
  obtain ⟨folder, hinput, hclash, hruns⟩ := h.settled hinit hlist
  have hdirectory (hmode : config.mode = .directory) :=
    CommandLine.Request.settle_directory hclash hout (hruns.mode.symm.trans hmode)
  have hdone : (run loaded.disk i).disk = done.disk := by
    rw [run_disk, hend]
    rfl
  have houts : outputs config (ending loaded.disk i).2 = outputs config done := by
    rw [hend]
    exact outputs_after_complete config done s
  have hdir (hmode : config.mode = .directory) : ∃ folder, config.outputFolder.filter (· != "") = some folder := by
    rw [hruns.outputFolder]
    exact exists_filter_of_isGiven (hdirectory hmode).2.1
  have hapart (root : Node) (hroot : root ∈ plans) : Apart loaded.disk.folder (outputs config done) root :=
    ⟨hplans root hroot, houts ▸ hiso.sources root hroot⟩
  obtain ⟨hsearched, hdirs, hrep⟩ :=
    processInput_repeats (x := { loaded with cache, acceptAll := config.acceptAll }) hd hcache h.at_start.1
      (hruns.verify.trans hver) (hruns.dryRun.trans hdry) hdir hprocess hplan hapart (hdone ▸ hiso.base)
      (houts ▸ hiso.paths)
  have hsame (hmode : config.mode ≠ .directory) :
      isFolderInput done.disk request.input = isFolderInput loaded.disk request.input :=
    isFolderInput_of_folders hrep.extended.folder (hdirs hmode) _
  rw [hdone]
  refine ⟨⟨?_, ?_⟩, fun hfile => hsame fun hmode => ?_, fun _ => ?_⟩
  · rw [houts, hend]
    exact hrep.extended
  · rw [houts, hend]
    exact hrep.passes
  · rw [(hdirectory hmode).1] at hfile
    cases hfile
  · by_cases hmode : config.mode = .directory
    · rcases hsearched hmode with hdisk | hsearched
      · exact ⟨folder, by rw [hdisk]; exact hinput⟩
      · refine isFolderInput_of_extends hrep.extended fun s hs _ => ?_
        rw [(hdirectory hmode).2.2] at hs
        rw [← Option.some.inj hs, ← hruns.input]
        exact hsearched
    · exact ⟨folder, (hsame hmode).trans hinput⟩

include h hd hinit hlist hout hdry in
theorem confirms (hiso : Isolated d i config plans)
    (hrep : Repeats config { target := targetLabel d.folder config }
      { loaded with cache, acceptAll := config.acceptAll } (ending d i).2
      (processInput { config with verify := true } r { target := targetLabel d.folder config }))
    (hfile : isGiven request.outputFile = true →
      isFolderInput (run d i).disk request.input = isFolderInput d request.input)
    (hdir : isGiven request.outputFolder = true →
      ∃ folder, isFolderInput (run d i).disk request.input = .ok folder) :
    Confirms (run d i).disk i.verifying (written d i config) := by
  obtain ⟨rfl, -, -⟩ := h.loaded_eq
  obtain ⟨hext, s₂, y, hrun, hpass⟩ := hrep
  rw [← run_disk] at hext hrun hpass
  have hagain := h.verifying hd hext hinit hlist hdry hout hfile hdir
    (unwritten_of_ne hiso.configuration) hiso.names
  have hend : ending (run loaded.disk i).disk i.verifying = (.ok (), y.after (.sessionComplete s₂)) := by
    rw [hagain.ending_eq hinit hlist, hext.folder]
    exact conclusion_ok hrun hpass.errors hpass.stale
  have hverd : (ending (run loaded.disk i).disk i.verifying).2.verdicts =
      (written loaded.disk i config).map freshLine := by
    rw [hend, Desk.verdicts_after, hpass.verdicts]
    exact congrArg (· ++ _) h.at_start.2
  refine ⟨hverd, fun path hpath => infix_stderr ?_, ?_, ?_⟩
  · rw [hverd]
    exact mem_map_of_mem hpath
  · rw [run_exit, hend]
    rfl
  · rw [run_disk, hend]
    exact hpass.disk

end Opens

namespace Documents

def disk (text : String) : Disk where
  folder := { root := "/", parts := ["p"] }
  entries := [(["p"], .folder), (["p", "b.md"], .file "B\n".toUTF8), (["p", "docs"], .folder),
    (["p", "docs", "a.md"], .file text.toUTF8)]

def embedding : String := "A\n```yaml embedm\ntype: file\nsource: ../b.md\n```\n"

theorem tidy_embedding : (disk embedding).Tidy where
  canonical := ⟨rfl, by simp only [Path.IsName]; decide, by decide⟩
  reached := by
    rw [Disk.Reached]
    decide
  isFolder := rfl
  names := by
    simp only [Path.IsName]
    decide
  rooted := by
    simp only [Disk.Reached]
    decide
  nodup := by decide

def into (folder : String) : Invocation := { words := ["docs", "-d", folder] }

def detour : Invocation := into "docs/x.md/../../out"

end Documents

open Documents

end Session

end Transclude
