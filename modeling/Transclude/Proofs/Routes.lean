import Transclude.Proofs.Folders
import Transclude.Proofs.Repeating
import Transclude.Proofs.Reopening

/-!
# Three ways to one output

Only a document that is given by its name and with a file for the result is written. With a folder for the result the
name is taken for a folder too, and the text of the standard input cannot be read again when it is compiled
(`only_direct_route_writes`).
-/

namespace Transclude

open CommandLine Target Bool

namespace Disk

variable {d : Disk} {input : String}

theorem expand_of_isFile (hfile : d.isFile (Path.ofText input).text = true) (hplain : '*' ∉ input.toList) :
    d.expand input documentPattern = .ok [] := by
  have hdir : d.isFolder (Path.ofText input).text = false := by
    rw [Bool.eq_false_iff]
    intro hdir
    obtain ⟨place, bytes, hplace, hentry⟩ := isFile_iff.1 hfile
    obtain ⟨place', hplace', hentry'⟩ := isFolder_iff.1 hdir
    rw [hplace] at hplace'
    cases hplace'
    rw [isFolderAt_iff, hentry] at hentry'
    cases hentry'
  have hwild : input.toList.contains '*' = false := by simpa using hplain
  rw [expand, hwild, if_neg Bool.false_ne_true, listAll, hdir]
  rfl

def withResult (d : Disk) (file lineEndings : String) : Except Crash (Except String String) → Disk
  | .ok (.ok text) => if text = "" then d else (d.writeText file (endLines lineEndings text)).toOption.getD d
  | .ok (.error _) => d
  | .error _ => d

end Disk

/-! ## Documents that cannot be read again -/

namespace Compile

open Work

variable {base : Desk} {trusted : String → Prop} {logged : Prop} {done done' : List Output} {config : Config}
  {r : Registry} {root : Node} {s : Setting}

theorem even_compileDocument_unread {actions : List (Nat × Action)} {source : String} (hsrc : trusted source)
    (hreads : ∀ text, base.reads source ≠ .ok (some text, [])) (fs : List Fragment) :
    Even (Desk.Matched base trusted trusted logged done done') (fun _ => False) (fun _ => True) (compileDocument s actions source fs) := by
  refine even_bind ((even_readFile hsrc hsrc).imp (fun _ h => h) fun _ _ => trivial) fun found hfound => ?_
  split
  · exact absurd hfound (hreads _)
  · exact even_throw trivial

theorem even_compileNode_unread {p : Plugin} (hp : p.behaviour = .embed) (hsrc : trusted root.directive.source)
    (hreads : ∀ text, base.reads root.directive.source ≠ .ok (some text, [])) (parent : List Fragment) :
    Even (Desk.Matched base trusted trusted logged done done') (· = "") (fun _ => True) (compileNode s root p parent) := by
  obtain ⟨d, place, status, document, children, data⟩ := root
  rw [compileNode]
  cases document with
  | none =>
    dsimp only [Option.map_none]
    rw [transform.eq_def, hp]
    exact even_pure rfl
  | some fs =>
    dsimp only [Option.map_some]
    rw [transform.eq_def, hp]
    exact even_bind (even_compileDocument_unread hsrc hreads fs) fun _ h => h.elim

theorem even_compilePlan_unread (hkind : Session.Embedding r root.directive.kind)
    (hsrc : trusted root.directive.source)
    (hreads : ∀ text, base.reads root.directive.source ≠ .ok (some text, [])) (compiledDir : String) :
    Even (Desk.Matched base trusted trusted logged done done') (· = "") (fun _ => True) (compilePlan config r compiledDir root) :=
  even_compilePlan_of_node (advances_matched fun _ _ => trivial) rfl fun p hp =>
    even_compileNode_unread (hkind p hp) hsrc hreads _

end Compile

namespace Session

open Work Plan

variable {d : Disk} {i : Invocation} {config : Config} {r : Registry} {x : Desk} {s : Summary}

/-! ## Single inputs -/

def compiledSingle (config : Config) (r : Registry) (plan : Work Node) : Work (Except String String) := do
  let root ← plan
  let cwd := (← get).disk.folder
  Work.emit (.fileStarted root.directive.source root.count 0 1)
  compileSafely config r (folderOfFile cwd config.outputFile) root

theorem processSingle_disk {plan : Work Node} {output : String} (hleaves : Leaves Desk.standing plan)
    (hver : config.verify = false) (hdry : config.dryRun = false)
    (hout : config.outputFile.filter (· != "") = some output) (s : Summary) (x : Desk) :
    ((plan >>= fun root => processSingle config r root s).run x).2.disk =
      x.disk.withResult output config.lineEndings ((compiledSingle config r plan).run x).1 := by
  rw [compiledSingle]
  rcases hplan : plan.run x with ⟨c | root, z⟩
  · rw [run_bind_of_error hplan, run_bind_of_error hplan]
    exact congrArg Prod.fst (hleaves.view_eq hplan)
  have hz : z.disk = x.disk := congrArg Prod.fst (hleaves.view_eq hplan)
  rw [run_bind_of_ok hplan, run_bind_of_ok hplan, processSingle_eq, run_bind_of_ok (run_get z),
    run_bind_of_ok (run_get z), run_bind_of_ok (run_emit ..), run_bind_of_ok (run_emit ..)]
  rcases hcomp : (compileSafely config r (folderOfFile z.disk.folder config.outputFile) root).run
      (z.after (.fileStarted root.directive.source root.count 0 1)) with ⟨c | result, y⟩
  · rw [run_bind_of_error hcomp]
    exact (congrArg Prod.fst ((quiet_compileSafely ..).leaves.view_eq hcomp)).trans hz
  have hy : y.disk = x.disk := (congrArg Prod.fst ((quiet_compileSafely ..).leaves.view_eq hcomp)).trans hz
  rw [run_bind_of_ok hcomp]
  cases result with
  | error message => exact hy
  | ok text =>
    rw [handSingle, Disk.withResult]
    simp only [hver, hout, Bool.false_and]
    split_ifs with hempty htext htext
    · exact hy
    · exact absurd (eq_of_beq hempty) htext
    · exact absurd (beq_iff_eq.2 htext) hempty
    · have hwrite : (writeResult config text).run y = _ := congrArg (·.run y) (writeResult_eq hdry hout)
      rw [← hy]
      cases hdisk : y.disk.writeText output (endLines config.lineEndings text) with
      | error fault =>
        have hfails : (writeFile output (endLines config.lineEndings text)).run y = (.error (.disk fault), y) := by
          rw [writeFile, run_bind_of_ok (run_get y), hdisk]
          rfl
        rw [run_bind_of_error (hwrite.trans hfails)]
        rfl
      | ok written =>
        have hwrites : (writeFile output (endLines config.lineEndings text)).run y =
            (.ok (), { y with disk := written }) := by
          rw [writeFile, run_bind_of_ok (run_get y), hdisk]
          rfl
        rw [run_bind_of_ok (hwrite.trans hwrites)]
        rfl

/-! ## Texts -/

def stdinPath (cwd : Path) : Path := cwd.join { root := "", parts := ["<stdin>"] }

theorem reads_ne_of_isFile {path : String} (h : x.disk.isFile path = false) (text : String) :
    x.reads path ≠ .ok (some text, []) := by
  intro hreads
  have hfile := (Cache.refusal?_eq_none_iff.1
    (Cache.objections_eq_nil_iff.1 (Cache.direct_eq_text_iff.1 hreads).1).2).2.1
  rw [h] at hfile
  cases hfile

theorem compiledSingle_text (hkind : Embedding r config.rootKind) (hx : x.cache.Faithful x.disk)
    (hstdin : x.disk.isFile (stdinPath x.disk.folder).text = false) (content : String) {text : String}
    (h : ((compiledSingle config r (planText config r content)).run x).1 = .ok (.ok text)) : text = "" := by
  have hserves : Desk.Serves x (fun _ => True) x := Desk.serves_of_disk_eq rfl ⟨rfl, rfl⟩ hx
  obtain ⟨z, h⟩ : ∃ z, (compiledSingle config r (planText config r content)).run x = (.ok (.ok text), z) :=
    ⟨_, Prod.ext h rfl⟩
  obtain ⟨root, y, hplan, h⟩ := bind_ok h
  rw [run_bind_of_ok (run_get y), run_bind_of_ok (run_emit ..)] at h
  obtain ⟨-, compiled, hcomp, hres⟩ := compileSafely_ok h
  have hroot : root.directive = ⟨config.rootKind, (stdinPath x.disk.folder).text, [], ""⟩ :=
    (rooted_of_plan_ok (.text content) hplan).directive_eq
  have hafter : Desk.Serves x (fun _ => True) (y.after (.fileStarted root.directive.source root.count 0 1)) := by
    have hleft := Even.serves hserves (even_plan config r (.text content) answers_matched
      (fun _ _ => ⟨trivial, trivial⟩) fun _ _ _ => ⟨trivial, trivial⟩) hplan
    exact hleft.congr rfl ⟨rfl, rfl⟩ hleft.faithful
  have hunread : ∀ text, x.reads root.directive.source ≠ .ok (some text, []) := by
    rw [hroot]
    exact reads_ne_of_isFile hstdin
  have heven {done done' : List Output} : Even (Desk.Matched x (fun _ => True) (fun _ => True) False done done') (· = "") (fun _ => True)
      (Compile.compilePlan config r (folderOfFile y.disk.folder config.outputFile) root) :=
    Compile.even_compilePlan_unread (by rwa [hroot]) trivial hunread _
  have houtcome := (heven _ _ ⟨hafter.alike_self, rfl, rfl⟩).outcome
  rw [hcomp] at houtcome
  cases compiled with
  | error c => cases hres
  | ok made =>
    cases hres
    exact houtcome

/-! ## The three sessions -/

theorem disk_of_conclusion (config : Config) (r : Registry) (s : Summary) (x : Desk) :
    ((conclusion config r s).run x).2.disk = ((processInput config r s).run x).2.disk := by
  rw [conclusion]
  rcases hrun : (processInput config r s).run x with ⟨c | found, y⟩
  · rw [run_bind_of_error hrun]
  · rw [run_bind_of_ok hrun]
    split <;> rfl

section

variable {request : CommandLine.Request}

theorem special_of_configure {terminal : Bool} {stdin : String} {errors : List Status}
    (h : request.configure d terminal stdin = .ok (config, errors)) (hinit : request.init = none) :
    config.initPath = none ∧ (request.listPlugins = false → config.listPlugins = false) := by
  rw [CommandLine.Request.configure, hinit] at h
  dsimp only at h
  split_ifs at h with hlist
  · cases h
    exact ⟨rfl, fun hfalse => absurd hlist (by simp [hfalse])⟩
  · obtain ⟨folder, -, h⟩ := Except.of_bind_eq_ok h
    split_ifs at h <;> cases h <;> exact ⟨rfl, fun _ => rfl⟩

theorem disk_or_opens (hreq : CommandLine.request i.words = .ok request) (hinit : request.init = none) :
    (run d i).disk = d ∨ ∃ asked config r loaded cache, Opens d i request asked config r loaded cache ∧
      config.initPath = none ∧ config.listPlugins = false := by
  rw [run_disk]
  rcases standing_or_opens d i with hstand | ⟨asked, folder, hread, hdir, -⟩ |
    ⟨request', asked, config, r, loaded, cache, hopens, hspec⟩
  · exact .inl (congrArg Prod.fst hstand)
  · obtain ⟨-, request', given, hreq', hconf, rfl⟩ := readCommand_ok hread
    obtain rfl : request' = request := Except.ok.inj (hreq'.symm.trans hreq)
    rw [(special_of_configure hconf hinit).1] at hdir
    cases hdir
  · obtain rfl : request' = request := Except.ok.inj (hopens.asks.symm.trans hreq)
    exact .inr ⟨asked, config, r, loaded, cache, hopens, hspec⟩

theorem opens_of_opening (h : (opening i).run (desk d i) = (.ok (config, r, s), x)) :
    ∃ request asked loaded cache, Opens d i request asked config r loaded cache ∧
      x = { loaded with cache, acceptAll := config.acceptAll } := by
  obtain ⟨asked, d₁, hread, h⟩ := bind_ok h
  obtain ⟨rfl, request, -, hreq, -, -⟩ := readCommand_ok hread
  obtain ⟨config', d₁, hdone, h⟩ := bind_ok h
  obtain ⟨rfl, -⟩ := completeConfig_ok hdone
  rw [run_bind_of_ok (run_get _)] at h
  rw [run_bind_of_ok (run_emit ..)] at h
  obtain ⟨r', loaded, hloads, h⟩ := bind_ok h
  obtain ⟨cache, hcache, h⟩ := bind_lift_ok h
  cases h
  exact ⟨request, asked, loaded, cache, ⟨hreq, hread, hdone, hloads, hcache⟩, rfl⟩

theorem settle_of_input (folder : Bool) (stdin : String) {name : String} (hinput : request.input = some name) (hne : name ≠ "") :
    (request.settle folder stdin).input = name ∧ (request.settle folder stdin).mode =
      if isGiven request.outputFolder || folder then .directory else .file := by
  rw [CommandLine.Request.settle, hinput]
  split
  rename_i hset
  split at hset
  · rename_i h
    cases h
  · rename_i h
    cases h
    exact absurd rfl hne
  · rename_i h
    cases h
    cases hset
    exact ⟨rfl, rfl⟩

structure NamesFile (d : Disk) (name : String) : Prop where
  given : name ≠ ""
  plain : '*' ∉ name.toList
  isFile : d.isFile (Path.ofText name).text = true

namespace Opens

variable {asked : Config} {loaded : Desk} {cache : Cache} {name file : String}
  (h : Opens d i request asked config r loaded cache)
  (hinit : config.initPath = none) (hlist : config.listPlugins = false)
include h hinit hlist

theorem disk_eq : (run d i).disk = ((processInput config r { target := targetLabel d.folder config }).run
    { loaded with cache, acceptAll := config.acceptAll }).2.disk := by
  rw [run_disk, h.ending_eq hinit hlist, disk_of_conclusion]

theorem disk_of_folder (hinput : request.input = some name) (hname : NamesFile d name)
    (hdir : isGiven request.outputFolder = true) : (run d i).disk = d := by
  obtain ⟨rfl, -, -⟩ := h.loaded_eq
  obtain ⟨folder, -, -, hruns⟩ := h.settled hinit hlist
  obtain ⟨hset, hmode⟩ := settle_of_input folder i.stdin hinput hname.given
  rw [hdir] at hmode
  have hexpand : loaded.disk.expand config.input Disk.documentPattern = .ok [] := by
    rw [hruns.input, hset]
    exact Disk.expand_of_isFile hname.isFile hname.plain
  rw [h.disk_eq hinit hlist, processInput_of_folder config (hruns.mode.trans hmode),
    processFolder_of_empty (x := { loaded with cache, acceptAll := config.acceptAll }) config hexpand]

theorem disk_of_file (hinput : request.input = some name) (hne : name ≠ "") (hout : request.outputFile = some file)
    (hfile : file ≠ "") (hver : request.verify = false) (hdry : request.dryRun = false) :
    (run d i).disk = d.withResult file config.lineEndings ((compiledSingle config r (planFile config r name)).run
        { loaded with cache, acceptAll := config.acceptAll }).1 := by
  obtain ⟨rfl, -, -⟩ := h.loaded_eq
  obtain ⟨folder, -, hclash, hruns⟩ := h.settled hinit hlist
  have hgiven : isGiven request.outputFile = true := by simp [isGiven, hout, hfile]
  obtain ⟨hset, hmode⟩ := settle_of_input folder i.stdin hinput hne
  simp only [CommandLine.Request.conflicts, List.append_eq_nil_iff, conflictIf_eq_nil, hgiven,
    Bool.true_and] at hclash
  obtain ⟨⟨⟨⟨⟨htwo, rfl⟩, -⟩, -⟩, -⟩, -⟩ := hclash
  rw [htwo] at hmode
  rw [h.disk_eq hinit hlist, processInput_of_file config (hruns.mode.trans hmode), hruns.input, hset]
  refine processSingle_disk (quiet_plan (.file name)).leaves (hruns.verify.trans hver) (hruns.dryRun.trans hdry) ?_ _ _
  rw [hruns.outputFile]
  simp [CommandLine.Request.settle, hout, hfile]

theorem disk_of_text (hinput : request.input = none) (hout : request.outputFile = some file) (hfile : file ≠ "")
    (hver : request.verify = false) (hdry : request.dryRun = false)
    (hstdin : d.isFile (stdinPath d.folder).text = false) (hkind : Embedding r config.rootKind) :
    (run d i).disk = d := by
  obtain ⟨rfl, hcache, -⟩ := h.loaded_eq
  obtain ⟨folder, -, -, hruns⟩ := h.settled hinit hlist
  have hmode : config.mode = .stdin := by rw [hruns.mode, CommandLine.Request.settle, hinput]
  have hout : config.outputFile.filter (· != "") = some file := by
    rw [hruns.outputFile]
    simp [CommandLine.Request.settle, hout, hfile]
  have hleaves : Leaves Desk.standing (planText config r config.input) := (quiet_plan (.text config.input)).leaves
  rw [h.disk_eq hinit hlist, processInput_of_text config hmode,
    processSingle_disk hleaves (hruns.verify.trans hver) (hruns.dryRun.trans hdry) hout]
  rcases hres : ((compiledSingle config r (planText config r config.input)).run
      { loaded with cache, acceptAll := config.acceptAll }).1 with c | message | text
  · rfl
  · rfl
  · have hfaith : cache.Faithful loaded.disk := Cache.faithful_of_entries_eq_nil hcache
    rw [compiledSingle_text (x := { loaded with cache, acceptAll := config.acceptAll }) hkind hfaith hstdin _ hres]
    rfl

end Opens

end

/-- The session that names a document and a file for the result writes what it compiles it to; the one that names a
folder for the result and the one that has the document on the standard input write nothing. -/
theorem only_direct_route_writes (request : CommandLine.Request) {name file folder : String}
    {direct below piped : Invocation} (hinit : request.init = none) (hlist : request.listPlugins = false)
    (hver : request.verify = false) (hdry : request.dryRun = false) (hname : NamesFile d name)
    (hfile : file ≠ "") (hdir : folder ≠ "")
    (hdirect : CommandLine.request direct.words =
      .ok { request with input := some name, outputFile := some file, outputFolder := none })
    (hbelow : CommandLine.request below.words =
      .ok { request with input := some name, outputFile := none, outputFolder := some folder })
    (hpiped : CommandLine.request piped.words =
      .ok { request with input := none, outputFile := some file, outputFolder := none })
    (hstdin : d.isFile (stdinPath d.folder).text = false)
    (hkind : ∀ config r s x, (opening piped).run (desk d piped) = (.ok (config, r, s), x) →
      Embedding r config.rootKind) :
    (∀ config r s x, (opening direct).run (desk d direct) = (.ok (config, r, s), x) →
      (run d direct).disk = d.withResult file config.lineEndings
        ((compiledSingle config r (planFile config r name)).run x).1) ∧
    (run d below).disk = d ∧ (run d piped).disk = d := by
  refine ⟨fun config r s x hopening => ?_, ?_, ?_⟩
  · obtain ⟨request', asked, loaded, cache, hopens, rfl⟩ := opens_of_opening hopening
    obtain ⟨-, _, given, hreq, hconf, rfl⟩ := readCommand_ok hopens.reads
    obtain rfl := Except.ok.inj (hdirect.symm.trans hreq)
    obtain rfl := Except.ok.inj (hdirect.symm.trans hopens.asks)
    obtain ⟨hinit', hlist'⟩ := special_of_configure hconf hinit
    have hspec : config.initPath = none ∧ config.listPlugins = false := by
      obtain rfl | ⟨file, path, rfl⟩ := hopens.config_eq <;> exact ⟨hinit', hlist' hlist⟩
    exact hopens.disk_of_file hspec.1 hspec.2 rfl hname.given rfl hfile hver hdry
  · rcases disk_or_opens (d := d) hbelow hinit with hdisk | ⟨asked, config, r, loaded, cache, hopens, hinit', hlist'⟩
    · exact hdisk
    · exact hopens.disk_of_folder hinit' hlist' rfl hname (by simp [CommandLine.isGiven, hdir])
  · rcases disk_or_opens (d := d) hpiped hinit with hdisk | ⟨asked, config, r, loaded, cache, hopens, hinit', hlist'⟩
    · exact hdisk
    · exact hopens.disk_of_text hinit' hlist' rfl rfl hfile hver hdry hstdin (hkind _ _ _ _ hopens.opening_eq)

/-!
### Three sessions on one document

The document is in the folder of the sessions, with a folder for the results beside it.
-/

namespace Trial

def disk : Disk where
  folder := { root := "/", parts := ["p"] }
  entries := [(["p"], .folder), (["p", "name.md"], .file "A\n".toUTF8), (["p", "out"], .folder)]

def direct : Invocation := { words := ["name.md", "-o", "out/name.md"] }

def below : Invocation := { words := ["name.md", "-d", "out"] }

def piped : Invocation := { words := ["-o", "out/name.md"], stdin := "A\n" }

deriving instance DecidableEq for CommandLine.Request

def isEmbed (p : Plugin) : Bool :=
  match p.behaviour with
  | .embed => true
  | _ => false

def embeds (i : Invocation) : Bool :=
  match (opening i).run (desk disk i) with
  | (.ok (config, r, _), _) => (r.find? config.rootKind).all isEmbed
  | (.error _, _) => true

theorem embedding_of_embeds (h : embeds i = true) (hrun : (opening i).run (desk disk i) = (.ok (config, r, s), x)) : Embedding r config.rootKind := by
  intro p hp
  rw [embeds, hrun] at h
  simp only [hp, Option.all_some] at h
  rw [isEmbed] at h
  split at h
  · assumption
  · cases h

end Trial

open Trial

theorem trial_routes : NamesFile disk "name.md" ∧
    (∀ config r s x, (opening direct).run (desk disk direct) = (.ok (config, r, s), x) →
      (run disk direct).disk = disk.withResult "out/name.md" config.lineEndings
        ((compiledSingle config r (planFile config r "name.md")).run x).1) ∧
    (run disk below).disk = disk ∧ (run disk piped).disk = disk := by
  have hname : NamesFile disk "name.md" := ⟨by decide, by decide, by decide⟩
  have hdir : "out" ≠ "" := by decide
  refine ⟨hname, only_direct_route_writes {} rfl rfl rfl rfl hname (by decide) hdir
    (by decide +kernel) (by decide +kernel) (by decide +kernel) (by decide +kernel) fun config r s x hrun => ?_⟩
  exact embedding_of_embeds (by decide +kernel) hrun

/-- The document is written by the first session only. -/
theorem trial_routes_disagree : (run disk direct).disk.isFile "/p/out/name.md" = true ∧
    (run disk below).disk.isFile "/p/out/name.md" = false ∧
    (run disk piped).disk.isFile "/p/out/name.md" = false := by
  decide +kernel

end Session

end Transclude
