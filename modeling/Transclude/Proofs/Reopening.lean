import Transclude.Proofs.Ancestry
import Transclude.Proofs.Exits
import Transclude.Proofs.Listing
import Transclude.Proofs.Replays

/-!
# Opening a session again

A session reads its words, completes its configuration and loads its plugins before it looks at its input. When
it is repeated on a disk that holds more, and with a request to compare, all this comes to the same as long as
the configuration file was not written.
-/

namespace Transclude

open List CommandLine Config Disk Path Request Bool Except

/-! ## Folders on two disks -/

namespace Disk

variable {d d' : Disk} {s : String} {place : List String}

def lenient {α : Type} : Except Fault α → Except Fault (Option α)
  | .ok a => .ok (some a)
  | .error (.tooLong path) => .error (.tooLong path)
  | .error _ => .ok none

theorem probe_eq (d : Disk) (s : String) : d.probe s = (lenient (d.locate s)).map (·.bind d.entry?) := by
  rw [probe]
  cases d.locate s with
  | ok place => rfl
  | error fault => cases fault <;> rfl

theorem lenient_foldlM {names : List String} (h : ∀ q, d'.isFolderAt q = d.isFolderAt q) :
    lenient (names.foldlM (d'.step s) place) = lenient (names.foldlM (d.step s) place) := by
  induction names generalizing place with
  | nil => rfl
  | cons name names ih =>
    rw [foldlM_cons, foldlM_cons]
    by_cases hdir : d.isFolderAt place = true
    · have hentry := (isFolderAt_iff.1 ((h place).trans hdir)).trans (isFolderAt_iff.1 hdir).symm
      rw [step_congr hentry]
      cases d.step s place name with
      | error fault => rfl
      | ok next => exact ih
    · -- a name after a file or after nothing is refused, but not as too long
      have hrefused (e : Disk) (he : ¬ e.isFolderAt place = true) :
          lenient (e.step s place name >>= fun next => names.foldlM (e.step s) next) = .ok none := by
        rw [isFolderAt_iff] at he
        rw [step]
        split
        · rfl
        · rfl
        · exact absurd (by assumption) he
      rw [hrefused d hdir, hrefused d' (by rwa [h])]

theorem probe_of_folders (hdir : d'.folder = d.folder) (h : ∀ q, d'.isFolderAt q = d.isFolderAt q) (s : String) :
    (∃ fault, d'.probe s = .error fault ∧ d.probe s = .error fault) ∨
      ∃ found found', d'.probe s = .ok found' ∧ d.probe s = .ok found ∧
        (found' = some .folder ↔ found = some .folder) := by
  have hloc : lenient (d'.locate s) = lenient (d.locate s) := by
    rw [locate_eq_ite, locate_eq_ite, hdir]
    split_ifs
    · rfl
    · rfl
    · exact lenient_foldlM h
  rw [probe_eq, probe_eq, hloc]
  rcases lenient (d.locate s) with fault | _ | place
  · exact .inl ⟨fault, rfl, rfl⟩
  · exact .inr ⟨none, none, rfl, rfl, Iff.rfl⟩
  · refine .inr ⟨d.entry? place, d'.entry? place, rfl, rfl, ?_⟩
    rw [← isFolderAt_iff, ← isFolderAt_iff, h]

theorem isFile_iff_probe : d.isFile s = true ↔ ∃ bytes, d.probe s = .ok (some (.file bytes)) := by
  rw [isFile_iff, probe_eq]
  cases d.locate s with
  | ok place => simp [lenient, Except.map]
  | error fault => cases fault <;> simp [lenient, Except.map]

theorem foldlM_step_short {names : List String} (hshort : ∀ name ∈ names, name.utf8ByteSize ≤ maxName) :
    ∃ found, lenient (names.foldlM (d.step s) place) = .ok found := by
  induction names generalizing place with
  | nil => exact ⟨some place, rfl⟩
  | cons name names ih =>
    rw [forall_mem_cons] at hshort
    rw [foldlM_cons, step]
    split
    · exact ⟨none, rfl⟩
    · exact ⟨none, rfl⟩
    · rw [if_neg (Nat.not_lt.2 hshort.1)]
      split_ifs <;> exact ih hshort.2

theorem Grounded.probe_text {p : Path} (hd : d.Grounded) (hp : p.Clean)
    (hshort : ∀ name ∈ p.parts, name.utf8ByteSize ≤ maxName) (hsize : p.text.utf8ByteSize ≤ maxPath) :
    ∃ found, d.probe p.text = .ok found := by
  rw [probe_eq, locate_text (hd.at_origin p).2 hp, if_neg (Nat.not_lt.2 hsize)]
  have hfold : ∃ found, lenient (p.parts.foldlM (d.step p.text) (origin d.folder p)) = .ok found :=
    foldlM_step_short hshort
  obtain ⟨found, hfound⟩ := hfold
  rw [hfound]
  exact ⟨_, rfl⟩

theorem utf8ByteSize_le_of_probe {found : Option Entry} (h : d.probe s = .ok found) (hs : s.isEmpty = false) :
    s.utf8ByteSize ≤ maxPath := by
  by_contra hsize
  rw [probe, locate_eq_ite, if_neg (by simp [hs]), if_pos (Nat.lt_of_not_le hsize)] at h
  cases h

end Disk

/-! ## Asking to compare -/

namespace CommandLine

open Arguments

def verifyWord : String := "--verify"

def verifySwitch : Switch Key := { key := .verify, names := ["--verify"] }

theorem classify_verify (words : List String) :
    spec.classify (verifyWord :: words) = (spec.classify words).map (.switch verifySwitch false none :: ·) := by
  have hclassify : spec.classify (verifyWord :: words) = (do
      let word ← spec.wordOf verifyWord
      return word :: (← spec.classify words)) := rfl
  rw [hclassify]
  cases spec.classify words <;> rfl

theorem read_verify (free : Bool) (rest : List (Word Key)) : spec.read free (.switch verifySwitch false none :: rest) =
      (spec.read free rest).map fun found => (.switch .verify none :: found.1, found.2) := by
  rw [Spec.read]
  cases rest with
  | nil => rfl
  | cons word rest => cases word <;> rfl

theorem parse_verify (words : List String) :
    spec.parse (verifyWord :: words) = (spec.parse words).map (.switch .verify none :: ·) := by
  rw [Spec.parse, Spec.parse, classify_verify]
  cases spec.classify words with
  | error r => rfl
  | ok classified =>
    simp only [Except.map, Except.mapError, ok_bind, read_verify]
    cases spec.read true classified with
    | error stop => rfl
    | ok found =>
      simp only [ok_bind]
      split_ifs <;> rfl

theorem foldl_add_verify (items : List (Item Key)) (r : Request) :
    items.foldl add { r with verify := true } = { items.foldl add r with verify := true } := by
  induction items generalizing r with
  | nil => rfl
  | cons item items ih =>
    have hadd : add { r with verify := true } item = { r.add item with verify := true } := by
      cases item with
      | operand value => rfl
      | switch key value => cases key <;> rfl
    rw [foldl_cons, foldl_cons, hadd, ih]

theorem request_verify {words : List String} {r : Request} (h : request words = .ok r) :
    request (verifyWord :: words) = .ok { r with verify := true } := by
  rw [request] at h ⊢
  obtain ⟨items, hitems, h⟩ := of_bind_eq_ok h
  rw [parse_verify, hitems]
  obtain rfl := Except.ok.inj h
  exact congrArg Except.ok (foldl_add_verify items {})

theorem isFolderInput_of_folders {d d' : Disk} (hdir : d'.folder = d.folder)
    (h : ∀ q, d'.isFolderAt q = d.isFolderAt q) (input : Option String) :
    isFolderInput d' input = isFolderInput d input := by
  unfold isFolderInput
  split
  · rfl
  · rfl
  · rename_i s hs
    split_ifs
    · rfl
    · rcases probe_of_folders hdir h (ofText s).text with
        ⟨fault, hprobe', hprobe⟩ | ⟨found, found', hprobe', hprobe, hsame⟩
      · rw [hprobe, hprobe']
      · rw [hprobe, hprobe']
        rcases found with _ | _ | bytes <;> rcases found' with _ | _ | bytes' <;> simp at hsame <;> rfl

theorem isFolderInput_of_extends {d d' : Disk} {written : List (List String)} (h : Disk.Extends written d d')
    {input : Option String} (hinput : ∀ s, input = some s → s ≠ "" → d.isFolder (searched s).text = true) :
    ∃ folder, isFolderInput d' input = .ok folder := by
  unfold isFolderInput
  split
  · exact ⟨_, rfl⟩
  · exact ⟨_, rfl⟩
  · rename_i s hs
    split_ifs with hwild
    · exact ⟨_, rfl⟩
    · obtain ⟨place, hloc, -⟩ := isFolder_iff.1 (hinput s rfl (by rintro rfl; exact hs rfl))
      rw [searched, if_neg hwild] at hloc
      rw [probe, h.locate hloc]
      dsimp only [Except.mapError]
      rw [ok_bind]
      split <;> exact ⟨_, rfl⟩

def Request.settle (r : Request) (folder : Bool) (stdin : String) : Config :=
  let (mode, input) := match r.input with
    | none => (InputMode.stdin, stdin)
    | some "" => (InputMode.stdin, stdin)
    | some path => (if isGiven r.outputFolder || folder then .directory else .file, path)
  { mode, input, outputFile := r.outputFile, outputFolder := r.outputFolder, configFile := r.config,
    acceptAll := r.acceptAll, dryRun := r.dryRun, verify := r.verify, verbosity := r.verbosity.getD 2,
    noColor := r.noColor }

variable {r : Request} {d d' : Disk} {terminal folder : Bool} {stdin : String} {config : Config}

theorem Request.configure_ok (h : r.configure d terminal stdin = .ok (config, []))
    (hinit : config.initPath = none) (hlist : config.listPlugins = false) :
    r.init = none ∧ r.listPlugins = false ∧ ∃ folder, isFolderInput d r.input = .ok folder ∧
      r.conflicts folder terminal = [] ∧ config = r.settle folder stdin := by
  rw [configure] at h
  cases hreq : r.init with
  | some path =>
    rw [hreq] at h
    cases h
    cases hinit
  | none =>
    rw [hreq] at h
    split_ifs at h with hplugins
    · cases h
      cases hlist
    · obtain ⟨folder, hdir, h⟩ := of_bind_eq_ok h
      refine ⟨rfl, by simpa using hplugins, folder, hdir, ?_⟩
      by_cases hclash : (r.conflicts folder terminal).isEmpty = true
      · rw [if_neg (by simp [hclash])] at h
        exact ⟨isEmpty_iff.1 hclash, (congrArg Prod.fst (Except.ok.inj h)).symm⟩
      · rw [if_pos (by simpa using hclash)] at h
        have hstatus := congrArg Prod.snd (Except.ok.inj h)
        simp only [map_eq_nil_iff] at hstatus
        simp [hstatus] at hclash

theorem Request.configure_eq (hinit : r.init = none) (hlist : r.listPlugins = false)
    (hdir : isFolderInput d r.input = .ok folder) (hclash : r.conflicts folder terminal = []) :
    r.configure d terminal stdin = .ok (r.settle folder stdin, []) := by
  rw [configure, hinit, hlist, hdir]
  rw [Except.ok_bind, hclash]
  rfl

theorem conflictIf_eq_nil {c : Conflict} {holds : Bool} : conflictIf c holds = [] ↔ holds = false := by
  cases holds <;> simp [conflictIf]

theorem Request.conflicts_verify {folder' : Bool} (h : r.conflicts folder terminal = []) (hdry : r.dryRun = false)
    (hout : (isGiven r.outputFile || isGiven r.outputFolder) = true)
    (hsame : isGiven r.outputFile = true → folder' = folder) :
    conflicts { r with verify := true } folder' terminal = [] := by
  simp only [conflicts, append_eq_nil_iff, conflictIf_eq_nil] at h ⊢
  obtain ⟨⟨⟨⟨⟨htwo, hfile⟩, hverb⟩, -⟩, -⟩, hinput⟩ := h
  refine ⟨⟨⟨⟨⟨htwo, ?_⟩, hverb⟩, by simp [hdry]⟩, ?_⟩, hinput⟩
  · cases hgiven : isGiven r.outputFile with
    | false => rfl
    | true => rw [hsame hgiven, ← hfile, hgiven]
  · cases hgiven : isGiven r.outputFile <;> simp [hgiven] at hout ⊢
    exact hout

/-- A request with an output that is settled for the files of a folder has them for its input, and a folder for its
outputs. -/
theorem Request.settle_directory (h : r.conflicts folder terminal = [])
    (hout : (isGiven r.outputFile || isGiven r.outputFolder) = true)
    (hmode : (r.settle folder stdin).mode = .directory) :
    isGiven r.outputFile = false ∧ isGiven r.outputFolder = true ∧ r.input = some (r.settle folder stdin).input := by
  simp only [conflicts, append_eq_nil_iff, conflictIf_eq_nil] at h
  obtain ⟨⟨⟨⟨⟨htwo, hfile⟩, -⟩, -⟩, -⟩, -⟩ := h
  rw [settle] at hmode ⊢
  split at hmode
  rename_i hset
  obtain rfl := hmode
  split at hset
  · cases hset
  · cases hset
  · rename_i path _ hinput
    obtain ⟨hdir, rfl⟩ := Prod.mk.inj hset
    split_ifs at hdir with hgiven
    cases hfile' : isGiven r.outputFile with
    | true =>
      rw [hfile', Bool.true_and] at htwo hfile
      rw [htwo, hfile] at hgiven
      cases hgiven
    | false =>
      rw [hfile'] at hout
      exact ⟨rfl, hout, hinput⟩

theorem Request.configure_verify (h : r.configure d terminal stdin = .ok (config, []))
    (hinit : config.initPath = none) (hlist : config.listPlugins = false) (hdry : r.dryRun = false)
    (hout : (isGiven r.outputFile || isGiven r.outputFolder) = true)
    (hfile : isGiven r.outputFile = true → isFolderInput d' r.input = isFolderInput d r.input)
    (hdir : isGiven r.outputFolder = true → ∃ folder, isFolderInput d' r.input = .ok folder) :
    configure { r with verify := true } d' terminal stdin = .ok ({ config with verify := true }, []) := by
  obtain ⟨hreq, hplugins, folder, hisFolder, hclash, rfl⟩ := configure_ok h hinit hlist
  cases hgiven : isGiven r.outputFile with
  | true =>
    have hsame := (hfile hgiven).trans hisFolder
    have hnone := conflicts_verify hclash hdry hout fun _ => rfl
    rw [configure_eq (r := { r with verify := true }) hreq hplugins hsame hnone]
    rfl
  | false =>
    rw [hgiven, Bool.false_or] at hout
    obtain ⟨folder', hisFolder'⟩ := hdir hout
    have hnone : conflicts { r with verify := true } folder' terminal = [] :=
      conflicts_verify hclash hdry (by simp [hout]) (by simp [hgiven])
    rw [configure_eq (r := { r with verify := true }) hreq hplugins hisFolder' hnone]
    have hsettle : settle { r with verify := true } folder' stdin =
        { r.settle folder stdin with verify := true } := by
      simp only [settle, hout, Bool.true_or]
    rw [hsettle]

end CommandLine

namespace Session

open Work

variable {i : Invocation} {d d' : Disk} {config asked : Config} {r : Registry} {s : Summary} {opened desk' : Desk}
  {written : List (List String)} {path input : String}

/-! ## Loading does not look at the disk -/

def OnDisk (disk : Disk) (x x' : Desk) : Prop := x' = { x with disk := disk } ∧ x.deliveries = []

theorem even_report_onDisk {o : Output} (h : o.isDelivery = false) :
    Even (OnDisk d) (fun _ => True) (fun _ => True) (report o) := by
  refine even_modify ?_
  rintro x x' ⟨rfl, hnone⟩
  exact ⟨rfl, (filter_cons_of_neg (by simp [h])).trans hnone⟩

theorem even_presentErrors_onDisk (errors : List Status) :
    Even (OnDisk d) (fun _ => True) (fun _ => True) (Compile.presentErrors errors) :=
  even_bind (even_forIn (fun _ => even_report_onDisk (Compile.isDelivery_error _)) errors) fun _ _ => even_pure trivial

theorem even_loadPlugins_onDisk (config : Config) (entries : List Entry) :
    Even (OnDisk d) (fun _ => True) (fun _ => True) (loadPlugins config entries) := by
  refine even_bind_lift (fun found _ => even_bind (P := fun _ => True) ?_ fun _ _ => ?_) fun _ _ => trivial
  · rw [presentLoadErrors]
    split_ifs
    · exact even_presentErrors_onDisk _
    · exact even_bind (even_presentErrors_onDisk _) fun _ _ => even_throw trivial
  · exact even_bind (even_report_onDisk rfl) fun _ _ => even_pure trivial

/-! ## Opening -/

def Invocation.verifying (i : Invocation) : Invocation := { i with words := verifyWord :: i.words }

def opening (i : Invocation) : Work (Config × Registry × Summary) := do
  let asked ← readCommand i
  let config ← completeConfig asked
  let label := targetLabel (← get).disk.folder config
  let source := (config.configFile.filter (· != "")).getD "DEFAULT"
  Work.emit (.sessionStarted version source config.mode.name label)
  let registry ← loadPlugins config i.entries
  let cache ← Work.lift (cacheOf config)
  modify fun d => { d with cache, acceptAll := config.acceptAll }
  return (config, registry, { target := label })

theorem run_readCommand {request : CommandLine.Request} {desk : Desk}
    (hreq : CommandLine.request i.words = .ok request)
    (hconf : request.configure desk.disk i.stdinTerminal i.stdin = .ok (config, [])) :
    (readCommand i).run desk = (.ok { config with verbosity := min config.verbosity 2 }, desk) := by
  rw [readCommand, hreq]
  rw [run_bind_of_ok (run_get desk), hconf]
  rfl

/-! ## The configuration file -/

def lookupPath (cwd : Path) (input : String) : Path :=
  (resolve cwd (.ofText input)).parent.join (.ofText fileName)

def configPath (cwd : Path) (config : Config) : String :=
  match config.configFile.filter (· != "") with
  | some path => path
  | none => (lookupPath cwd config.input).text

theorem canonical_lookupPath {cwd : Path} (hcwd : cwd.Canonical) (input : String) :
    (lookupPath cwd input).Canonical := by
  refine (hcwd.resolve (clean_ofText input)).parent.join rfl (clean_ofText _).names ?_
  decide

theorem discover_ok {path : Option String} (h : discover d input = .ok path) :
    hasNull input = false ∧ ∃ found, d.probe (lookupPath d.folder input).text = .ok found := by
  rw [discover] at h
  split_ifs at h with hnull
  · cases h
  · obtain ⟨found, hprobe, -⟩ := of_bind_eq_ok h
    exact ⟨by simpa using hnull, found, of_mapError_eq_ok hprobe⟩

theorem discover_eq {found : Option Disk.Entry} (hnull : hasNull input = false)
    (hprobe : d.probe (lookupPath d.folder input).text = .ok found) : discover d input =
      .ok (if d.isFile (lookupPath d.folder input).text then some (lookupPath d.folder input).text else none) := by
  have hfile : d.isFile (lookupPath d.folder input).text = true ↔ ∃ bytes, found = some (.file bytes) := by
    rw [isFile_iff_probe, hprobe]
    simp
  rw [discover, hnull, ← lookupPath]
  dsimp only
  rw [hprobe]
  rcases found with _ | _ | bytes
  · rw [if_neg (mt hfile.1 (by simp))]
    rfl
  · rw [if_neg (mt hfile.1 (by simp))]
    rfl
  · rw [if_pos (hfile.2 ⟨bytes, rfl⟩)]
    rfl

theorem soughtFile_ok (h : soughtFile d asked = .ok (some path)) : path = configPath d.folder asked ∧ path ≠ "" := by
  rw [soughtFile] at h
  rw [configPath]
  cases hgiven : asked.configFile.filter (· != "") with
  | some given =>
    rw [hgiven] at h
    cases h
    exact ⟨rfl, by simpa using (Option.filter_eq_some_iff.1 hgiven).2⟩
  | none =>
    rw [hgiven] at h
    obtain ⟨hnull, found, hprobe⟩ := discover_ok h
    rw [discover_eq hnull hprobe] at h
    split_ifs at h <;> cases h
    exact ⟨rfl, by simpa using text_ne_empty _⟩

theorem configPath_merge {file : Config} (cwd : Path) (h : path ≠ "") :
    configPath cwd (asked.merge file path) = path := by
  have hfilt : (some path).filter (· != "") = some path := by simp [h]
  have hfile : (asked.merge file path).configFile = some path := rfl
  rw [configPath, hfile, hfilt]

/-- A configuration file is found alike on a disk that holds more, if it was not written and none of the names of
its path is too long. -/
theorem soughtFile_extends {path : Option String} (hd : d.Tidy) (hext : Disk.Extends written d d')
    (hplace : (resolve d.folder (.ofText (configPath d.folder asked))).parts ∉ written)
    (hshort : ∀ name ∈ (ofText (configPath d.folder asked)).parts, name.utf8ByteSize ≤ maxName)
    (h : soughtFile d asked = .ok path) : soughtFile d' asked = .ok path := by
  rw [soughtFile] at h ⊢
  rw [configPath] at hplace hshort
  cases hgiven : asked.configFile.filter (· != "") with
  | some given => rwa [hgiven] at h
  | none =>
    rw [hgiven] at h hplace hshort
    have hcanon := canonical_lookupPath hd.canonical asked.input
    rw [ofText_text hcanon.clean] at hplace hshort
    rw [hcanon.resolve_eq] at hplace
    obtain ⟨hnull, found, hprobe⟩ := discover_ok h
    obtain ⟨found', hprobe'⟩ := (hext.grounded hd.toGrounded).probe_text hcanon.clean hshort
      (utf8ByteSize_le_of_probe hprobe (text_ne_empty _))
    rw [← hext.folder] at hprobe'
    rw [discover_eq hnull hprobe', hext.folder, (hext.isFile_text hd hcanon hplace).1,
      ← discover_eq hnull hprobe, h]

theorem isFile_of_load {file : Config} (h : load d path = .ok (file, [])) :
    d.isFile (ofText path).text = true := by
  obtain ⟨found, hprobe, h⟩ := of_bind_eq_ok h
  split at h
  · exact isFile_iff_probe.2 ⟨_, of_mapError_eq_ok hprobe⟩
  · cases h

theorem load_extends {file : Config} (hd : d.Grounded) (hext : Disk.Extends written d d')
    (hplace : (Path.resolve d.folder (.ofText path)).parts ∉ written) (h : Config.load d path = .ok (file, [])) : Config.load d' path = .ok (file, []) := by
  have hfile := isFile_of_load h
  rw [← ofText_text (clean_ofText path)] at hplace
  obtain ⟨hsame, hbytes⟩ := hext.isFile_eq hd hfile hplace
  obtain ⟨bytes, hprobe⟩ := isFile_iff_probe.1 hfile
  obtain ⟨bytes', hprobe'⟩ := isFile_iff_probe.1 (hsame.trans hfile)
  rw [← h, Config.load, Config.load, hprobe, hprobe', Disk.text, (hbytes hfile).1]
  rfl

theorem completeConfig_verify {desk : Desk} (hd : desk.disk.Tidy) (hext : Disk.Extends written desk.disk d')
    (h : (completeConfig asked).run desk = (.ok config, desk'))
    (hplace : (resolve desk.disk.folder (.ofText (configPath desk.disk.folder config))).parts ∉ written)
    (hshort : ∀ name ∈ (ofText (configPath desk.disk.folder config)).parts, name.utf8ByteSize ≤ maxName) :
    (completeConfig { asked with verify := true }).run { desk with disk := d' } =
      (.ok { config with verify := true }, { desk with disk := d' }) := by
  rw [completeConfig_run] at h ⊢
  obtain ⟨path, hsought, h⟩ := bind_lift_ok h
  obtain ⟨rfl, hdone⟩ := completeFrom_ok h
  have hpath : configPath desk'.disk.folder config = configPath desk'.disk.folder asked := by
    rcases hdone with ⟨-, rfl⟩ | ⟨p, file, rfl, -, rfl⟩
    · rfl
    · obtain ⟨rfl, hne⟩ := soughtFile_ok hsought
      exact configPath_merge _ hne
  rw [hpath] at hplace hshort
  have hsought' : soughtFile d' { asked with verify := true } = .ok path :=
    soughtFile_extends hd hext hplace hshort hsought
  rw [hsought', run_bind_of_ok (run_lift_ok _ _)]
  rcases hdone with ⟨rfl, rfl⟩ | ⟨p, file, rfl, hload, rfl⟩
  · rfl
  · obtain ⟨rfl, -⟩ := soughtFile_ok hsought
    rw [completeFrom, load_extends hd.toGrounded hext hplace hload]
    rfl

/-! ## Opened sessions -/

structure Runs (config asked : Config) : Prop where
  mode : config.mode = asked.mode
  input : config.input = asked.input
  outputFile : config.outputFile = asked.outputFile
  outputFolder : config.outputFolder = asked.outputFolder
  dryRun : config.dryRun = asked.dryRun
  verify : config.verify = asked.verify

namespace Opens

variable {request : CommandLine.Request} {loaded : Desk} {cache : Cache}
  (h : Opens d i request asked config r loaded cache)
include h

theorem opening_eq : (opening i).run (desk d i) = (.ok (config, r, { target := targetLabel d.folder config }),
    { loaded with cache, acceptAll := config.acceptAll }) := by
  rw [opening, run_bind_of_ok h.reads, run_bind_of_ok h.completes, run_bind_of_ok (run_get _)]
  rw [run_bind_of_ok (run_emit ..), desk_disk, ← startEvent, run_bind_of_ok h.loads, h.caches]
  rfl

theorem loads_onDisk (disk : Disk) : (loadPlugins config i.entries).run
      { (desk d i).after (startEvent d.folder config) with disk } = (.ok r, { loaded with disk }) ∧
    loaded.deliveries = [] := by
  have hload := even_loadPlugins_onDisk config i.entries ((desk d i).after (startEvent d.folder config)) _
    (⟨rfl, rfl⟩ : OnDisk disk _ _)
  rw [h.loads] at hload
  exact ⟨Prod.ext hload.result hload.after.1, hload.after.2⟩

theorem loaded_eq : loaded.disk = d ∧ cache.entries = [] ∧ loaded.deliveries = [] := by
  refine ⟨congrArg Prod.fst ((leaves_loadPlugins i.entries).view_eq h.loads), ?_, (h.loads_onDisk d).2⟩
  have hcache := h.caches
  rw [cacheOf, Cache.make] at hcache
  split_ifs at hcache
  rw [← Except.ok.inj hcache]

theorem configured (hinit : config.initPath = none) (hlist : config.listPlugins = false) :
    ∃ given, request.configure d i.stdinTerminal i.stdin = .ok (given, []) ∧
      asked = { given with verbosity := min given.verbosity 2 } ∧
      given.initPath = none ∧ given.listPlugins = false := by
  obtain ⟨-, request', given, hreq, hgiven, hasked⟩ := readCommand_ok h.reads
  obtain rfl : request = request' := Except.ok.inj (h.asks.symm.trans hreq)
  refine ⟨given, hgiven, hasked, ?_⟩
  obtain rfl | ⟨file, path, rfl⟩ := h.config_eq <;> subst hasked <;> exact ⟨hinit, hlist⟩

theorem settled (hinit : config.initPath = none) (hlist : config.listPlugins = false) :
    ∃ folder, CommandLine.isFolderInput d request.input = .ok folder ∧ request.conflicts folder i.stdinTerminal = [] ∧
      Runs config (request.settle folder i.stdin) := by
  obtain ⟨given, hgiven, rfl, hspec⟩ := h.configured hinit hlist
  obtain ⟨-, -, folder, hdir, hclash, rfl⟩ := CommandLine.Request.configure_ok hgiven hspec.1 hspec.2
  refine ⟨folder, hdir, hclash, ?_⟩
  obtain rfl | ⟨file, path, rfl⟩ := h.config_eq <;> exact ⟨rfl, rfl, rfl, rfl, rfl, rfl⟩

/-- A session opens alike with a request to compare, on a disk that holds more, if its input is what it was and its
configuration file was not written. -/
theorem verifying (hd : d.Tidy) (hext : Disk.Extends written d d') (hinit : config.initPath = none)
    (hlist : config.listPlugins = false) (hdry : request.dryRun = false)
    (hout : (isGiven request.outputFile || isGiven request.outputFolder) = true)
    (hfile : isGiven request.outputFile = true →
      isFolderInput d' request.input = isFolderInput d request.input)
    (hdir : isGiven request.outputFolder = true →
      ∃ folder, isFolderInput d' request.input = .ok folder)
    (hplace : (Path.resolve d.folder (.ofText (configPath d.folder config))).parts ∉ written)
    (hshort : ∀ name ∈ (Path.ofText (configPath d.folder config)).parts, name.utf8ByteSize ≤ Disk.maxName) :
    Opens d' i.verifying { request with verify := true } { asked with verify := true } { config with verify := true } r
      { loaded with disk := d' } cache := by
  obtain ⟨given, hgiven, hasked, hspec⟩ := h.configured hinit hlist
  have hconf := CommandLine.Request.configure_verify hgiven hspec.1 hspec.2 hdry hout hfile hdir
  have hreq' := CommandLine.request_verify h.asks
  refine ⟨hreq', ?_, ?_, ?_, h.caches⟩
  · have hread : (readCommand i.verifying).run (desk d' i.verifying) = _ := run_readCommand hreq' hconf
    rw [hread, hasked]
  · exact completeConfig_verify hd hext h.completes hplace hshort
  · have hload := (h.loads_onDisk d').1
    rwa [← hext.folder] at hload

end Opens

end Session

end Transclude
