import Transclude.Proofs.Ancestry
import Transclude.Proofs.Exits
import Transclude.Proofs.Listing
import Transclude.Proofs.Replays

/-!
# Outputs

A session writes each result to a path of its own, and a session that compares looks for the result at the same
path. What was written is still there when the session has written all the others, so it is found up to date.
-/

namespace Transclude

open List Desk Path Target

variable {names : List String}

/-! ## What is reported of outputs -/

namespace Output

def verdict? : Output → Option String
  | .err line => if line.toList.head? == some '[' then some line else none
  | _ => none

theorem isDelivery_of_verdict? (o : Output) (h : o.verdict?.isSome) : o.isDelivery := by
  rw [verdict?.eq_def] at h
  split at h
  · split_ifs at h with hline
    · exact hline
    · cases h
  · cases h

end Output

namespace Desk

def verdicts (d : Desk) : List String := d.log.filterMap Output.verdict?

variable {d d' : Desk}

theorem err_mem_of_verdict {line : String} (h : line ∈ d.verdicts) : .err line ∈ d.log := by
  obtain ⟨o, ho, hline⟩ := mem_filterMap.1 h
  rw [Output.verdict?.eq_def] at hline
  split at hline
  · split_ifs at hline
    rwa [← Option.some.inj hline]
  · cases hline

theorem verdicts_congr (h : d'.deliveries = d.deliveries) : d'.verdicts = d.verdicts :=
  filterMap_log_congr Output.isDelivery_of_verdict? h

theorem verdicts_after (d : Desk) (e : Event) : (d.after e).verdicts = d.verdicts :=
  (filterMap_log_cons Output.verdict? d (.event e)).trans (append_nil _)

end Desk

/-! ## Files that are found again -/

namespace Disk

variable {d d' : Disk} {s : String} {p : Path} {place next : List String} {bytes : ByteArray}
  {written : List (List String)}

theorem short_of_foldlM (hplace : ∀ name ∈ place, name.utf8ByteSize ≤ maxName)
    (h : names.foldlM (d.step s) place = .ok next) : ∀ name ∈ next, name.utf8ByteSize ≤ maxName := by
  induction names generalizing place with
  | nil =>
    cases h
    exact hplace
  | cons name names ih =>
    obtain ⟨middle, hstep, h⟩ := Except.of_bind_eq_ok h
    refine ih ?_ h
    rw [step] at hstep
    split at hstep
    · cases hstep
    · cases hstep
    · split_ifs at hstep with hstill hup hlong <;> cases hstep
      · exact hplace
      · exact fun n hn => hplace n (dropLast_subset _ hn)
      · exact forall_mem_append.2 ⟨hplace, forall_mem_singleton.2 (Nat.not_lt.1 hlong)⟩

theorem isFolderAt_of_write (h : d.write s bytes = .ok d') (q : List String) : d'.isFolderAt q = d.isFolderAt q := by
  obtain ⟨place, -, hfree, rfl⟩ := write_ok h
  rw [Bool.eq_iff_iff, isFolderAt_iff, isFolderAt_iff, entry?_put _ (ne_nil_of_isFolderAt hfree)]
  split_ifs with hq
  · subst hq
    rw [← isFolderAt_iff, hfree]
    simp
  · rfl

structure Holds (d : Disk) (p : Path) (bytes : ByteArray) : Prop where
  reached : d.Reached p.parts
  short : ∀ name ∈ p.parts, name.utf8ByteSize ≤ maxName
  entry : d.entry? p.parts = some (.file bytes)

theorem Holds.of_extends (h : d.Holds p bytes) (hext : Extends written d d') (hp : p.parts ∉ written) :
    d'.Holds p bytes :=
  ⟨hext.reached h.reached, h.short, (hext.files _ hp bytes).1 h.entry⟩

theorem write_holds (hd : d.Firm) (h : d.write s bytes = .ok d') :
    Extends [(resolve d.folder (.ofText s)).parts] d d' ∧ d'.Holds (resolve d.folder (.ofText s)) bytes := by
  obtain ⟨place, hloc, hfree, rfl⟩ := write_ok h
  obtain ⟨hreach, rfl⟩ := hd.locate hloc
  have hext := extends_put_file hfree bytes
  refine ⟨hext, hext.reached hreach, ?_, ?_⟩
  · rw [locate_eq_ite] at hloc
    split_ifs at hloc
    refine short_of_foldlM ?_ hloc
    rw [origin]
    split_ifs
    · exact forall_mem_nil _
    · exact hd.short
  · rw [entry?_put _ (ne_nil_of_isFolderAt hfree), if_pos rfl]

end Disk

theorem Freshness.check_of_holds {d : Disk} {p : Path} {lineEndings result : String} (hd : d.Grounded)
    (hp : p.Canonical) (hsize : p.text.utf8ByteSize ≤ Disk.maxPath)
    (h : d.Holds p (endLines lineEndings result).toUTF8) :
    check d lineEndings result p.text = .ok .upToDate := by
  have hprobe : d.probe p.text = .ok (some (.file (endLines lineEndings result).toUTF8)) := by
    rw [Disk.probe, hd.locate_of_reached hp h.short hsize h.reached]
    exact congrArg Except.ok h.entry
  rw [check, ofText_text hp.clean, hprobe]
  have hbeq (bytes : ByteArray) : (bytes == bytes) = true := by
    exact beq_self_eq_true (α := Array UInt8) _
  exact congrArg Except.ok (if_pos (hbeq _))

/-! ## Where results are written -/

namespace Path

theorem resolve_append (folder p : Path) (hnames : ∀ name ∈ names, name ≠ "..") :
    resolve folder { p with parts := p.parts ++ names } =
      { resolve folder p with parts := (resolve folder p).parts ++ names } := by
  have hparts : (folder.join { p with parts := p.parts ++ names }).parts = (folder.join p).parts ++ names := by
    have habs : isAbsolute { p with parts := p.parts ++ names } = p.isAbsolute := rfl
    rw [join, join, habs]
    split_ifs
    · rfl
    · exact (append_assoc ..).symm
  rw [resolve, hparts, collapse_append, collapse_of_forall_ne _ hnames, reverse_reverse, resolve]

end Path

namespace Session

open Work

variable {config : Config} {r : Registry} {cwd base p : Path} {folder input path : String} {names : List String}

def outputPlace (cwd base : Path) (folder input : String) : List String :=
  match pathBelow? cwd base folder input with
  | some p => (resolve cwd p).parts
  | none => []

theorem outputPath_ok (hcwd : cwd.Canonical) (h : outputPath cwd base folder input = .ok p) :
    p.Clean ∧ (resolve cwd p).parts = outputPlace cwd base folder input := by
  cases hfound : pathBelow? cwd base folder input with
  | none =>
    rw [outputPath, hfound] at h
    cases h
  | some found =>
    rw [outputPath, hfound] at h
    cases h
    refine ⟨?_, by rw [outputPlace, hfound]⟩
    rw [pathBelow?, Option.map_eq_some_iff] at hfound
    obtain ⟨rest, hrest, rfl⟩ := hfound
    rw [below?] at hrest
    split_ifs at hrest
    cases hrest
    have hclean := clean_ofText folder
    have hinput := hcwd.resolve (clean_ofText input)
    refine ⟨hclean.root, forall_mem_append.2 ⟨hclean.names, fun name hname => ?_⟩⟩
    exact hinput.names name (drop_subset _ _ hname)

theorem outputPath_below {searched : Path} (folder : String) (hclean : searched.Clean)
    (hnames : ∀ name ∈ names, Disk.Proper name) :
    (∃ p, outputPath cwd (resolve cwd searched) folder
        ({ searched with parts := searched.parts ++ names } : Path).text = .ok p) ∧
      outputPlace cwd (resolve cwd searched) folder
        ({ searched with parts := searched.parts ++ names } : Path).text =
        (resolve cwd (.ofText folder)).parts ++ names := by
  have hdown : ∀ name ∈ names, name ≠ ".." := fun name hname => (hnames name hname).2
  have hfile : Path.Clean { searched with parts := searched.parts ++ names } :=
    ⟨hclean.root, forall_mem_append.2 ⟨hclean.names, fun name hname => (hnames name hname).1⟩⟩
  have hbelow : pathBelow? cwd (resolve cwd searched) folder
      ({ searched with parts := searched.parts ++ names } : Path).text =
        some ⟨(ofText folder).root, (ofText folder).parts ++ names⟩ := by
    rw [pathBelow?, ofText_text hfile, resolve_append cwd searched hdown, below?]
    have hpre : (resolve cwd searched).parts.isPrefixOf ((resolve cwd searched).parts ++ names) = true :=
      isPrefixOf_iff_prefix.2 (prefix_append _ _)
    rw [beq_self_eq_true, Bool.true_and, if_pos hpre, drop_left]
    rfl
  rw [outputPath, outputPlace, hbelow]
  refine ⟨⟨_, rfl⟩, ?_⟩
  dsimp only
  rw [resolve_append cwd _ hdown]

/-! ## Writing and comparing one result -/

variable {x y : Desk} {s s' : Summary} {root : Node} {index total : Nat} {result : Except String String} {text : String}

structure Wrote (x : Desk) (p : Path) (text : String) (y : Desk) : Prop where
  frame : y = { x with disk := y.disk, past := y.past }
  extended : Disk.Extends [p.parts] x.disk y.disk
  holds : y.disk.Holds p text.toUTF8

structure Passes (s : Summary) (x : Desk) (lines : List String) (s' : Summary) (y : Desk) : Prop where
  disk : y.disk = x.disk
  verdicts : y.verdicts = x.verdicts ++ lines
  errors : s'.errors = s.errors
  stale : s'.stale = s.stale

def freshLine (path : String) : String := s!"[{Freshness.upToDate.label}] {path}" ++ "\n"

theorem passes_of_verdicts (hdisk : y.disk = x.disk) (hverd : y.verdicts = x.verdicts) : Passes s x [] s y :=
  ⟨hdisk, hverd.trans (append_nil _).symm, rfl, rfl⟩

theorem Passes.append {s₁ : Summary} {x₁ : Desk} {lines lines' : List String} (h : Passes s x lines s₁ x₁)
    (h' : Passes s₁ x₁ lines' s' y) : Passes s x (lines ++ lines') s' y where
  disk := h'.disk.trans h.disk
  verdicts := by rw [h'.verdicts, h.verdicts, append_assoc]
  errors := h'.errors.trans h.errors
  stale := h'.stale.trans h.stale

theorem writeFile_ok (h : (writeFile path text).run x = (.ok (), y)) :
    ∃ disk, x.disk.writeText path text = .ok disk ∧ y = { x with disk := disk } := by
  rw [writeFile, run_bind_of_ok (run_get x)] at h
  obtain ⟨disk, hwrite, h⟩ := bind_lift_ok h
  cases h
  exact ⟨disk, Except.of_mapError_eq_ok hwrite, rfl⟩

theorem makeFolders_ok (h : (makeFolders p).run x = (.ok (), y)) :
    ∃ disk, x.disk.makeFolders p = .ok disk ∧ y = { x with disk := disk } := by
  obtain ⟨disk, hmake, h⟩ := bind_lift_ok h
  cases h
  exact ⟨disk, Except.of_mapError_eq_ok hmake, rfl⟩

structure WritesTo (config : Config) (given : Option String) (path : String) : Prop where
  verify : config.verify = false
  dryRun : config.dryRun = false
  path : given.filter (· != "") = some path

theorem wrote_of_writeFile (hd : x.disk.Firm) (h : (writeFile path text).run x = (.ok (), y)) :
    Wrote x (resolve x.disk.folder (.ofText path)) text y ∧ y.past = x.past ∧
      ∀ q, y.disk.isFolderAt q = x.disk.isFolderAt q := by
  obtain ⟨disk, hwrite, rfl⟩ := writeFile_ok h
  obtain ⟨hext, hholds⟩ := Disk.write_holds hd hwrite
  exact ⟨⟨rfl, hext, hholds⟩, rfl, Disk.isFolderAt_of_write hwrite⟩

theorem writeBelow_ok (hd : x.disk.Firm) (hto : WritesTo config config.outputFolder folder) {out : Option String}
    (h : (writeBelow config base input text).run x = (.ok out, y)) :
    ∃ p, outputPath x.disk.folder base folder input = .ok p ∧ out = some (resolve x.disk.folder p).text ∧
      Wrote x (resolve x.disk.folder p) (endLines config.lineEndings text) y ∧ y.past = x.past := by
  rw [writeBelow, run_bind_of_ok (run_get x)] at h
  simp only [hto.dryRun, hto.path] at h
  obtain ⟨p, hpath, h⟩ := bind_lift_ok h
  obtain ⟨_, x₁, hdirs, h⟩ := bind_ok h
  obtain ⟨made, hmade, rfl⟩ := makeFolders_ok hdirs
  obtain ⟨_, x₂, hwrite, h⟩ := bind_ok h
  cases h
  have hext := Disk.extends_makeFolders hmade
  obtain ⟨hwrote, hpast, -⟩ := wrote_of_writeFile (hext.firm hd) hwrite
  rw [hext.folder, ofText_text (outputPath_ok hd.canonical hpath).1] at hwrote
  refine ⟨p, hpath, rfl, ⟨?_, ?_, hwrote.holds⟩, hpast⟩
  · exact hwrote.frame
  · exact (hext.mono (nil_subset _)).trans hwrote.extended

theorem handOver_write (hd : x.disk.Firm) (hto : WritesTo config config.outputFolder folder)
    (h : (handOver config base index total input root s result).run x = (.ok s', y)) :
    (∀ text, result = .ok text → text = "") ∧ y = { x with past := y.past } ∧ y.completed = x.completed ∨
    ∃ text p, result = .ok text ∧ text ≠ "" ∧ outputPath x.disk.folder base folder input = .ok p ∧
      Wrote x (resolve x.disk.folder p) (endLines config.lineEndings text) y ∧
      y.completed = x.completed ++ [(resolve x.disk.folder p).text] := by
  cases result with
  | error message =>
    cases h
    exact .inl ⟨nofun, rfl, completed_after_of_none rfl x⟩
  | ok text =>
    rw [handOver, deliver, run_bind_of_ok (run_get x)] at h
    simp only [hto.verify] at h
    split_ifs at h with hempty
    · cases h
      refine .inl ⟨fun _ h => ?_, rfl, ?_⟩
      · cases h
        exact eq_of_beq hempty
      · exact completed_after_of_none rfl x
    · obtain ⟨out, x₁, hwrite, h⟩ := bind_ok h
      obtain ⟨p, hpath, rfl, hwrote, hpast⟩ := writeBelow_ok hd hto hwrite
      cases h
      refine .inr ⟨text, p, rfl, by simpa using hempty, hpath, ⟨?_, hwrote.extended, hwrote.holds⟩, ?_⟩
      · rw [hwrote.frame]
      · rw [← completed_congr (congrArg (filter _) hpast)]
        exact completed_after ..

theorem verdict?_freshLine (path : String) : (Output.err (freshLine path)).verdict? = some (freshLine path) := by
  have hlist : (freshLine path).toList = '[' :: _ :=
    Compile.toList_append_cons (Compile.toList_append_cons (Compile.toList_append_cons
      (Compile.toList_append_cons rfl)))
  rw [Output.verdict?, hlist]
  rfl

theorem count_stale_of_upToDate (s : Summary) (root : Node) (wrote : Bool) :
    (count s root wrote (some .upToDate)).stale = s.stale := by
  rw [count]
  split_ifs <;> rfl

theorem count_errors_of_none (s : Summary) (wrote : Bool) (fresh : Option Freshness) (hroot : root.hasFailure = false) :
    (count s root wrote fresh).errors = s.errors := by
  rw [count_errors, hroot]
  exact Int.add_zero _

theorem passes_reported (x : Desk) (e : Event) (hroot : root.hasFailure = false) (s : Summary) {wrote : Bool} :
    Passes s x [] (count s root wrote none) (x.after e) where
  disk := rfl
  verdicts := (verdicts_after ..).trans (append_nil _).symm
  errors := count_errors_of_none s _ _ hroot
  stale := count_stale_of_none ..

variable (config x) in
theorem handOver_skip (hdir : config.outputFolder.filter (· != "") = some folder)
    (hpath : outputPath x.disk.folder base folder input = .ok p) (hroot : root.hasFailure = false)
    (hres : ∀ text, result = .ok text → text = "") (s : Summary) :
    ∃ s' y, (handOver { config with verify := true } base index total input root s result).run x = (.ok s', y) ∧
      y = { x with past := y.past } ∧ Passes s x [] s' y := by
  cases result with
  | error message => exact ⟨_, _, rfl, rfl, passes_reported x _ hroot s⟩
  | ok text =>
    obtain rfl := hres text rfl
    rw [handOver, deliver, run_bind_of_ok (run_get x)]
    simp only [hdir, hpath]
    exact ⟨_, _, rfl, rfl, passes_reported x _ hroot s⟩

theorem run_compare (hfresh : Freshness.check x.disk config.lineEndings text path = .ok .upToDate) :
    (compare { config with verify := true } text path).run x =
      (.ok .upToDate, { x with past := .err (freshLine path) :: x.past }) := by
  rw [compare, run_bind_of_ok (run_get x), hfresh]
  rfl

theorem passes_compared (path : String) (e : Event) (hroot : root.hasFailure = false) (s : Summary) :
    Passes s x [freshLine path] (count s root false (some .upToDate))
      (after { x with past := .err (freshLine path) :: x.past } e) where
  disk := rfl
  verdicts := by
    rw [verdicts_after, verdicts, filterMap_log_cons, verdict?_freshLine]
    rfl
  errors := count_errors_of_none s _ _ hroot
  stale := count_stale_of_upToDate ..

variable (config x) in
theorem handOver_compare (hdir : config.outputFolder.filter (· != "") = some folder)
    (hpath : outputPath x.disk.folder base folder input = .ok p) (hroot : root.hasFailure = false) (hne : text ≠ "")
    (hfresh : Freshness.check x.disk config.lineEndings text (resolve x.disk.folder p).text = .ok .upToDate)
    (s : Summary) :
    ∃ s' y, (handOver { config with verify := true } base index total input root s (.ok text)).run x = (.ok s', y) ∧
      y = { x with past := y.past } ∧ Passes s x [freshLine (resolve x.disk.folder p).text] s' y := by
  rw [handOver, deliver, run_bind_of_ok (run_get x)]
  simp only [hdir, hpath]
  have hcompared : (some <$> compare { config with verify := true } text (resolve x.disk.folder p).text).run x =
      (.ok (some .upToDate), { x with past := .err (freshLine (resolve x.disk.folder p).text) :: x.past }) := by
    rw [map_eq_pure_bind, run_bind_of_ok (run_compare hfresh)]
    rfl
  rw [run_bind_of_ok (run_lift_ok p x), if_neg (by simpa using hne), run_bind_of_ok hcompared]
  exact ⟨_, _, rfl, rfl, passes_compared _ _ hroot s⟩

/-! ## A single result -/

variable {output : String}

theorem writeResult_eq (hdry : config.dryRun = false) (hout : config.outputFile.filter (· != "") = some output) :
    writeResult config text = writeFile output (endLines config.lineEndings text) := by
  obtain ⟨hfile, hne⟩ := Option.filter_eq_some_iff.1 hout
  rw [writeResult, hfile]
  split
  · rename_i h
    cases h
  · rename_i h
    cases h
    cases hne
  · rename_i h
    cases h
    rw [hdry, if_neg Bool.false_ne_true]

theorem handSingle_write (hd : x.disk.Firm) (hto : WritesTo config config.outputFile output)
    (h : (handSingle config x.disk.folder root s result).run x = (.ok s', y)) :
    (∀ text, result = .ok text → text = "") ∧ y = { x with past := y.past } ∧ y.completed = x.completed ∨
    ∃ text, result = .ok text ∧ text ≠ "" ∧
      Wrote x (resolve x.disk.folder (.ofText output)) (endLines config.lineEndings text) y ∧
      y.completed = x.completed ++ [output] ∧ ∀ q, y.disk.isFolderAt q = x.disk.isFolderAt q := by
  cases result with
  | error message =>
    cases h
    exact .inl ⟨nofun, rfl, completed_after_of_none rfl x⟩
  | ok text =>
    rw [handSingle] at h
    simp only [hto.verify, hto.path, Bool.false_and] at h
    split_ifs at h with hempty
    · cases h
      refine .inl ⟨fun _ h => ?_, rfl, ?_⟩
      · cases h
        exact eq_of_beq hempty
      · exact completed_after_of_none rfl x
    · rw [writeResult_eq hto.dryRun hto.path] at h
      obtain ⟨_, x₁, hwrite, h⟩ := bind_ok h
      obtain ⟨hwrote, hpast, hdirs⟩ := wrote_of_writeFile hd hwrite
      cases h
      refine .inr ⟨text, rfl, by simpa using hempty, ⟨?_, hwrote.extended, hwrote.holds⟩, ?_, hdirs⟩
      · rw [hwrote.frame]
      · rw [← completed_congr (congrArg (filter _) hpast)]
        exact completed_after ..

variable (config x) in
theorem handSingle_skip (hroot : root.hasFailure = false) (hres : ∀ text, result = .ok text → text = "")
    (s : Summary) :
    ∃ s' y, (handSingle { config with verify := true } cwd root s result).run x = (.ok s', y) ∧ Passes s x [] s' y := by
  cases result with
  | error message => exact ⟨_, _, rfl, passes_reported x _ hroot s⟩
  | ok text =>
    obtain rfl := hres text rfl
    rw [handSingle]
    exact ⟨_, _, rfl, passes_reported x _ hroot s⟩

variable (config x) in
theorem handSingle_compare (hout : config.outputFile.filter (· != "") = some output)
    (hroot : root.hasFailure = false) (hne : text ≠ "")
    (hfresh : Freshness.check x.disk config.lineEndings text (resolve cwd (.ofText output)).text = .ok .upToDate)
    (s : Summary) :
    ∃ s' y, (handSingle { config with verify := true } cwd root s (.ok text)).run x = (.ok s', y) ∧
      Passes s x [freshLine (resolve cwd (.ofText output)).text] s' y := by
  have hver : (true && text != "") = true := by simpa using hne
  rw [handSingle]
  simp only [hver, hout]
  rw [run_bind_of_ok (run_compare hfresh)]
  exact ⟨_, _, rfl, passes_compared _ _ hroot s⟩

theorem handSingle_none (hout : config.outputFile.filter (· != "") = none) (cwd : Path) (root : Node) (s : Summary)
    (text : String) : handSingle config cwd root s (.ok text) = ( if text == "" then do
        Work.emit (.fileError root.directive.source failed noTime 0 1)
        return count s root false none
      else do
        Work.report (.out (endLines config.lineEndings text))
        Work.emit (.fileCompleted root.directive.source "stdout" noTime 0 1)
        return count s root true none) := by
  have hshow : writeResult config text = Work.report (.out (endLines config.lineEndings text)) := by
    rw [writeResult]
    split
    · rfl
    · rfl
    · rename_i path hne hfile
      rw [hfile] at hout
      have hempty : path = "" := by simpa using hout
      exact absurd hempty (by rintro rfl; exact hne rfl)
  rw [handSingle, hout, hshow]
  cases config.verify && text != "" <;> rfl

variable (config x) in
theorem handSingle_show (hout : config.outputFile.filter (· != "") = none) (hroot : root.hasFailure = false)
    (result : Except String String) (s : Summary) :
    ∃ s' y, (handSingle config cwd root s result).run x = (.ok s', y) ∧ Passes s x [] s' y := by
  cases result with
  | error message => exact ⟨_, _, rfl, passes_reported x _ hroot s⟩
  | ok text =>
    rw [handSingle_none hout]
    split_ifs
    · exact ⟨_, _, rfl, passes_reported x _ hroot s⟩
    · have hshown : Passes s x [] s { x with past := .out (endLines config.lineEndings text) :: x.past } :=
        ⟨rfl, filterMap_log_cons Output.verdict? x _, rfl, rfl⟩
      exact ⟨_, _, rfl, hshown.append (passes_reported _ _ hroot s)⟩

end Session

end Transclude
