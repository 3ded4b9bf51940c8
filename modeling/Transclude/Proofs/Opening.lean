import Transclude.Proofs.Logs

/-!
# How sessions open

A session reads its words, completes its configuration and loads its plugins before it looks at its input (`Opens`). Of
the input it plans all files first, and then works on one after the other, so that a frame has to be shown for single
files only (`Carries.processInput`).
-/

namespace Transclude

open List Desk Output

variable {e : Event} {α : Type} {index total : Nat}

namespace Desk

def after (d : Desk) (e : Event) : Desk := { d with past := .event e :: d.past }

def started (d : Desk) : List String := d.log.filterMap started?

def completed (d : Desk) : List String := d.log.filterMap completed?

def failures (d : Desk) : List (String × String) := d.log.filterMap failure?

def summaries (d : Desk) : List Output := d.past.filter isSummary

variable {d d' : Desk}

theorem filterMap_log_congr {pick : Output → Option α} {keep : Output → Bool}
    (hpick : ∀ o, (pick o).isSome → keep o) (h : d'.past.filter keep = d.past.filter keep) :
    d'.log.filterMap pick = d.log.filterMap pick := by
  have hkept (d : Desk) : d.log.filterMap pick = (d.past.filter keep).reverse.filterMap pick := by
    rw [← filter_reverse, filterMap_filter]
    refine filterMap_congr fun o _ => ?_
    by_cases ho : keep o
    · rw [if_pos ho]
    · rw [if_neg ho, Option.eq_none_iff_forall_ne_some]
      exact fun a ha => ho (hpick o (by simp [ha]))
  rw [hkept, h, ← hkept]

theorem filterMap_log_cons (pick : Output → Option α) (d : Desk) (o : Output) :
    (log { d with past := o :: d.past }).filterMap pick = d.log.filterMap pick ++ (pick o).toList := by
  rw [log, log]
  cases h : pick o <;> simp [h]

theorem started_congr (h : d'.milestones = d.milestones) : d'.started = d.started :=
  filterMap_log_congr (fun o ho => by simp [isMilestone, ho]) h

theorem failures_congr (h : d'.milestones = d.milestones) : d'.failures = d.failures :=
  filterMap_log_congr (fun o ho => by simp [isMilestone, ho]) h

theorem completed_congr (h : d'.milestones = d.milestones) : d'.completed = d.completed :=
  filterMap_log_congr (fun o ho => by simp [isMilestone, ho]) h

theorem milestones_after (he : (Output.event e).isMilestone = false) (d : Desk) :
    (d.after e).milestones = d.milestones :=
  filter_cons_of_neg (by simp [he])

theorem summaries_eq (d : Desk) : d.summaries = d.milestones.filter isSummary := by
  rw [milestones, filter_filter]
  refine filter_congr fun o _ => ?_
  cases ho : o.isSummary <;> simp [isMilestone, ho]

theorem summaries_congr (h : d'.milestones = d.milestones) : d'.summaries = d.summaries := by
  rw [summaries_eq, h, summaries_eq]

theorem started_after (d : Desk) (e : Event) : (d.after e).started = d.started ++ (event e).started?.toList :=
  filterMap_log_cons started? d (.event e)

theorem failures_after (d : Desk) (e : Event) : (d.after e).failures = d.failures ++ (event e).failure?.toList :=
  filterMap_log_cons failure? d (.event e)

theorem completed_after (d : Desk) (e : Event) :
    (d.after e).completed = d.completed ++ (event e).completed?.toList :=
  filterMap_log_cons completed? d (.event e)

theorem completed_after_of_none (he : (event e).completed? = none) (d : Desk) :
    (d.after e).completed = d.completed := by
  rw [completed_after, he]
  exact append_nil _

end Desk

namespace Work

variable {α : Type}

theorem run_emit (e : Event) (d : Desk) : (emit e).run d = (.ok (), d.after e) := rfl

theorem Leaves.summaries {m : Work α} (h : Leaves Desk.milestones m) : Leaves Desk.summaries m :=
  ⟨fun d => summaries_congr (h.view_run d)⟩

end Work

namespace Session

open Work Plan

variable {config asked : Config} {r : Registry} {plans : List (String × Node)} {cwd base : Path} {i : Invocation}
  {disk : Disk} {R : Desk → Desk → Prop} {s : Summary}

/-! ## Handing over -/

def handOver (config : Config) (base : Path) (index total : Nat) (input : String) (root : Node) (s : Summary) :
    Except String String → Work Summary
  | .error message => do
    Work.emit (.fileError input message noTime index total)
    return count s root false none
  | .ok result => deliver config base index total input root result s

theorem compileFiles_cons (config : Config) (r : Registry) (base : Path) (total index : Nat) (s : Summary)
    (input : String) (root : Node) (rest : List (String × Node)) :
    compileFiles config r base total index s ((input, root) :: rest) = (do
      let cwd := (← get).disk.folder
      Work.emit (.fileStarted input root.count index total)
      let result ← compileSafely config r (Target.folderBelow cwd base config.outputFolder input) root
      let s ← handOver config base index total input root s result
      compileFiles config r base total (index + 1) s rest) := by
  refine bind_congr fun desk => bind_congr fun _ => bind_congr fun result => ?_
  cases result <;> rfl

def handSingle (config : Config) (cwd : Path) (root : Node) (s : Summary) (result : Except String String) :
    Work Summary :=
  match result with
  | .error message => do
    Work.emit (.fileError root.directive.source message noTime 0 1)
    return count s root false none
  | .ok text => do
    match config.verify && text != "", config.outputFile.filter (· != "") with
    | true, some file =>
      let path := (Path.resolve cwd (.ofText file)).text
      let fresh ← compare config text path
      Work.emit (.fileCompleted root.directive.source path noTime 0 1)
      return count s root false (some fresh)
    | _, _ =>
      if text == "" then
        Work.emit (.fileError root.directive.source failed noTime 0 1)
        return count s root false none
      else
        writeResult config text
        Work.emit (.fileCompleted root.directive.source ((config.outputFile.filter (· != "")).getD "stdout") noTime 0 1)
        return count s root true none

theorem processSingle_eq (config : Config) (r : Registry) (root : Node) (s : Summary) :
    processSingle config r root s = (do
      let cwd := (← get).disk.folder
      Work.emit (.fileStarted root.directive.source root.count 0 1)
      let result ← compileSafely config r (Target.folderOfFile cwd config.outputFile) root
      handSingle config cwd root s result) := by
  refine bind_congr fun desk => bind_congr fun _ => bind_congr fun result => ?_
  cases result <;> rfl
section Work

variable {d d' : Desk} {root : Node}

/-! ## Planning -/

def PlannedFile (config : Config) (r : Registry) (disk : Disk) (plan : String × Node) : Prop :=
  ∃ d d', d.disk = disk ∧ (planFile config r plan.1).run d = (.ok plan.2, d')

theorem planFiles_cons_ok {path : String} {rest embedded : List String}
    (h : (planFiles config r total embedded index (path :: rest)).run d = (.ok plans, d')) :
    embedded.contains (Path.resolve d.disk.folder (.ofText path)).text = true ∧
        (planFiles config r total embedded (index + 1) rest).run d = (.ok plans, d') ∨
      ¬ embedded.contains (Path.resolve d.disk.folder (.ofText path)).text = true ∧
        ∃ root d₁ more later, (planFile config r path).run d = (.ok root, d₁) ∧
          root.embedded d.disk.folder config.rootKind = .ok more ∧ plans = (path, root) :: later ∧
          (root.hasFailure = true ∧ later = [] ∨ ∃ d₂, d₂.disk = d.disk ∧
            (root.hasFailure = false → d₂ = d₁.after (.filePlanned path index total)) ∧
            (planFiles config r total (embedded ++ more) (index + 1) rest).run d₂ = (.ok later, d')) := by
  rw [planFiles, run_bind_of_ok (run_get d)] at h
  dsimp only at h
  split_ifs at h with hemb
  · exact .inl ⟨hemb, h⟩
  · obtain ⟨root, d₁, hroot, h⟩ := bind_ok h
    have hd₁ : d₁.disk = d.disk := congrArg Prod.fst (Leaves.view_eq (quiet_plan (.file _)).leaves hroot)
    obtain ⟨more, hmore, h⟩ := bind_lift_ok h
    refine .inr ⟨hemb, root, d₁, more, ?_⟩
    cases hfail : root.hasFailure with
    | true =>
      rw [if_pos hfail, run_bind_of_ok (run_emit ..)] at h
      obtain ⟨goes, d₂, hgoes, h⟩ := bind_ok h
      cases goes with
      | true =>
        obtain ⟨later, _, hlater, h⟩ := bind_ok h
        cases h
        have hd₂ : d₂.disk = d₁.disk := congrArg Prod.fst (quiet_goesOn.leaves.view_eq hgoes)
        exact ⟨later, hroot, hmore, rfl, .inr ⟨d₂, hd₂.trans hd₁, nofun, hlater⟩⟩
      | false =>
        cases h
        exact ⟨[], hroot, hmore, rfl, .inl ⟨rfl, rfl⟩⟩
    | false =>
      rw [if_neg (by simp [hfail]), run_bind_of_ok (run_emit ..)] at h
      obtain ⟨later, _, hlater, h⟩ := bind_ok h
      cases h
      exact ⟨later, hroot, hmore, rfl, .inr ⟨d₁.after _, hd₁, fun _ => rfl, hlater⟩⟩

theorem planFiles_ok {disk : Disk} {embedded paths : List String}
    (h : (planFiles config r total embedded index paths).run d = (.ok plans, d')) (hd : d.disk = disk) :
    ∀ plan ∈ plans, PlannedFile config r disk plan := by
  induction paths generalizing embedded index plans d with
  | nil =>
    cases h
    exact nofun
  | cons path rest ih =>
    rcases planFiles_cons_ok h with ⟨-, h⟩ | ⟨-, root, d₁, more, later, hroot, -, rfl, hrest⟩
    · exact ih h hd
    · refine forall_mem_cons.2 ⟨⟨d, d₁, hd, hroot⟩, ?_⟩
      rcases hrest with ⟨-, rfl⟩ | ⟨d₂, hd₂, -, hlater⟩
      · exact nofun
      · exact ih hlater (hd₂.trans hd)

theorem planAll_ok {paths : List String} (h : (planAll config r paths).run d = (.ok plans, d')) :
    ∀ plan ∈ plans, PlannedFile config r d.disk plan := by
  rw [planAll, run_bind_of_ok (run_emit ..)] at h
  obtain ⟨found, d₁, hplans, h⟩ := bind_ok h
  cases h
  exact planFiles_ok hplans rfl

theorem targets_sublist {chosen : List (String × Node)} (h : targets cwd config plans = .ok chosen) : chosen.Sublist plans := by
  obtain ⟨embedded, -, h⟩ := Except.of_bind_eq_ok h
  rw [← Except.ok.inj h]
  exact filter_sublist
inductive Begins (config : Config) (r : Registry) (disk : Disk) : String → Node → Prop where
  | folder {path : String} {root : Node} (hmode : config.mode = .directory)
    (h : PlannedFile config r disk (path, root)) : Begins config r disk path root
  | single {root : Node} {d d' : Desk} (subject : Subject) (hmode : config.mode ≠ .directory) (hd : d.disk = disk)
    (h : (subject.plan config r).run d = (.ok root, d')) : Begins config r disk root.directive.source root

/-! ## Frames of the work on the input -/

/-- A frame of the work on files: each is begun, its plan is compiled, and the result is handed over. -/
structure Carries (config : Config) (r : Registry) (disk : Disk) (R : Desk → Desk → Prop) : Prop where
  single {root : Node} (h : Begins config r disk root.directive.source root) (cwd : Path) (folder : String)
    (s : Summary) : Moves R (do
      Work.emit (.fileStarted root.directive.source root.count 0 1)
      let result ← compileSafely config r folder root
      handSingle config cwd root s result)
  file {input : String} {root : Node} (h : Begins config r disk input root) (base : Path) (folder : String)
    (index total : Nat) (s : Summary) : Moves R (do
      Work.emit (.fileStarted input root.count index total)
      let result ← compileSafely config r folder root
      handOver config base index total input root s result)

theorem calm_noFiles (input : String) : Output.Calm (.err (s!"error: no .md files found in '{input}'" ++ "\n")) := by
  refine ⟨s!"no .md files found in '{input}'", ?_⟩
  have hstart : "error: no .md files found in '" = "error: " ++ "no .md files found in '" := by decide
  show "error: no .md files found in '" ++ input ++ "'" ++ "\n" =
    "error: " ++ ("no .md files found in '" ++ input ++ "'") ++ "\n"
  simp only [hstart, String.append_assoc]

namespace Carries

variable [Desk.Patient R] (h : Carries config r disk R)
include h

theorem compileFiles (hplans : ∀ plan ∈ plans, Begins config r disk plan.1 plan.2) (base : Path) (total index : Nat)
    (s : Summary) : Moves R (compileFiles config r base total index s plans) := by
  induction plans generalizing index s with
  | nil => exact moves_pure _
  | cons plan rest ih =>
    obtain ⟨hplan, hrest⟩ := forall_mem_cons.1 hplans
    rw [compileFiles_cons]
    refine .bind moves_get fun _ => ?_
    have hfiles := fun folder => (h.file hplan base folder index total s).bind fun s => ih hrest (index + 1) s
    simp only [bind_assoc] at hfiles
    exact hfiles _

theorem processFolder (hmode : config.mode = .directory) (hd : d.disk = disk) :
    R d ((processFolder config r s).run d).2 := by
  rw [Session.processFolder, run_bind_of_ok (run_get d)]
  refine run_bind_lift fun files _ => ?_
  split
  · exact (Moves.bind (mild_report (calm_noFiles _) rfl) fun _ => moves_pure _).run d
  · refine run_bind_of ((patient_planAll files).run d) fun plans d₁ hplans => run_bind_lift fun chosen hchosen => ?_
    have hbegins : ∀ plan ∈ chosen, Begins config r disk plan.1 plan.2 := fun plan hplan =>
      .folder hmode (hd ▸ planAll_ok hplans plan ((targets_sublist hchosen).subset hplan))
    refine (Moves.bind (patient_emit rfl rfl) fun _ => .bind (h.compileFiles hbegins ..) fun _ => ?_).run d₁
    exact .bind (patient_emit rfl rfl) fun _ => moves_pure _

theorem processInput (hd : d.disk = disk) : R d ((processInput config r s).run d).2 := by
  have hsingle (subject : Subject) (hmode : config.mode ≠ .directory) :
      R d ((subject.plan config r >>= fun root => processSingle config r root s).run d).2 := by
    refine run_bind_of ((calm_plan subject).run d) fun root d₁ hplan => ?_
    exact (Moves.bind moves_get fun _ => h.single (.single subject hmode hd hplan) ..).run d₁
  rw [Session.processInput]
  cases hmode : config.mode with
  | file => exact hsingle (.file config.input) (by simp [hmode])
  | directory => exact h.processFolder hmode hd
  | stdin => exact hsingle (.text config.input) (by simp [hmode])

end Carries

theorem moves_processInput [Desk.Patient R] (h : ∀ disk, Carries config r disk R) (s : Summary) :
    Moves R (processInput config r s) :=
  ⟨fun d => (h d.disk).processInput rfl⟩

/-- A frame of handing over: a file ends with an error or with its output, which may have been compared before, and is
written only if it is not to be compared. -/
structure Hands (config : Config) (R : Desk → Desk → Prop) : Prop where
  ended (path message : String) (index total : Int) : Moves R (Work.emit (.fileError path message noTime index total))
  completed (path output : String) (index total : Int) :
    Moves R (Work.emit (.fileCompleted path output noTime index total))
  compared (result path output : String) (index total : Int) (f : Freshness → Summary) : Moves R (do
    let fresh ← compare config result output
    Work.emit (.fileCompleted path output noTime index total)
    return f fresh)
  writeResult : (config.verify = true → config.outputFile.filter (· != "") = none) →
    ∀ result, Moves R (writeResult config result)
  writeBelow : (config.verify = true → config.outputFolder.filter (· != "") = none) →
    ∀ base input result, Moves R (writeBelow config base input result)

namespace Hands

variable [Desk.Frame R] (h : Hands config R)
include h

theorem handSingle (cwd : Path) (root : Node) (s : Summary) (result : Except String String) :
    Moves R (handSingle config cwd root s result) := by
  cases result with
  | error message => exact .bind (h.ended ..) fun _ => moves_pure _
  | ok result =>
    rw [Session.handSingle]
    split
    · exact h.compared ..
    · rename_i hcompared
      split
      · exact .bind (h.ended ..) fun _ => moves_pure _
      · refine .bind (h.writeResult (fun hver => ?_) _) fun _ => .bind (h.completed ..) fun _ => moves_pure _
        rw [Option.eq_none_iff_forall_ne_some]
        exact fun file hfile => hcompared file (by simp_all) hfile

theorem handOver (base : Path) (index total : Nat) (input : String) (root : Node) (s : Summary)
    (result : Except String String) : Moves R (handOver config base index total input root s result) := by
  cases result with
  | error message => exact .bind (h.ended ..) fun _ => moves_pure _
  | ok result =>
    refine .bind moves_get fun _ => ?_
    split
    · refine .bind (moves_lift _) fun path => ?_
      split
      · exact .bind (moves_pure _) fun _ => .bind (h.completed ..) fun _ => moves_pure _
      · rw [bind_map_left]
        exact h.compared ..
    · rename_i hcompared
      split
      · exact .bind (h.ended ..) fun _ => moves_pure _
      · refine .bind (h.writeBelow (fun hver => ?_) ..) fun _ => .bind (h.completed ..) fun _ => moves_pure _
        rw [Option.eq_none_iff_forall_ne_some]
        exact fun folder hdir => hcompared folder hver hdir

end Hands

/-- A view of the desk in which work on the input does not show: it has no event but the counts, and writing is not
seen. -/
structure Overlooks {β : Type} (config : Config) (view : Desk → β) : Prop where
  standing {d d' : Desk} : d'.standing = d.standing → view d' = view d
  event {e : Event} : (event e).isSummary = false → ∀ d, view (d.after e) = view d
  writeResult : (config.verify = true → config.outputFile.filter (· != "") = none) →
    ∀ result, Leaves view (writeResult config result)
  writeBelow : (config.verify = true → config.outputFolder.filter (· != "") = none) →
    ∀ base input result, Leaves view (writeBelow config base input result)

theorem overlooks_summaries : Overlooks config summaries where
  standing h := Desk.summaries_congr (congrArg Prod.snd h)
  event he _ := filter_cons_of_neg (by simp [he])
  writeResult _ _ := (adds_writeResult _).milestones.summaries
  writeBelow _ _ _ _ := (adds_writeBelow ..).milestones.summaries

namespace Overlooks

variable {β : Type} {view : Desk → β} (h : Overlooks config view)
include h

theorem emit (he : (Output.event e).isSummary = false) : Leaves view (emit e) := moves_report fun d => h.event he d

theorem leaves {m : Work α} (hm : Leaves Desk.standing m) : Leaves view m := hm.imp fun _ _ => h.standing

theorem hands : Hands config (Desk.Same view) where
  ended _ _ _ _ := h.emit rfl
  completed _ _ _ _ := h.emit rfl
  compared _ _ _ _ _ _ :=
    .bind (h.leaves (quiet_compare ..).leaves) fun _ => .bind (h.emit rfl) fun _ => moves_pure _
  writeResult := h.writeResult
  writeBelow := h.writeBelow

theorem processInput (s : Summary) : Leaves view (processInput config r s) := by
  have := patient_of_standing h.standing
  refine moves_processInput (fun _ => ⟨fun _ _ _ _ => ?_, fun _ _ _ _ _ _ => ?_⟩) s
  · exact .bind (h.emit rfl) fun _ => .bind (h.leaves (quiet_compileSafely ..).leaves) fun _ => h.hands.handSingle ..
  · exact .bind (h.emit rfl) fun _ => .bind (h.leaves (quiet_compileSafely ..).leaves) fun _ => h.hands.handOver ..

end Overlooks

end Work

/-! ## Reading the command and its configuration -/

variable {d : Disk} {desk' : Desk}

theorem exitIfErrors_ok {errors : List Status} {desk : Desk} (h : (exitIfErrors errors).run desk = (.ok (), desk')) : errors = [] ∧ desk' = desk := by
  rw [exitIfErrors] at h
  split_ifs at h with hempty
  · obtain ⟨_, _, -, h⟩ := bind_ok h
    cases h
  · cases h
    exact ⟨by simpa using hempty, rfl⟩

theorem readCommand_ok {desk : Desk} (h : (readCommand i).run desk = (.ok asked, desk')) :
    desk' = desk ∧ ∃ request config, CommandLine.request i.words = .ok request ∧
      request.configure desk.disk i.stdinTerminal i.stdin = .ok (config, []) ∧
      asked = { config with verbosity := min config.verbosity 2 } := by
  rw [readCommand] at h
  split at h
  · cases h
  · cases h
  · rename_i request hreq
    rw [run_bind_of_ok (run_get desk)] at h
    obtain ⟨⟨config, errors⟩, hconf, h⟩ := bind_lift_ok h
    obtain ⟨_, desk₁, hexit, h⟩ := bind_ok h
    obtain ⟨rfl, rfl⟩ := exitIfErrors_ok hexit
    cases h
    exact ⟨rfl, request, config, hreq, hconf, rfl⟩

def soughtFile (d : Disk) (config : Config) : Except Crash (Option String) :=
  match config.configFile.filter (· != "") with
  | some path => .ok (some path)
  | none => Config.discover d config.input

theorem completeConfig_run (config : Config) (desk : Desk) : (completeConfig config).run desk =
    (lift (soughtFile desk.disk config) >>= completeFrom config desk.disk).run desk := by
  rw [completeConfig, run_bind_of_ok (run_get desk), soughtFile]
  split
  · rename_i hfile
    rw [hfile]
    rfl
  · rename_i hfile
    rw [hfile]
    rfl
  · rename_i path hne hfile
    have hgiven : Option.filter (· != "") (some path) = some path := by
      have hne : path ≠ "" := by
        rintro rfl
        exact hne rfl
      simp [hne]
    rw [hfile, hgiven]
    rfl

theorem completeFrom_ok {path : Option String} {desk : Desk}
    (h : (completeFrom asked d path).run desk = (.ok config, desk')) :
    desk' = desk ∧ (path = none ∧ config = asked ∨
      ∃ p file, path = some p ∧ Config.load d p = .ok (file, []) ∧ config = asked.merge file p) := by
  cases path with
  | none =>
    cases h
    exact ⟨rfl, .inl ⟨rfl, rfl⟩⟩
  | some path =>
    obtain ⟨⟨file, errors⟩, hload, h⟩ := bind_lift_ok h
    obtain ⟨_, desk₁, hexit, h⟩ := bind_ok h
    obtain ⟨rfl, rfl⟩ := exitIfErrors_ok hexit
    cases h
    exact ⟨rfl, .inr ⟨path, file, rfl, hload, rfl⟩⟩

theorem completeConfig_ok {desk : Desk} (h : (completeConfig asked).run desk = (.ok config, desk')) :
    desk' = desk ∧ (config = asked ∨ ∃ file path, config = asked.merge file path) := by
  rw [completeConfig_run] at h
  obtain ⟨path, -, h⟩ := bind_lift_ok h
  obtain ⟨hdesk, ⟨-, hconfig⟩ | ⟨p, file, -, -, hconfig⟩⟩ := completeFrom_ok h
  · exact ⟨hdesk, .inl hconfig⟩
  · exact ⟨hdesk, .inr ⟨file, p, hconfig⟩⟩
/-! ## Whole sessions -/

theorem mem_summaries {d : Desk} :
    .event (.sessionComplete s) ∈ d.summaries ↔ .event (.sessionComplete s) ∈ d.past := by
  simp [summaries, isSummary]

def Output.summary? : Output → Option Summary
  | .event (.sessionComplete s) => some s
  | _ => none

theorem exists_summary {d : Desk} {P : Summary → Prop} (h : ∃ s ∈ d.past.filterMap Output.summary?, P s) :
    ∃ s, .event (.sessionComplete s) ∈ d.log ∧ P s := by
  obtain ⟨s, hs, hP⟩ := h
  obtain ⟨o, ho, hsummary⟩ := mem_filterMap.1 hs
  refine ⟨s, mem_reverse.2 ?_, hP⟩
  rw [Output.summary?.eq_def] at hsummary
  split at hsummary <;> cases hsummary
  exact ho

def ending (d : Disk) (i : Invocation) : Except Crash Unit × Desk :=
  match (readCommand i).run (desk d i) with
  | (.error c, opened) => (.error c, opened)
  | (.ok config, opened) => (proceed i config).run opened

theorem run_eq (d : Disk) (i : Invocation) : ∃ renderer : Renderer, run d i = {
    exit := exitOf (ending d i).1, stdout := outText (ending d i).2.log
    stderr := renderer.errorText (ending d i).2.log, disk := (ending d i).2.disk } := by
  rw [run, ending]
  rcases (readCommand i).run (desk d i) with ⟨c | config, opened⟩
  · exact ⟨_, rfl⟩
  · exact ⟨_, rfl⟩

theorem run_exit (d : Disk) (i : Invocation) : (run d i).exit = exitOf (ending d i).1 := by
  obtain ⟨renderer, h⟩ := run_eq d i
  rw [h]

theorem run_disk (d : Disk) (i : Invocation) : (run d i).disk = (ending d i).2.disk := by
  obtain ⟨renderer, h⟩ := run_eq d i
  rw [h]
def startEvent (cwd : Path) (config : Config) : Event :=
  .sessionStarted version ((config.configFile.filter (· != "")).getD "DEFAULT") config.mode.name
    (targetLabel cwd config)

structure Opens (d : Disk) (i : Invocation) (request : CommandLine.Request) (asked config : Config) (r : Registry)
    (loaded : Desk) (cache : Cache) : Prop where
  asks : CommandLine.request i.words = .ok request
  reads : (readCommand i).run (desk d i) = (.ok asked, desk d i)
  completes : (completeConfig asked).run (desk d i) = (.ok config, desk d i)
  loads : (loadPlugins config i.entries).run ((desk d i).after (startEvent d.folder config)) = (.ok r, loaded)
  caches : cacheOf config = .ok cache

theorem desk_disk (d : Disk) (i : Invocation) : (desk d i).disk = d := rfl

theorem standing_or_opens (d : Disk) (i : Invocation) : (ending d i).2.standing = (d, []) ∨
    (∃ asked folder, (readCommand i).run (desk d i) = (.ok asked, desk d i) ∧ asked.initPath = some folder ∧
      ending d i = (makeConfig folder).run (desk d i)) ∨
    ∃ request asked config r loaded cache, Opens d i request asked config r loaded cache ∧
      config.initPath = none ∧ config.listPlugins = false := by
  rcases hread : (readCommand i).run (desk d i) with ⟨c | asked, opened⟩
  · have hend : ending d i = (.error c, opened) := by rw [ending, hread]
    rw [hend]
    exact .inl ((quiet_readCommand i).leaves.view_eq hread)
  obtain ⟨rfl, request, _, hreq, -, -⟩ := readCommand_ok hread
  have hend : ending d i = (proceed i asked).run (desk d i) := by rw [ending, hread]
  rw [proceed] at hend
  cases hinit : asked.initPath with
  | some folder =>
    simp only [hinit] at hend
    exact .inr (.inl ⟨asked, folder, rfl, hinit, hend⟩)
  | none =>
    simp only [hinit] at hend
    rcases hcompletes : (completeConfig asked).run (desk d i) with ⟨c | config, d₁⟩
    · rw [run_bind_of_error hcompletes] at hend
      rw [hend]
      exact .inl ((quiet_completeConfig asked).leaves.view_eq hcompletes)
    obtain ⟨rfl, hconfig⟩ := completeConfig_ok hcompletes
    rw [run_bind_of_ok hcompletes, run_bind_of_ok (run_get _), run_bind_of_ok (run_emit ..), ← startEvent] at hend
    split_ifs at hend with hlist
    · rw [hend]
      exact .inl ((quiet_listPlugins i.entries).leaves.view_run _)
    rcases hloads : (loadPlugins config i.entries).run ((desk d i).after (startEvent d.folder config)) with
      ⟨c | r, loaded⟩
    · rw [desk_disk, run_bind_of_error hloads] at hend
      rw [hend]
      exact .inl ((leaves_loadPlugins i.entries).view_eq hloads)
    rw [desk_disk, run_bind_of_ok hloads] at hend
    cases hcache : cacheOf config with
    | error c =>
      rw [hcache] at hend
      rw [hend]
      exact .inl ((leaves_loadPlugins i.entries).view_eq hloads)
    | ok cache =>
      refine .inr (.inr ⟨request, asked, config, r, loaded, cache, ⟨hreq, hread, hcompletes, hloads, hcache⟩, ?_,
        by simpa using hlist⟩)
      obtain rfl | ⟨file, path, rfl⟩ := hconfig <;> exact hinit

theorem exists_opens (hs : .event (.sessionComplete s) ∈ (ending d i).2.log) :
    ∃ request asked config r loaded cache, Opens d i request asked config r loaded cache ∧
      config.initPath = none ∧ config.listPlugins = false := by
  have hended : (ending d i).2.summaries ≠ [] := ne_nil_of_mem (mem_summaries.2 (mem_reverse.1 hs))
  rcases standing_or_opens d i with hstand | ⟨asked, folder, -, -, hend⟩ | hopens
  · exact absurd (Desk.summaries_congr (congrArg Prod.snd hstand) (d := desk d i)) hended
  · rw [hend] at hended
    exact absurd ((leaves_makeConfig folder).summaries.view_run _) hended
  · exact hopens

def conclusion (config : Config) (r : Registry) (s : Summary) : Work Unit := do
  let summary ← processInput config r s
  Work.emit (.sessionComplete summary)
  if summary.errors > 0 || (config.verify && summary.stale > 0) then throw (.exit 1)

namespace Opens

variable {request : CommandLine.Request} {loaded : Desk} {cache : Cache}
  (h : Opens d i request asked config r loaded cache)
include h

theorem config_eq : config = asked ∨ ∃ file path, config = asked.merge file path := (completeConfig_ok h.completes).2

theorem ending_eq (hinit : config.initPath = none) (hlist : config.listPlugins = false) :
    ending d i = (conclusion config r { target := targetLabel d.folder config }).run
      { loaded with cache, acceptAll := config.acceptAll } := by
  have hasked : asked.initPath = none := by obtain rfl | ⟨file, path, rfl⟩ := h.config_eq <;> exact hinit
  rw [ending, h.reads]
  dsimp only
  rw [proceed]
  simp only [hasked]
  rw [run_bind_of_ok h.completes, run_bind_of_ok (run_get _), run_bind_of_ok (run_emit ..), hlist,
    if_neg Bool.false_ne_true, desk_disk, ← startEvent,
    run_bind_of_ok h.loads, h.caches]
  rfl

theorem processInput_ok (hinit : config.initPath = none) (hlist : config.listPlugins = false)
    (hs : .event (.sessionComplete s) ∈ (ending d i).2.log) :
    ∃ done, (processInput config r { target := targetLabel d.folder config }).run
        { loaded with cache, acceptAll := config.acceptAll } = (.ok s, done) ∧
      ending d i = (if s.errors > 0 || (config.verify && s.stale > 0) then .error (.exit 1) else .ok (),
        done.after (.sessionComplete s)) := by
  have hloaded : loaded.summaries = [] :=
    (Desk.summaries_congr ((leaves_loadPlugins i.entries).milestones.view_eq h.loads)).trans rfl
  rcases hend : ending d i with ⟨result, ended⟩
  have hrun := h.ending_eq hinit hlist
  rw [hend] at hs hrun
  have hended : ended.summaries ≠ [] := ne_nil_of_mem (mem_summaries.2 (mem_reverse.1 hs))
  obtain ⟨found, done, hinput, hdone, hrest⟩ :=
    (overlooks_summaries.processInput _).bind_ne hrun.symm fun heq => hended (heq.trans hloaded)
  obtain ⟨rfl, rfl⟩ : result = (if found.errors > 0 || (config.verify && found.stale > 0) then .error (.exit 1)
      else .ok ()) ∧ ended = done.after (.sessionComplete found) := by
    split at hrest <;> cases hrest <;> exact ⟨by simp_all, rfl⟩
  obtain rfl : s = found := by
    have hmem : .event (.sessionComplete s) ∈ Output.event (.sessionComplete found) :: done.summaries :=
      mem_summaries.2 (mem_reverse.1 hs)
    rw [hdone.trans hloaded, mem_singleton] at hmem
    cases hmem
    rfl
  exact ⟨done, hinput, rfl⟩

end Opens

end Session

end Transclude
