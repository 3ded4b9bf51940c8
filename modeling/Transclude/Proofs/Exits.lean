import Transclude.Proofs.Opening

/-!
# How sessions end

A file whose compilation crashes or has no text is reported as a failure, but files are counted by their plans, and
the code of a session depends on the counts (`exit_of_sessionComplete`).
-/

namespace Transclude

open List Desk Output

variable {e : Event} {α : Type} {index total : Nat}

namespace Session

open Work Plan

variable {config : Config} {r : Registry} {plans : List (String × Node)} {compiled : Except Crash String}
  {i : Invocation} {result : Except String String} {files : List Compiled} {f : Compiled} {base cwd : Path}
  {fresh : Option Freshness} {folder input : String} {wrote : Bool}

/-! ## What is counted -/

theorem count_errors (s : Summary) (root : Node) (wrote : Bool) (fresh : Option Freshness) :
    (count s root wrote fresh).errors = s.errors + if root.hasFailure then 1 else 0 := by
  unfold count
  cases fresh with
  | none => cases wrote <;> grind
  | some fresh => cases fresh <;> grind

theorem count_stale_of_none (s : Summary) (root : Node) (wrote : Bool) : (count s root wrote none).stale = s.stale := by
  unfold count
  cases wrote <;> grind

/-- A file that a session compiled: its name, its plan, and what its failure says if it has one. -/
structure Compiled where
  path : String
  root : Node
  error : Option String

namespace Compiled

def failure? (f : Compiled) : Option (String × String) := f.error.map (f.path, ·)

def Ends (f : Compiled) : Except Crash String → Prop
  | .error c => f.error = some c.message
  | .ok text => f.error = none ∨ text = "" ∧ f.error = some failed

def StandsFor (config : Config) (f : Compiled) (subject : Subject) : Prop :=
  subject = .file f.path ∨
    f.path = f.root.directive.source ∧ (subject = .file config.input ∨ subject = .text config.input)

def PlannedOn (config : Config) (r : Registry) (disk : Disk) (f : Compiled) : Prop :=
  ∃ subject d d', f.StandsFor config subject ∧ d.disk = disk ∧ (subject.plan config r).run d = (.ok f.root, d')

def Ended (config : Config) (r : Registry) (f : Compiled) : Prop :=
  ∃ folder d d' result, (Compile.compilePlan config r folder f.root).run d = (result, d') ∧ f.Ends result

end Compiled

structure Tally (config : Config) (r : Registry) (s : Summary) (d : Desk) (files : List Compiled)
    (s' : Summary) (d' : Desk) : Prop where
  started : d'.started = d.started ++ files.map (·.path)
  failures : d'.failures = d.failures ++ files.filterMap Compiled.failure?
  errors : s'.errors = s.errors + files.countP (·.root.hasFailure)
  stale : config.verify = false → s'.stale = s.stale
  ended : ∀ f ∈ files, f.Ended config r

variable {s s₁ s' : Summary} {d d₁ d' : Desk} {root : Node}

theorem Tally.nil (h : d'.milestones = d.milestones) : Tally config r s d [] s d' where
  started := by simp [started_congr h]
  failures := by simp [failures_congr h]
  errors := by simp
  stale _ := rfl
  ended := nofun

theorem Tally.append {files' : List Compiled} (h : Tally config r s d files s₁ d₁)
    (h' : Tally config r s₁ d₁ files' s' d') : Tally config r s d (files ++ files') s' d' where
  started := by rw [h'.started, h.started, map_append, append_assoc]
  failures := by rw [h'.failures, h.failures, filterMap_append, append_assoc]
  errors := by
    rw [h'.errors, h.errors, countP_append]
    omega
  stale hv := by rw [h'.stale hv, h.stale hv]
  ended := forall_mem_append.2 ⟨h.ended, h'.ended⟩

theorem Tally.congr {d₀ d₁ : Desk} (h : Tally config r s d files s' d') (h₀ : d₀.milestones = d.milestones)
    (h₁ : d₁.milestones = d'.milestones) : Tally config r s d₀ files s' d₁ :=
  { h with
    started := by rw [started_congr h₁, h.started, started_congr h₀]
    failures := by rw [failures_congr h₁, h.failures, failures_congr h₀] }

theorem tally_count (hstarted : d'.started = d.started ++ [f.path])
    (hfails : d'.failures = d.failures ++ f.failure?.toList) (hfresh : fresh.isSome → config.verify)
    (hended : f.Ended config r) : Tally config r s d [f] (count s f.root wrote fresh) d' where
  started := hstarted
  failures := by
    rw [hfails]
    cases hf : f.failure? <;> simp [hf]
  errors := by
    rw [count_errors]
    cases hf : f.root.hasFailure <;> simp [hf]
  stale hv := by
    cases fresh with
    | none => exact count_stale_of_none ..
    | some fresh => simp [hv] at hfresh
  ended := by simpa using hended

/-! ## One file -/

theorem compileSafely_ok (h : (compileSafely config r folder root).run d = (.ok result, d')) :
    d'.standing = d.standing ∧ ∃ compiled, (Compile.compilePlan config r folder root).run d = (compiled, d') ∧
      result = compiled.mapError (·.message) := by
  refine ⟨(quiet_compileSafely ..).leaves.view_eq h, ?_⟩
  rw [run_compileSafely] at h
  split at h
  · cases h
    exact ⟨_, by assumption, rfl⟩
  · cases h
  · cases h
    exact ⟨_, by assumption, rfl⟩

theorem compileSafely_frame (he : (event e).completed? = none)
    (h : (compileSafely config r folder root).run (d.after e) = (.ok result, d')) :
    d'.disk = d.disk ∧ d'.completed = d.completed := by
  have hstand := (quiet_compileSafely folder root).leaves.view_eq h
  have hdone := completed_congr (congrArg Prod.snd hstand)
  exact ⟨congrArg Prod.fst hstand, hdone.trans (completed_after_of_none he d)⟩

inductive Closes (path : String) (index total : Int) : Option String → Event → Prop where
  | completed (output : String) (elapsed : Number.Binary64) :
    Closes path index total none (.fileCompleted path output elapsed index total)
  | failed (message : String) (elapsed : Number.Binary64) :
    Closes path index total (some message) (.fileError path message elapsed index total)

structure Closed (config : Config) (f : Compiled) (index total : Int) (s : Summary) (d : Desk) (s' : Summary)
    (d' : Desk) : Prop where
  reported : ∃ d₁ e, d.Follows d₁ ∧ Closes f.path index total f.error e ∧ d' = d₁.after e
  counted : ∃ wrote fresh, (wrote = true → f.error = none) ∧ (Option.isSome fresh → config.verify) ∧
    s' = count s f.root wrote fresh

section

variable {path output message : String} {elapsed : Number.Binary64} {index total : Int}

theorem closed_completed (h : d.Follows d₁) (hfresh : fresh.isSome → config.verify) :
    Closed config ⟨path, root, none⟩ index total s d (count s root wrote fresh)
      (d₁.after (.fileCompleted path output elapsed index total)) :=
  ⟨⟨d₁, _, h, .completed output elapsed, rfl⟩, wrote, fresh, fun _ => rfl, hfresh, rfl⟩

theorem closed_failed : Closed config ⟨path, root, some message⟩ index total s d (count s root false none)
    (d.after (.fileError path message elapsed index total)) :=
  ⟨⟨d, _, Desk.Frame.refl d, .failed message elapsed, rfl⟩, false, none, nofun, nofun, rfl⟩

theorem Closed.of_follows (h : Closed config f index total s d₁ s' d') (hd : d.Follows d₁) :
    Closed config f index total s d s' d' := by
  obtain ⟨d₂, e, hfollows, hcloses⟩ := h.reported
  exact { h with reported := ⟨d₂, e, Desk.Frame.trans hd hfollows, hcloses⟩ }

end

theorem deliver_ok {text : String} (h : (deliver config base index total input root text s).run d = (.ok s', d')) :
    ∃ error, (error = none ∨ text = "" ∧ error = some failed) ∧
      Closed config ⟨input, root, error⟩ index total s d s' d' := by
  rw [deliver, run_bind_of_ok (run_get d)] at h
  split at h
  · rename_i folder hver _
    obtain ⟨path, -, h⟩ := bind_lift_ok h
    split at h
    · cases h
      exact ⟨none, .inl rfl, closed_completed (Desk.Frame.refl d) fun _ => hver⟩
    · obtain ⟨fresh, d₁, hcompare, h⟩ := bind_ok h
      have hfollows := (Moves.map _ (quiet_compare ..)).of_run hcompare
      cases h
      exact ⟨none, .inl rfl, closed_completed hfollows.follows fun _ => hver⟩
  · split at h
    · rename_i hempty
      cases h
      exact ⟨some failed, .inr ⟨eq_of_beq hempty, rfl⟩, closed_failed⟩
    · obtain ⟨path, d₁, hwrite, h⟩ := bind_ok h
      have hfollows := (adds_writeBelow ..).of_run hwrite
      cases h
      exact ⟨none, .inl rfl, closed_completed hfollows nofun⟩

theorem handOver_ok
    (h : (handOver config base index total input root s (compiled.mapError (·.message))).run d = (.ok s', d')) :
    ∃ error, (Compiled.mk input root error).Ends compiled ∧
      Closed config ⟨input, root, error⟩ index total s d s' d' := by
  cases compiled with
  | error c =>
    cases h
    exact ⟨some c.message, rfl, closed_failed⟩
  | ok text => exact deliver_ok h

theorem handSingle_ok (h : (handSingle config cwd root s (compiled.mapError (·.message))).run d = (.ok s', d')) :
    ∃ error, (Compiled.mk root.directive.source root error).Ends compiled ∧
      Closed config ⟨root.directive.source, root, error⟩ 0 1 s d s' d' := by
  cases compiled with
  | error c =>
    cases h
    exact ⟨some c.message, rfl, closed_failed⟩
  | ok text =>
    dsimp only [Except.mapError, handSingle] at h
    split at h
    · rename_i file hver _
      obtain ⟨fresh, d₁, hcompare, h⟩ := bind_ok h
      have hfollows := (quiet_compare ..).of_run hcompare
      cases h
      rw [Bool.and_eq_true] at hver
      exact ⟨none, .inl rfl, closed_completed hfollows.follows fun _ => hver.1⟩
    · split at h
      · rename_i hempty
        cases h
        exact ⟨some failed, .inr ⟨eq_of_beq hempty, rfl⟩, closed_failed⟩
      · obtain ⟨_, d₁, hwrite, h⟩ := bind_ok h
        have hfollows := (adds_writeResult _).of_run hwrite
        cases h
        exact ⟨none, .inl rfl, closed_completed hfollows nofun⟩

/-- A file is worked on: it is begun, its plan is compiled, and it ends with the result. -/
structure Treated (config : Config) (r : Registry) (f : Compiled) (index total : Int) (s : Summary) (d : Desk)
    (s' : Summary) (d' : Desk) : Prop where
  ended : f.Ended config r
  closed : Closed config f index total s (d.after (.fileStarted f.path f.root.count index total)) s' d'

theorem treated_of_compiled {path : String} {index total : Int} {error : Option String}
    (hcomp : (Compile.compilePlan config r folder root).run (d.after (.fileStarted path root.count index total)) =
      (compiled, d₁)) (hends : (Compiled.mk path root error).Ends compiled)
    (hclosed : Closed config ⟨path, root, error⟩ index total s d₁ s' d') :
    Treated config r ⟨path, root, error⟩ index total s d s' d' :=
  ⟨⟨folder, _, d₁, compiled, hcomp, hends⟩,
    hclosed.of_follows ((Compile.quiet_compilePlan folder root).of_run hcomp).follows⟩

theorem processSingle_ok (h : (processSingle config r root s).run d = (.ok s', d')) :
    ∃ error, Treated config r ⟨root.directive.source, root, error⟩ 0 1 s d s' d' := by
  rw [processSingle_eq, run_bind_of_ok (run_get d), run_bind_of_ok (run_emit ..)] at h
  obtain ⟨result, d₁, hsafely, h⟩ := bind_ok h
  obtain ⟨-, compiled, hcomp, rfl⟩ := compileSafely_ok hsafely
  obtain ⟨error, hends, hclosed⟩ := handSingle_ok h
  exact ⟨error, treated_of_compiled hcomp hends hclosed⟩

section

variable {base : Path} {total index : Nat} {input : String} {rest : List (String × Node)}

theorem compileFiles_cons_ok
    (h : (compileFiles config r base total index s ((input, root) :: rest)).run d = (.ok s', d')) :
    ∃ result d₁ s₁ d₂, (compileSafely config r (Target.folderBelow d.disk.folder base config.outputFolder input)
        root).run (d.after (.fileStarted input root.count index total)) = (.ok result, d₁) ∧
      (d₁.disk = d.disk ∧ d₁.completed = d.completed) ∧
      (handOver config base index total input root s result).run d₁ = (.ok s₁, d₂) ∧
      (compileFiles config r base total (index + 1) s₁ rest).run d₂ = (.ok s', d') := by
  rw [compileFiles_cons, run_bind_of_ok (run_get d), run_bind_of_ok (run_emit ..)] at h
  obtain ⟨result, d₁, hcompile, h⟩ := bind_ok h
  obtain ⟨s₁, d₂, hhand, h⟩ := bind_ok h
  exact ⟨result, d₁, s₁, d₂, hcompile, compileSafely_frame rfl hcompile, hhand, h⟩

theorem exists_treated (h : (compileFiles config r base total index s ((input, root) :: rest)).run d = (.ok s', d')) :
    ∃ error s₁ d₁, Treated config r ⟨input, root, error⟩ index total s d s₁ d₁ ∧
      (compileFiles config r base total (index + 1) s₁ rest).run d₁ = (.ok s', d') := by
  obtain ⟨result, d₁, s₁, d₂, hsafely, -, hhand, h⟩ := compileFiles_cons_ok h
  obtain ⟨-, compiled, hcomp, rfl⟩ := compileSafely_ok hsafely
  obtain ⟨error, hends, hclosed⟩ := handOver_ok hhand
  exact ⟨error, s₁, d₂, treated_of_compiled hcomp hends hclosed, h⟩

end

theorem Treated.tally {index total : Int} (h : Treated config r f index total s d s' d') :
    Tally config r s d [f] s' d' := by
  obtain ⟨path, root, error⟩ := f
  obtain ⟨d₁, e, hfollows, hcloses, rfl⟩ := h.closed.reported
  obtain ⟨wrote, fresh, -, hfresh, rfl⟩ := h.closed.counted
  have hmiles := hfollows.milestones
  refine tally_count ?_ ?_ hfresh h.ended
  · rw [started_after, started_congr hmiles, started_after]
    cases hcloses <;> exact append_nil _
  · rw [failures_after, failures_congr hmiles, failures_after]
    cases hcloses <;> exact congrArg (· ++ _) (append_nil _)

/-! ## Many files -/

/-- Files are worked on one after the other, by their numbers. -/
inductive Treats (config : Config) (r : Registry) (total : Int) :
    Int → Summary → Desk → List Compiled → Summary → Desk → Prop where
  | nil (index : Int) (s : Summary) (d : Desk) : Treats config r total index s d [] s d
  | cons {f : Compiled} {files : List Compiled} {index : Int} {s s₁ s' : Summary} {d d₁ d' : Desk}
    (h : Treated config r f index total s d s₁ d₁) (hrest : Treats config r total (index + 1) s₁ d₁ files s' d') :
    Treats config r total index s d (f :: files) s' d'

theorem Treats.tally {index total : Int} (h : Treats config r total index s d files s' d') :
    Tally config r s d files s' d' := by
  induction h with
  | nil => exact .nil rfl
  | cons h _ ih => exact h.tally.append ih

theorem compileFiles_ok (h : (compileFiles config r base total index s plans).run d = (.ok s', d')) :
    ∃ files, files.map (fun f => (f.path, f.root)) = plans ∧ Treats config r total index s d files s' d' := by
  induction plans generalizing index s d with
  | nil =>
    cases h
    exact ⟨[], rfl, .nil ..⟩
  | cons plan rest ih =>
    obtain ⟨input, root⟩ := plan
    obtain ⟨error, s₁, d₁, htreated, h⟩ := exists_treated h
    obtain ⟨files, hfiles, htreats⟩ := ih h
    exact ⟨⟨input, root, error⟩ :: files, by rw [map_cons, hfiles], .cons htreated htreats⟩

/-- The input is worked on: all files are planned, then one after the other is compiled and handed over. -/
structure Worked (config : Config) (r : Registry) (s : Summary) (d : Desk) (files : List Compiled) (s' : Summary)
    (d' : Desk) : Prop where
  treats : ∃ d₀ d₁, d₀.milestones = d.milestones ∧ Treats config r files.length 0 s d₀ files s' d₁ ∧
    (d' = d₁ ∨ d' = d₁.after (.compilationComplete s'.ok s'.errors))
  planned : ∀ f ∈ files, f.PlannedOn config r d.disk

theorem Worked.tally (h : Worked config r s d files s' d') : Tally config r s d files s' d' := by
  obtain ⟨d₀, d₁, hd₀, htreats, rfl | rfl⟩ := h.treats <;> exact htreats.tally.congr hd₀.symm rfl

theorem processFolder_ok (h : (processFolder config r s).run d = (.ok s', d')) :
    ∃ files, Worked config r s d files s' d' := by
  rw [processFolder, run_bind_of_ok (run_get d)] at h
  obtain ⟨paths, -, h⟩ := bind_lift_ok h
  split at h
  · cases h
    refine ⟨[], ⟨_, _, ?_, .nil .., .inl rfl⟩, forall_mem_nil _⟩
    rfl
  · obtain ⟨plans, d₁, hplans, h⟩ := bind_ok h
    obtain ⟨chosen, htargets, h⟩ := bind_lift_ok h
    rw [run_bind_of_ok (run_emit ..)] at h
    obtain ⟨s₁, d₂, hcompile, h⟩ := bind_ok h
    cases h
    obtain ⟨files, rfl, htreats⟩ := compileFiles_ok hcompile
    rw [length_map] at htreats
    refine ⟨files, ⟨_, d₂, ?_, htreats, .inr rfl⟩, fun f hf => ?_⟩
    · exact (milestones_after rfl d₁).trans ((leaves_planAll _).milestones.view_eq hplans)
    obtain ⟨d₀, d₁, hd₀, hplan⟩ := planAll_ok hplans _ ((targets_sublist htargets).subset (mem_map_of_mem hf))
    exact ⟨.file f.path, d₀, d₁, .inl rfl, hd₀, hplan⟩

theorem processInput_ok (h : (processInput config r s).run d = (.ok s', d')) :
    ∃ files, Worked config r s d files s' d' := by
  have hsingle (subject : Subject) (hsubject : subject = .file config.input ∨ subject = .text config.input)
      (h : (subject.plan config r >>= fun root => processSingle config r root s).run d = (.ok s', d')) :
      ∃ files, Worked config r s d files s' d' := by
    obtain ⟨root, d₁, hplan, h⟩ := bind_ok h
    obtain ⟨error, htreated⟩ := processSingle_ok h
    have hd₁ : d₁.milestones = d.milestones := (quiet_plan subject).leaves.milestones.view_eq hplan
    refine ⟨[⟨root.directive.source, root, error⟩], ⟨d₁, d', hd₁, .cons htreated (.nil ..), .inl rfl⟩, ?_⟩
    exact forall_mem_singleton.2 ⟨subject, d, d₁, .inr ⟨rfl, hsubject⟩, rfl, hplan⟩
  rw [processInput] at h
  split at h
  · exact hsingle _ (.inl rfl) h
  · exact processFolder_ok h
  · exact hsingle _ (.inr rfl) h

/-! ## Whole sessions -/

theorem exitOf_counts {verify : Bool} (hstale : verify = false → s.stale = 0) :
    exitOf (if s.errors > 0 || (verify && s.stale > 0) then .error (.exit 1) else .ok ()) =
      .ok (if 0 < s.errors ∨ 0 < s.stale then 1 else 0) := by
  have hcode : (s.errors > 0 || (verify && s.stale > 0)) = decide (0 < s.errors ∨ 0 < s.stale) := by
    cases verify with
    | true => simp
    | false => simp [hstale rfl]
  rw [hcode]
  by_cases hcount : 0 < s.errors ∨ 0 < s.stale
  · rw [if_pos hcount, if_pos (decide_eq_true hcount)]
    rfl
  · rw [if_neg hcount, if_neg (by simpa using hcount)]
    rfl

def WorksWith (d : Disk) (i : Invocation) (config : Config) (r : Registry) : Prop :=
  ∃ asked opened d₁ d₂ d₃, (readCommand i).run (desk d i) = (.ok asked, opened) ∧
    (completeConfig asked).run opened = (.ok config, d₁) ∧
    (loadPlugins config i.entries).run d₂ = (.ok r, d₃)

/-- How a session accounts for the files that were begun: each was planned on the disk that it started with, the
failures are theirs, and those with errors are counted. The code is 1 if there are any, or if an output is out of
date. -/
structure Account (d : Disk) (i : Invocation) (s : Summary) (config : Config) (r : Registry)
    (files : List Compiled) : Prop where
  works : WorksWith d i config r
  planned : ∀ f ∈ files, f.PlannedOn config r d
  ended : ∀ f ∈ files, f.Ended config r
  started : (ending d i).2.started = files.map (·.path)
  failures : (ending d i).2.failures = files.filterMap Compiled.failure?
  errors : s.errors = files.countP (·.root.hasFailure)
  exit : (run d i).exit = .ok (if 0 < s.errors ∨ 0 < s.stale then 1 else 0)

theorem exists_account {d : Disk} {s : Summary} (h : .event (.sessionComplete s) ∈ (ending d i).2.log) :
    ∃ config r files, Account d i s config r files := by
  obtain ⟨request, asked, config, r, loaded, cache, hopens, hinit, hlist⟩ := exists_opens h
  obtain ⟨done, hinput, hend⟩ := hopens.processInput_ok hinit hlist h
  obtain ⟨files, hworked⟩ := processInput_ok hinput
  have hload : loaded.standing = (d, []) := (leaves_loadPlugins i.entries).view_eq hopens.loads
  have htally := hworked.tally
  refine ⟨config, r, files, {
    works := ⟨asked, _, _, _, _, hopens.reads, hopens.completes, hopens.loads⟩
    planned := ?_, ended := htally.ended, started := ?_, failures := ?_, errors := ?_, exit := ?_ }⟩
  · have hplanned := hworked.planned
    rwa [show loaded.disk = d from congrArg Prod.fst hload] at hplanned
  · have hstarted : loaded.started = [] := started_congr (congrArg Prod.snd hload) (d := desk d i)
    rw [hend, started_after, htally.started]
    exact (append_nil _).trans (congrArg (· ++ _) hstarted)
  · have hfails : loaded.failures = [] := failures_congr (congrArg Prod.snd hload) (d := desk d i)
    rw [hend, failures_after, htally.failures]
    exact (append_nil _).trans (congrArg (· ++ _) hfails)
  · have herrors := htally.errors
    simpa using herrors
  · rw [run_exit, hend, exitOf_counts htally.stale]

theorem Account.failures_counted {d : Disk} {s : Summary} (h : Account d i s config r files)
    (hplans : ∀ f ∈ files, f.error.isSome → f.root.hasFailure) :
    (ending d i).2.failures.length ≤ s.errors ∧ ((ending d i).2.failures ≠ [] → (run d i).exit = .ok 1) := by
  have hlen : (ending d i).2.failures.length ≤ s.errors := by
    rw [h.failures, h.errors, length_filterMap_eq_countP, Int.ofNat_le]
    refine countP_mono_left fun f hf herror => hplans f hf ?_
    simpa [Compiled.failure?] using herror
  refine ⟨hlen, fun hne => ?_⟩
  have hpos := length_pos_iff.2 hne
  rw [h.exit, if_pos (.inl (by omega))]

namespace Sample

def disk : Disk where
  folder := { root := "/", parts := ["p"] }
  entries := [(["p"], .folder), (["p", "t.csv"], .file "a\n1\n".toUTF8), (["b.md"], .file "".toUTF8),
    (["p", "a.md"], .file "```yaml embedm\ntype: table\nsource: t.csv\nfilter: \x7ba: 1\x7d\n```\n".toUTF8)]

def outside : Invocation := { words := ["/b.md"] }

def filtered : Invocation := { words := ["a.md"] }

end Sample

open Sample

end Session

end Transclude
