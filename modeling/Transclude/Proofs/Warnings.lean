import Transclude.Proofs.Routes

/-!
# Configuration files with warnings

A key of a configuration file that is no field is only warned of (`OnlyWarns.ofEntries_filter`). But a session ends
with the warnings as its errors, while one whose file is without the key goes on (`session_of_warnings`).
-/

namespace Transclude

open List

theorem Level.error_ne_warning : Level.error ≠ .warning := by decide

namespace Config

/-! ## Entries -/

def isKnown (e : Value × Value) : Bool := (Field.ofKey? e.1).isSome

def setting? (e : Value × Value) : Option (Field × Value) :=
  match Field.ofKey? e.1 with
  | none => none
  | some f => if f.form.accepts e.2 then some (f, e.2) else none

def entryProblem? (e : Value × Value) : Option Problem :=
  match Field.ofKey? e.1 with
  | none => some (.unknownKey e.1.asText)
  | some f => if f.form.accepts e.2 then none else some (.wrongForm e.1.asText f.form e.2.kind)

variable {entries : List (Value × Value)} {e : Value × Value} {p : Problem}

theorem ofKey?_of_isKnown (h : isKnown e = false) : Field.ofKey? e.1 = none :=
  Option.isNone_iff_eq_none.1 (Option.isSome_eq_false_iff.1 h)

theorem readEntry_eq (found : List (Field × Value) × List Problem) (e : Value × Value) :
    readEntry found e = (found.1 ++ (setting? e).toList, found.2 ++ (entryProblem? e).toList) := by
  rw [readEntry, setting?, entryProblem?]
  cases Field.ofKey? e.1 with
  | none => simp
  | some f => cases h : f.form.accepts e.2 <;> simp [h]

theorem foldl_readEntry (found : List (Field × Value) × List Problem) (entries : List (Value × Value)) :
    entries.foldl readEntry found =
      (found.1 ++ entries.filterMap setting?, found.2 ++ entries.filterMap entryProblem?) := by
  induction entries generalizing found with
  | nil => simp
  | cons e entries ih =>
    rw [foldl_cons, ih, readEntry_eq]
    cases hs : setting? e <;> cases hp : entryProblem? e <;> simp [hs, hp]

def valueProblems (entries : List (Value × Value)) : List Problem :=
  let ofField := fun (f : Field) => ((entries.filterMap setting?).filter (·.1 == f)).flatMap fieldProblems
  ofField .settings ++ ofField .lineEndings

def assigned (entries : List (Value × Value)) : Config :=
  (entries.filterMap setting?).foldl (fun c e => c.set e.1 e.2) {}

def entryStatuses (entries : List (Value × Value)) : List Status :=
  (entries.filterMap entryProblem? ++ valueProblems entries).map (·.status)

theorem ofEntries_eq (entries : List (Value × Value)) : ofEntries entries =
    if (entryStatuses entries).any (·.level == .error) then ({}, entryStatuses entries)
    else match rangeProblem? (assigned entries) with
      | some p => ({}, [p.status])
      | none => (assigned entries, entryStatuses entries) := by
  rw [ofEntries, foldl_readEntry]
  simp only [nil_append, append_assoc]
  rfl

/-! ## Unknown keys -/

theorem rangeProblem_ne_warning {c : Config} (h : rangeProblem? c = some p) : p.status.level ≠ .warning := by
  rw [rangeProblem?] at h
  split_ifs at h <;> cases h <;> exact Level.error_ne_warning

theorem fieldProblem_ne_warning {x : Field × Value} (h : p ∈ fieldProblems x) : p.status.level ≠ .warning := by
  rw [fieldProblems.eq_def] at h
  split at h
  · obtain ⟨e, -, he⟩ := mem_filterMap.1 h
    rw [settingsProblem?] at he
    split at he <;> cases he
    exact Level.error_ne_warning
  · split_ifs at h
    · cases h
    · rw [mem_singleton.1 h]
      exact Level.error_ne_warning
  · cases h

theorem valueProblem_ne_warning (h : p ∈ valueProblems entries) : p.status.level ≠ .warning := by
  rw [valueProblems, mem_append, mem_flatMap, mem_flatMap] at h
  obtain ⟨x, -, hx⟩ | ⟨x, -, hx⟩ := h <;> exact fieldProblem_ne_warning hx

theorem entryProblem_ne_warning (h : entryProblem? e = some p) (hknown : isKnown e = true) :
    p.status.level ≠ .warning := by
  obtain ⟨f, hf⟩ := Option.isSome_iff_exists.1 hknown
  rw [entryProblem?, hf] at h
  dsimp only at h
  split_ifs at h
  cases h
  exact Level.error_ne_warning

structure OnlyWarns (entries : List (Value × Value)) : Prop where
  entry : ∀ e ∈ entries, isKnown e = true → entryProblem? e = none
  value : valueProblems entries = []
  range : rangeProblem? (assigned entries) = none

theorem onlyWarns_of_statuses (h : ∀ w ∈ (ofEntries entries).2, w.level = .warning) : OnlyWarns entries := by
  rw [ofEntries_eq] at h
  split_ifs at h with herror
  · obtain ⟨w, hw, hlevel⟩ := any_eq_true.1 herror
    rw [h w hw] at hlevel
    cases hlevel
  cases hrange : rangeProblem? (assigned entries) with
  | some p =>
    rw [hrange] at h
    exact absurd (h p.status (mem_singleton_self _)) (rangeProblem_ne_warning hrange)
  | none =>
    rw [hrange] at h
    -- the statuses are those of all problems, so no problem is worse than a warning
    have hprob : ∀ p ∈ entries.filterMap entryProblem? ++ valueProblems entries, p.status.level = .warning :=
      fun p hp => h p.status (mem_map_of_mem hp)
    rw [forall_mem_append] at hprob
    refine ⟨fun e he hknown => ?_, ?_, hrange⟩
    · rw [Option.eq_none_iff_forall_ne_some]
      intro p hp
      exact entryProblem_ne_warning hp hknown (hprob.1 p (mem_filterMap.2 ⟨e, he, hp⟩))
    · rw [eq_nil_iff_forall_not_mem]
      intro p hp
      exact valueProblem_ne_warning hp (hprob.2 p hp)

def unknownKeys (entries : List (Value × Value)) : List Status :=
  (entries.filter (!isKnown ·)).map fun e => (Problem.unknownKey e.1.asText).status

theorem OnlyWarns.problems (h : OnlyWarns entries) :
    (entries.filterMap entryProblem?).map (·.status) = unknownKeys entries := by
  rw [unknownKeys, map_filterMap, ← filterMap_eq_map, filterMap_filter]
  refine filterMap_congr fun e he => ?_
  cases hknown : isKnown e with
  | true => simp [h.entry e he hknown]
  | false => simp [entryProblem?, ofKey?_of_isKnown hknown]

theorem OnlyWarns.ofEntries_eq (h : OnlyWarns entries) :
    ofEntries entries = (assigned entries, unknownKeys entries) := by
  have hstatuses : entryStatuses entries = unknownKeys entries := by rw [entryStatuses, h.value, append_nil, h.problems]
  have hnone : (unknownKeys entries).any (·.level == .error) = false := by
    rw [any_eq_false]
    intro w hw
    obtain ⟨e, -, rfl⟩ := mem_map.1 hw
    exact Bool.false_ne_true
  rw [Config.ofEntries_eq, hstatuses, hnone, if_neg Bool.false_ne_true, h.range]

theorem filterMap_setting?_filter (entries : List (Value × Value)) :
    (entries.filter isKnown).filterMap setting? = entries.filterMap setting? := by
  rw [filterMap_filter]
  refine filterMap_congr fun e _ => ?_
  cases hknown : isKnown e with
  | true => rfl
  | false => simp [setting?, ofKey?_of_isKnown hknown]

theorem OnlyWarns.filter (h : OnlyWarns entries) : OnlyWarns (entries.filter isKnown) where
  entry e he := h.entry e (mem_filter.1 he).1
  value := by
    rw [valueProblems, filterMap_setting?_filter]
    exact h.value
  range := by
    rw [assigned, filterMap_setting?_filter]
    exact h.range

theorem OnlyWarns.ofEntries_filter (h : OnlyWarns entries) :
    ofEntries (entries.filter isKnown) = (assigned entries, []) := by
  have hnone : unknownKeys (entries.filter isKnown) = [] := by
    rw [unknownKeys, filter_eq_nil_iff.2 (by simp), map_nil]
  rw [h.filter.ofEntries_eq, hnone, assigned, filterMap_setting?_filter]
  rfl

/-! ## Files -/

def entries? : Value → Option (List (Value × Value))
  | .null => some []
  | .map entries => some entries
  | _ => none

theorem entries?_eq_some {v : Value} (h : entries? v = some entries) : v = .null ∧ entries = [] ∨ v = .map entries := by
  cases v with
  | null =>
    cases h
    exact .inl ⟨rfl, rfl⟩
  | map =>
    cases h
    exact .inr rfl
  | _ => cases h

def Holds (d : Disk) (path : String) (entries : List (Value × Value)) : Prop :=
  ∃ bytes text v, d.probe (Path.ofText path).text = .ok (some (.file bytes)) ∧
    d.text (Path.ofText path).text = .ok text ∧ Yaml.read text = .ok v ∧ entries? v.plain = some entries

variable {d : Disk} {path : String}

theorem Holds.load_eq (h : Holds d path entries) : load d path = .ok (ofEntries entries) := by
  obtain ⟨bytes, text, v, hprobe, htext, hread, hents⟩ := h
  rw [load, hprobe]
  dsimp only [Except.mapError]
  rw [Except.ok_bind]
  rw [htext]
  rw [Except.ok_bind, hread]
  dsimp only
  rcases entries?_eq_some hents with ⟨hnull, rfl⟩ | hmap
  · rw [hnull]
    rfl
  · rw [hmap]
    rfl

theorem Holds.unique {entries' : List (Value × Value)} (h : Holds d path entries) (h' : Holds d path entries') :
    entries' = entries := by
  obtain ⟨bytes, text, v, -, htext, hread, hents⟩ := h
  obtain ⟨bytes', text', v', -, htext', hread', hents'⟩ := h'
  obtain rfl := Except.ok.inj (htext.symm.trans htext')
  obtain rfl := Except.ok.inj (hread.symm.trans hread')
  exact Option.some.inj (hents'.symm.trans hents)

theorem holds_of_load {file : Config} {warnings : List Status} (h : load d path = .ok (file, warnings))
    (hwarnings : ∀ w ∈ warnings, w.level = .warning) : ∃ entries, Holds d path entries := by
  have hfatal {p : Problem} (hsame : (({} : Config), [p.status]) = (file, warnings))
      (hp : p.status.level ≠ .warning) : ∃ entries, Holds d path entries := by
    cases hsame
    exact absurd (hwarnings p.status (mem_singleton_self _)) hp
  obtain ⟨found, hprobe, h⟩ := Except.of_bind_eq_ok h
  split at h
  · rename_i bytes
    obtain ⟨text, htext, h⟩ := Except.of_bind_eq_ok h
    have hprobe := Except.of_mapError_eq_ok hprobe
    have htext := Except.of_mapError_eq_ok htext
    split at h
    · exact hfatal (Except.ok.inj h) Level.error_ne_warning
    · cases h
    · rename_i v hread
      split at h
      · rename_i hnull
        exact ⟨[], bytes, text, v, hprobe, htext, hread, by rw [hnull]; rfl⟩
      · rename_i entries hmap
        exact ⟨entries, bytes, text, v, hprobe, htext, hread, by rw [hmap]; rfl⟩
      · exact hfatal (Except.ok.inj h) Level.error_ne_warning
  · exact hfatal (Except.ok.inj h) Level.error_ne_warning

end Config

namespace Session

open Work

variable {d : Disk} {i : Invocation} {asked : Config} {path : String} {texts : List (String × String)}

/-! ## The end of a session with errors -/

def errorLineOf (s : Status) : String := s!"error: {s.text}" ++ "\n"

theorem run_presentErrors (errors : List Status) (x : Desk) : (Compile.presentErrors errors).run x =
    (.ok (), { x with past := (errors.map fun e => .err (errorLineOf e)).reverse ++ x.past }) := by
  induction errors generalizing x with
  | nil => rfl
  | cons e errors ih =>
    have hcons : Compile.presentErrors (e :: errors) =
        errorLine s!"error: {e.text}" >>= fun _ => Compile.presentErrors errors := by
      simp [Compile.presentErrors]
    have hline : (errorLine s!"error: {e.text}").run x =
        (.ok (), { x with past := .err (errorLineOf e) :: x.past }) := rfl
    rw [hcons, run_bind_of_ok hline, ih, map_cons, reverse_cons, append_assoc]
    rfl

theorem outText_errors (lines : List String) : outText (lines.map .err) = "" := by
  induction lines with
  | nil => rfl
  | cons line lines ih => simpa [outText] using ih

theorem Renderer.errorText_errors (renderer : Renderer) (lines : List String) :
    renderer.errorText (lines.map .err) = String.join lines := by
  induction lines with
  | nil => rfl
  | cons line lines ih => rw [map_cons, Renderer.errorText, ih, String.join_cons]

/-! ## Sessions with a configuration file -/

def proceedWith (i : Invocation) (config : Config) : Work Unit := do
  let cwd := (← get).disk.folder
  let label := targetLabel cwd config
  let source := (config.configFile.filter (· != "")).getD "DEFAULT"
  Work.emit (.sessionStarted version source config.mode.name label)
  if config.listPlugins then listPlugins config i.entries
  else
    let registry ← loadPlugins config i.entries
    let cache ← Work.lift (cacheOf config)
    modify fun d => { d with cache, acceptAll := config.acceptAll }
    conclusion config registry { target := label }

theorem proceed_eq (i : Invocation) (hinit : asked.initPath = none) :
    proceed i asked = completeConfig asked >>= proceedWith i := by
  rw [proceed]
  simp only [hinit]
  rfl

structure Uses (d : Disk) (i : Invocation) (asked : Config) (path : String) : Prop where
  reads : (readCommand i).run (desk d i) = (.ok asked, desk d i)
  runs : asked.initPath = none
  seeks : soughtFile d asked = .ok (some path)

namespace Uses

variable {file : Config} {errors : List Status}

theorem ending_eq (h : Uses d i asked path) : ending d i = (completeConfig asked >>= proceedWith i).run (desk d i) := by
  rw [ending, h.reads]
  dsimp only
  rw [proceed_eq i h.runs]

theorem completeConfig_eq (h : Uses d i asked path) :
    (completeConfig asked).run (desk d i) = (completeFrom asked d (some path)).run (desk d i) := by
  rw [completeConfig_run, desk_disk, h.seeks, run_bind_of_ok (run_lift_ok _ _)]

theorem goes_on (h : Uses d i asked path) (hload : Config.load d path = .ok (file, [])) :
    ending d i = (proceedWith i (asked.merge file path)).run (desk d i) := by
  have hdone : (completeFrom asked d (some path)).run (desk d i) = (.ok (asked.merge file path), desk d i) := by
    rw [completeFrom, hload]
    rfl
  rw [h.ending_eq, run_bind_of_ok (h.completeConfig_eq.trans hdone)]

theorem stops (h : Uses d i asked path) (hload : Config.load d path = .ok (file, errors)) (hne : errors ≠ []) :
    ending d i = (.error (.exit 1), { desk d i with past := (errors.map fun e => .err (errorLineOf e)).reverse }) := by
  have hexits : (exitIfErrors errors).run (desk d i) =
      (.error (.exit 1), { desk d i with past := (errors.map fun e => .err (errorLineOf e)).reverse }) := by
    have hgiven : (!errors.isEmpty) = true := by simpa using hne
    rw [exitIfErrors, if_pos hgiven, run_bind_of_ok (run_presentErrors errors _)]
    rw [show (desk d i).past = [] from rfl, append_nil]
    rfl
  have hdone : (completeFrom asked d (some path)).run (desk d i) =
      (.error (.exit 1), { desk d i with past := (errors.map fun e => .err (errorLineOf e)).reverse }) := by
    rw [completeFrom, hload, run_bind_of_ok (run_lift_ok _ _)]
    exact run_bind_of_error hexits
  rw [h.ending_eq, run_bind_of_error (h.completeConfig_eq.trans hdone)]

theorem run_of_errors (h : Uses d i asked path) (hload : Config.load d path = .ok (file, errors)) (hne : errors ≠ []) :
    run d i = { exit := .ok 1, stdout := "", stderr := String.join (errors.map errorLineOf), disk := d } := by
  obtain ⟨renderer, hrun⟩ := run_eq d i
  have hlog : (ending d i).2.log = (errors.map errorLineOf).map .err := by
    rw [h.stops hload hne, Desk.log, reverse_reverse, map_map]
    rfl
  rw [hrun, hlog, outText_errors, renderer.errorText_errors, h.stops hload hne]
  rfl

end Uses

/-- A session whose configuration file has only warnings, which are those of the keys that are no fields: without
these keys it goes on with the configuration; with them it ends, with the warnings as its errors. -/
theorem session_of_warnings {file : Config} {warnings : List Status} (h : Uses d i asked path)
    (hload : Config.load d path = .ok (file, warnings)) (hwarnings : ∀ w ∈ warnings, w.level = .warning) :
    ∃ entries, Config.Holds d path entries ∧ warnings = Config.unknownKeys entries ∧
      (∀ d', Uses d' i asked path → Config.Holds d' path (entries.filter Config.isKnown) →
        ending d' i = (proceedWith i (asked.merge file path)).run (desk d' i)) ∧
      (warnings = [] → ending d i = (proceedWith i (asked.merge file path)).run (desk d i)) ∧
      (warnings ≠ [] → run d i = {
        exit := .ok 1, stdout := "", stderr := String.join (warnings.map errorLineOf), disk := d }) := by
  obtain ⟨entries, hholds⟩ := Config.holds_of_load hload hwarnings
  have hents : Config.ofEntries entries = (file, warnings) := Except.ok.inj (hholds.load_eq.symm.trans hload)
  have honly : Config.OnlyWarns entries := Config.onlyWarns_of_statuses (by rwa [hents])
  obtain ⟨rfl, rfl⟩ := Prod.mk.inj (hents.symm.trans honly.ofEntries_eq)
  refine ⟨entries, hholds, rfl, fun d' huses hcleaned => ?_, fun hnone => ?_, h.run_of_errors hload⟩
  · exact huses.goes_on (hcleaned.load_eq.trans (congrArg _ honly.ofEntries_filter))
  · exact h.goes_on (hnone ▸ hload)

/-!
### A key that is no field

A document with a configuration file beside it, which has one key that is no field, and the same without the key.
-/

namespace Warned

def withFile (text : String) : Disk where
  folder := { root := "/", parts := ["p"] }
  entries := [(["p"], .folder), (["p", "a.md"], .file "A\n".toUTF8), (["p", "embedm-config.yaml"], .file text.toUTF8)]

def disk : Disk := withFile "line_endings: lf\nunknown_key: value\n"

def cleaned : Disk := withFile "line_endings: lf\n"

def plain : Invocation := { words := ["a.md"] }

def given : Config := { input := "a.md" }

def place : String := "/p/embedm-config.yaml"

def entry (e : String × String) : Value × Value := (.text e.1, .text e.2)

def texts? : List (Value × Value) → Option (List (String × String))
  | [] => some []
  | (.text k, .text v) :: rest => (texts? rest).map ((k, v) :: ·)
  | _ => none

theorem eq_of_texts? {entries : List (Value × Value)} (h : texts? entries = some texts) : entries = texts.map entry := by
  fun_induction texts? entries generalizing texts with
  | case1 =>
    cases h
    rfl
  | case2 k v rest ih =>
    obtain ⟨found, hfound, rfl⟩ := Option.map_eq_some_iff.1 h
    rw [ih hfound, map_cons, entry]
  | case3 => cases h

def shown (found : Except Disk.Fault (Option Disk.Entry)) (text : Except Disk.Fault String) :
    Option (List (String × String)) :=
  match found, text with
  | .ok (some (.file _)), .ok text => ((Yaml.read text).toOption.bind fun v => Config.entries? v.plain).bind texts?
  | _, _ => none

theorem holds_of_shown (h : shown (d.probe (Path.ofText place).text) (d.text (Path.ofText place).text) = some texts) :
    Config.Holds d place (texts.map entry) := by
  rw [shown.eq_def] at h
  split at h
  · rename_i bytes text hprobe htext
    obtain ⟨entries, hents, htexts⟩ := Option.bind_eq_some_iff.1 h
    obtain ⟨v, hv, hents⟩ := Option.bind_eq_some_iff.1 hents
    obtain rfl := eq_of_texts? htexts
    refine ⟨bytes, text, v, hprobe, htext, ?_, hents⟩
    cases hread : Yaml.read text <;> rw [hread] at hv <;> cases hv
    rfl
  · cases h

theorem uses {text : String} (hseeks : (soughtFile (withFile text) given).toOption = some (some place)) :
    Uses (withFile text) plain given place where
  reads := by
    let request : CommandLine.Request := { input := some "a.md" }
    have hreq : CommandLine.request plain.words = .ok request := by decide +kernel
    have hconf : request.configure (desk (withFile text) plain).disk false "" = .ok (given, []) := by rfl
    exact run_readCommand hreq hconf
  runs := rfl
  seeks := by
    cases hsought : soughtFile (withFile text) given <;> rw [hsought] at hseeks <;> cases hseeks
    rfl

def entries : List (Value × Value) := [("line_endings", "lf"), ("unknown_key", "value")].map entry

end Warned

open Warned

/-- With the key the session ends, and without it the session goes on. -/
theorem warned_session : ∃ file warnings, Config.load disk place = .ok (file, warnings) ∧
    warnings = [.warning "unknown config key 'unknown_key'"] ∧
    run disk plain = {
      exit := .ok 1, stdout := "", stderr := String.join (warnings.map errorLineOf), disk := disk } ∧
    ending cleaned plain =
      (proceedWith plain (given.merge file place)).run (desk cleaned plain) := by
  have hholds : Config.Holds disk place entries := holds_of_shown (by decide +kernel)
  have hshown : shown (cleaned.probe (Path.ofText place).text)
      (cleaned.text (Path.ofText place).text) = some [("line_endings", "lf")] := by decide +kernel
  have hcleaned : Config.Holds cleaned place (entries.filter Config.isKnown) :=
    holds_of_shown hshown
  have hload : Config.load disk place =
      .ok ((Config.ofEntries entries).1, (Config.ofEntries entries).2) := hholds.load_eq
  obtain ⟨entries, hents, -, hgoes, -, hstops⟩ :=
    session_of_warnings (uses (by decide +kernel)) hload (by decide)
  obtain rfl := hholds.unique hents
  exact ⟨_, _, hload, rfl, hstops (cons_ne_nil _ _), hgoes _ (uses (by decide +kernel)) hcleaned⟩

/-- There is only a warning of the key, but it decides how the session ends. -/
theorem unknown_key_ends_session :
    (Config.load disk place).toOption.map (fun read => read.2.map (·.level)) = some [.warning] ∧
    (run disk plain).exit.toOption = some 1 ∧ (run disk plain).stdout = "" ∧
    (run cleaned plain).exit.toOption = some 0 ∧
    (run cleaned plain).stdout = "A\n" := by
  decide +kernel

end Session

end Transclude
