import Transclude.Proofs.Compiling
import Transclude.Session

/-!
# What work leaves as it is

`Moves` says how the desk before work and the desk after it are related. Planning and compiling keep to every relation
that bears with calm reports (`Desk.Calm`), and so does writing if the disk does not matter (`Desk.Loose`). Work
`Leaves` a view of the desk if the view is the same after it, and is `Quiet` if it leaves the disk and only reports
that it goes on.
-/

namespace Transclude

open Compile Desk

variable {o : Output} {f : Desk → Desk} {R : Desk → Desk → Prop}

namespace Output

def started? : Output → Option String
  | .event (.fileStarted path ..) => some path
  | _ => none

def failure? : Output → Option (String × String)
  | .event (.fileError path message ..) => some (path, message)
  | _ => none

def completed? : Output → Option String
  | .event (.fileCompleted _ output ..) => some output
  | _ => none

def isSummary : Output → Bool
  | .event (.sessionComplete _) => true
  | _ => false

def isMilestone (o : Output) : Bool := o.started?.isSome || o.failure?.isSome || o.completed?.isSome || o.isSummary

def isProgress : Output → Bool
  | .event (.nodeCompiled ..) => true
  | .event (.cache _) => true
  | .event (.diagnostic ..) => true
  | .event _ => false
  | .out _ => true
  | .err _ => true

def Calm : Output → Prop
  | .event e => (Output.event e).isProgress = true
  | .out _ => True
  | .err text => ∃ message : String, text = s!"error: {message}" ++ "\n"

def isNode : Output → Bool
  | .event (.nodeCompiled ..) => true
  | _ => false

theorem Calm.isProgress (h : o.Calm) : o.isProgress = true := by
  cases o with
  | event e => exact h
  | out text => rfl
  | err text => rfl

theorem isMilestone_of_isProgress (h : o.isProgress = true) : o.isMilestone = false := by
  cases o with
  | event e => cases e <;> first | rfl | cases h
  | out text => rfl
  | err text => rfl

end Output

namespace Desk

def milestones (d : Desk) : List Output := d.past.filter Output.isMilestone

def standing (d : Desk) : Disk × List Output := (d.disk, d.milestones)

/-! ## Desks before and after work -/

class Frame (R : Desk → Desk → Prop) : Prop where
  refl : ∀ d, R d d
  trans : ∀ {d₁ d₂ d₃}, R d₁ d₂ → R d₂ d₃ → R d₁ d₃

def Same {γ : Type} (view : Desk → γ) (d d' : Desk) : Prop := view d' = view d

instance {γ : Type} (view : Desk → γ) : Frame (Same view) where
  refl _ := rfl
  trans h₁ h₂ := h₂.trans h₁

def Follows (d d' : Desk) : Prop := ∃ new, d'.past = new ++ d.past ∧ ∀ o ∈ new, o.isProgress = true

instance : Frame Follows where
  refl _ := ⟨[], rfl, by simp⟩
  trans := by
    rintro d₁ d₂ d₃ ⟨new, h, hnew⟩ ⟨new', h', hnew'⟩
    exact ⟨new' ++ new, by rw [h', h, List.append_assoc], List.forall_mem_append.2 ⟨hnew', hnew⟩⟩

theorem Follows.milestones {d d' : Desk} (h : Follows d d') : d'.milestones = d.milestones := by
  obtain ⟨new, hpast, hnew⟩ := h
  have hnone : new.filter Output.isMilestone = [] :=
    List.filter_eq_nil_iff.2 fun o ho => by simp [Output.isMilestone_of_isProgress (hnew o ho)]
  rw [Desk.milestones, hpast, List.filter_append, hnone, List.nil_append, Desk.milestones]

structure Proceeds (d d' : Desk) : Prop where
  disk : d'.disk = d.disk
  follows : Follows d d'

instance : Frame Proceeds where
  refl d := ⟨rfl, Frame.refl d⟩
  trans h₁ h₂ := ⟨h₂.disk.trans h₁.disk, Frame.trans h₁.follows h₂.follows⟩

/-- A frame that holds of all work that adds calm reports and leaves the disk, if no directive is compiled. -/
class Mild (R : Desk → Desk → Prop) : Prop extends Frame R where
  alter : ∀ {d d'}, d'.disk = d.disk → d'.past = d.past → d'.compiled = d.compiled → R d d'
  report : ∀ {o : Output}, o.Calm → o.isNode = false → ∀ d, R d { d with past := o :: d.past }

/-- A frame that holds of all that planning and compiling do: calm reports are added, and the disk stays. -/
class Calm (R : Desk → Desk → Prop) : Prop extends Frame R where
  alter : ∀ {d d'}, d'.disk = d.disk → d'.past = d.past → R d d'
  report : ∀ {o : Output}, o.Calm → ∀ d, R d { d with past := o :: d.past }

instance (priority := low) {R : Desk → Desk → Prop} [Calm R] : Mild R where
  alter hdisk hpast _ := Calm.alter hdisk hpast
  report h _ := Calm.report h

instance : Calm Proceeds where
  alter hdisk hpast := ⟨hdisk, [], hpast, by simp⟩
  report h _ := ⟨rfl, [_], rfl, by simpa using h.isProgress⟩

class Free (R : Desk → Desk → Prop) : Prop extends Mild R where
  free : ∀ {d d'}, d'.past = d.past → R d d'

class Loose (R : Desk → Desk → Prop) : Prop extends Calm R where
  free : ∀ {d d'}, d'.past = d.past → R d d'

instance (priority := low) {R : Desk → Desk → Prop} [Loose R] : Free R where
  free := Loose.free

instance : Loose Follows where
  alter _ hpast := ⟨[], hpast, by simp⟩
  report h _ := ⟨[_], rfl, by simpa using h.isProgress⟩
  free hpast := ⟨[], hpast, by simp⟩

/-- A frame that also holds of the events between files. -/
class Patient (R : Desk → Desk → Prop) : Prop extends Mild R where
  event : ∀ {e : Event}, (Output.event e).isMilestone = false → (Output.event e).isNode = false →
    ∀ d, R d { d with past := .event e :: d.past }

theorem patient_of_standing {γ : Type} {view : Desk → γ} (h : ∀ {d d'}, standing d' = standing d → view d' = view d) :
    Patient (Same view) where
  alter hdisk hpast _ := h (Prod.ext hdisk (congrArg (List.filter Output.isMilestone) hpast))
  report ho _ _ :=
    h (Prod.ext rfl (List.filter_cons_of_neg (by simp [Output.isMilestone_of_isProgress ho.isProgress])))
  event he _ _ := h (Prod.ext rfl (List.filter_cons_of_neg (by simp [he])))

instance : Patient (Same standing) := patient_of_standing id

theorem Proceeds.standing {d d' : Desk} (h : Proceeds d d') : d'.standing = d.standing :=
  Prod.ext h.disk h.follows.milestones

end Desk

namespace Work

variable {α β γ δ : Type} {R : Desk → Desk → Prop} {view : Desk → γ} {m : Work α} {r : Except Crash α} {d d' : Desk}

structure Moves (R : Desk → Desk → Prop) (m : Work α) : Prop where
  run : ∀ d, R d (m.run d).2

abbrev Leaves (view : Desk → γ) (m : Work α) : Prop := Moves (Desk.Same view) m

abbrev Adds (m : Work α) : Prop := Moves Desk.Follows m

abbrev Quiet (m : Work α) : Prop := Moves Desk.Proceeds m

theorem Moves.of_run (h : Moves R m) (hrun : m.run d = (r, d')) : R d d' := by
  have hmoves := h.run d
  rwa [hrun] at hmoves

theorem Moves.imp {R' : Desk → Desk → Prop} (h : Moves R m) (hR : ∀ d d', R d d' → R' d d') : Moves R' m :=
  ⟨fun d => hR _ _ (h.run d)⟩

theorem Adds.milestones (h : Adds m) : Leaves milestones m := h.imp fun _ _ => Desk.Follows.milestones

theorem Quiet.leaves (h : Quiet m) : Leaves standing m := h.imp fun _ _ => Desk.Proceeds.standing

theorem Leaves.view_run (h : Leaves view m) (d : Desk) : view (m.run d).2 = view d := h.run d

theorem Leaves.view_eq (h : Leaves view m) (hrun : m.run d = (r, d')) : view d' = view d := h.of_run hrun

theorem Leaves.comp (h : Leaves view m) (f : γ → δ) : Leaves (fun d => f (view d)) m :=
  ⟨fun d => congrArg f (h.view_run d)⟩

theorem Leaves.milestones (h : Leaves standing m) : Leaves milestones m := h.comp Prod.snd

/-! ## Rules -/

section Rules

variable [Desk.Frame R]

theorem moves_pure (a : α) : Moves R (pure a) := ⟨Desk.Frame.refl⟩

theorem moves_throw (c : Crash) : Moves R (throw c : Work α) := ⟨Desk.Frame.refl⟩

theorem moves_get : Moves R get := ⟨Desk.Frame.refl⟩

theorem moves_lift (r : Except Crash α) : Moves R (lift r) := by
  cases r with
  | ok a => exact moves_pure a
  | error c => exact moves_throw c

theorem run_bind_of {f : α → Work β} (hm : R d (m.run d).2)
    (hf : ∀ a d₁, m.run d = (.ok a, d₁) → R d₁ ((f a).run d₁).2) : R d ((m >>= f).run d).2 := by
  rcases hrun : m.run d with ⟨c | a, d₁⟩ <;> rw [hrun] at hm
  · rwa [run_bind_of_error hrun]
  · rw [run_bind_of_ok hrun]
    exact Desk.Frame.trans hm (hf a d₁ hrun)

theorem run_bind_lift {f : α → Work β} (hf : ∀ a, r = .ok a → R d ((f a).run d).2) :
    R d ((lift r >>= f).run d).2 := by
  cases r with
  | ok a => exact hf a rfl
  | error c => exact Desk.Frame.refl d

theorem Moves.bind {f : α → Work β} (hm : Moves R m) (hf : ∀ a, Moves R (f a)) : Moves R (m >>= f) :=
  ⟨fun d => run_bind_of (hm.run d) fun a d₁ _ => (hf a).run d₁⟩

theorem Moves.map (f : α → β) (h : Moves R m) : Moves R (f <$> m) := by
  exact h.bind fun _ => moves_pure _

theorem moves_forIn {f : α → Work Unit} (h : ∀ x, Moves R (f x)) (l : List α) :
    Moves R (forIn l PUnit.unit fun x _ => do f x; pure (.yield PUnit.unit)) := by
  induction l with
  | nil => exact moves_pure _
  | cons x l ih =>
    rw [List.forIn_cons, bind_assoc]
    exact (h x).bind fun _ => ih

end Rules

theorem Moves.even [Desk.Frame R] (h : Moves R m) (desk : Desk) :
    Even (Alone (R desk)) (fun _ => True) (fun _ => True) m :=
  even_alone fun d hd => ⟨Desk.Frame.trans hd (h.run d), (outcome_self _).imp (fun _ _ => trivial) fun _ _ => trivial⟩

theorem moves_of_even [Desk.Frame R] {P : α → Prop} {E : Crash → Prop} (h : ∀ desk, Even (Alone (R desk)) P E m) : Moves R m :=
  ⟨fun d => (h d d d ⟨rfl, Desk.Frame.refl d⟩).after.2⟩

theorem moves_modify (h : ∀ d, R d (f d)) : Moves R (modify f) := ⟨h⟩

theorem moves_report (h : ∀ d, R d { d with past := o :: d.past }) : Moves R (report o) := ⟨h⟩

theorem Leaves.bind_ne {f : α → Work β} {r : Except Crash β} (hm : Leaves view m)
    (h : (m >>= f).run d = (r, d')) (hne : view d' ≠ view d) :
    ∃ a d₁, m.run d = (.ok a, d₁) ∧ view d₁ = view d ∧ (f a).run d₁ = (r, d') := by
  rcases hrun : m.run d with ⟨c | a, d₁⟩
  · rw [run_bind_of_error hrun] at h
    cases h
    exact absurd (hm.view_eq hrun) hne
  · rw [run_bind_of_ok hrun] at h
    exact ⟨a, d₁, rfl, hm.view_eq hrun, h⟩

/-! ## Quiet steps -/

theorem quiet_report (h : o.isProgress = true) : Quiet (report o) :=
  moves_report fun _ => ⟨rfl, [o], rfl, by simpa using h⟩

/-! ## Reading and asking -/

theorem calm_modify [Desk.Calm R] (hdisk : ∀ d, (f d).disk = d.disk) (hpast : ∀ d, (f d).past = d.past) : Moves R (modify f) :=
  moves_modify fun d => Desk.Calm.alter (hdisk d) (hpast d)

theorem calm_report [Desk.Calm R] (h : o.Calm) : Moves R (report o) := moves_report (Desk.Calm.report h)

section Mild

variable [Desk.Mild R]

theorem mild_modify (hdisk : ∀ d, (f d).disk = d.disk) (hpast : ∀ d, (f d).past = d.past)
    (hcomp : ∀ d, (f d).compiled = d.compiled) : Moves R (modify f) :=
  moves_modify fun d => Desk.Mild.alter (hdisk d) (hpast d) (hcomp d)

theorem mild_report (h : o.Calm) (hnode : o.isNode = false) : Moves R (report o) :=
  moves_report (Desk.Mild.report h hnode)

theorem calm_readFile (path : String) : Moves R (readFile path) := by
  refine .bind moves_get fun desk => .bind (moves_lift _) fun reply => ?_
  refine .bind (mild_modify (fun _ => rfl) (fun _ => rfl) fun _ => rfl) fun _ => ?_
  exact .bind (moves_forIn (fun e => mild_report (o := .event (.cache e)) rfl rfl) _) fun _ => moves_pure _

theorem calm_errorLine (message : String) : Moves R (errorLine s!"error: {message}") := mild_report ⟨message, rfl⟩ rfl

theorem calm_ask : Moves R ask := by
  refine .bind moves_get fun desk => ?_
  split
  · exact moves_pure _
  · refine (mild_report (o := .out question) trivial rfl).bind fun _ => ?_
    refine .bind (mild_modify (fun _ => rfl) (fun _ => rfl) fun _ => rfl) fun _ => ?_
    split <;> exact moves_pure _

end Mild

theorem quiet_errorLine (line : String) : Quiet (errorLine line) := quiet_report rfl

end Work

/-! ## Planning -/

namespace Plan

open Work

variable {config : Config} {r : Registry}

theorem calm_plan [Desk.Mild R] (subject : Subject) : Moves R (subject.plan config r) := by
  refine ⟨fun desk => ?_⟩
  have hread (path : String) (d : Desk) (hd : R desk d ∧ d.disk.folder = desk.disk.folder) :
      R desk ((readFile path).run d).2 ∧ ((readFile path).run d).2.disk.folder = desk.disk.folder := by
    refine ⟨Desk.Frame.trans hd.1 ((calm_readFile path).run d), ?_⟩
    rw [((calm_readFile path).run d : Desk.Proceeds d _).disk, hd.2]
  have hplan := even_plan config r subject (answers_any (fun _ hd => hd.2) hread)
    (fun _ _ => trivial) (fun _ _ _ => trivial) desk desk ⟨rfl, Desk.Frame.refl desk, rfl⟩
  exact hplan.after.2.1

theorem quiet_plan (subject : Subject) : Quiet (subject.plan config r) := calm_plan subject

end Plan

/-! ## Compiling -/

namespace Compile

open Work

variable {R : Desk → Desk → Prop} {s : Setting} {config : Config} {r : Registry}

section Mild

variable [Desk.Mild R]

theorem attends_moves (desk : Desk) : Attends (fun _ _ => True) (fun _ => True) (fun _ => True) (Alone (R desk)) where
  folder := by
    rintro d _ ⟨rfl, -⟩
    rfl
  acceptAll := by
    rintro d _ ⟨rfl, -⟩
    rfl
  readFile _ := (calm_readFile _).even desk
  errorLine message := (calm_errorLine message).even desk
  ask := calm_ask.even desk
  accept := by
    refine Moves.even ?_ desk
    exact mild_modify (fun _ => rfl) (fun _ => rfl) fun _ => rfl
  spares _ _ := trivial

theorem calm_transform {p : Plugin} {d : Directive} {place : Nat} {data : Option Data}
    {compiled : Option (Work String)} {parent : List Fragment} (hcomp : ∀ text ∈ compiled, Moves R text) :
    Moves R (transform s p d place data compiled parent) :=
  moves_of_even fun desk => even_transform (attends_moves desk) (.inr trivial)
    fun text htext => (hcomp text htext).even desk

theorem calm_presentErrors (errors : List Status) : Moves R (presentErrors errors) :=
  moves_of_even fun desk => even_presentErrors (attends_moves desk) errors

theorem calm_showErrors (errors : List Status) : Moves R (showErrors config errors) :=
  moves_of_even fun desk => even_showErrors (attends_moves desk) errors

theorem calm_goesOn (errors : List Status) : Moves R (goesOn errors) :=
  moves_of_even fun desk => even_goesOn (attends_moves desk) errors

end Mild

variable [Desk.Calm R]

theorem calm_advance : Moves R (advance s) := by
  rw [advance]
  split
  · exact moves_pure _
  · refine .bind (calm_modify (fun _ => rfl) fun _ => rfl) fun _ => .bind moves_get fun _ => ?_
    exact calm_report (o := .event _) rfl

theorem calm_compilePlan (compiledDir : String) (root : Node) : Moves R (compilePlan config r compiledDir root) := by
  refine moves_of_even fun desk => even_compilePlan { attends_moves desk with
    advance := fun _ => calm_advance.even desk
    restart := ?_ } config r ⟨fun _ _ => .inr trivial, fun _ _ _ => .inl trivial⟩ compiledDir
  refine Moves.even ?_ desk
  exact calm_modify (fun _ => rfl) fun _ => rfl

theorem quiet_compilePlan (compiledDir : String) (root : Node) : Quiet (compilePlan config r compiledDir root) :=
  calm_compilePlan compiledDir root

end Compile

/-! ## Sessions -/

namespace Session

open Work

variable {config : Config} {r : Registry}

section Mild

variable {R : Desk → Desk → Prop} [Desk.Mild R]

theorem calm_exitIfErrors (errors : List Status) : Moves R (exitIfErrors errors) := by
  rw [exitIfErrors]
  split
  · exact .bind (calm_presentErrors errors) fun _ => moves_throw _
  · exact moves_pure _

def completeFrom (config : Config) (disk : Disk) : Option String → Work Config
  | none => return config
  | some path => do
    let (file, errors) ← lift (Config.load disk path)
    exitIfErrors errors
    return config.merge file path

theorem calm_completeFrom (config : Config) (disk : Disk) (path : Option String) :
    Moves R (completeFrom config disk path) := by
  cases path with
  | none => exact moves_pure _
  | some path => exact .bind (moves_lift _) fun _ => .bind (calm_exitIfErrors _) fun _ => moves_pure _

theorem calm_completeConfig (config : Config) : Moves R (completeConfig config) := by
  refine .bind moves_get fun desk => ?_
  split
  · exact .bind (moves_lift _) fun path => calm_completeFrom config desk.disk path
  · exact .bind (moves_lift _) fun path => calm_completeFrom config desk.disk path
  · exact .bind (moves_pure _) fun path => calm_completeFrom config desk.disk path

theorem calm_listPlugins (entries : List Entry) : Moves R (listPlugins config entries) :=
  .bind (moves_lift _) fun _ => .bind (mild_report (o := .out _) trivial rfl) fun _ => moves_throw _

theorem calm_presentLoadErrors (errors : List Status) : Moves R (presentLoadErrors errors) := by
  rw [presentLoadErrors]
  split
  · exact calm_presentErrors errors
  · exact .bind (calm_presentErrors _) fun _ => moves_throw _

theorem calm_goesOn : Moves R goesOn := by
  refine .bind moves_get fun _ => ?_
  split
  · exact moves_pure _
  · refine .bind calm_ask fun choice => ?_
    cases choice with
    | exit => exact moves_throw _
    | no => exact moves_pure _
    | yes => exact moves_pure _
    | always => exact .bind (mild_modify (fun _ => rfl) (fun _ => rfl) fun _ => rfl) fun _ => moves_pure _

end Mild

theorem run_compileSafely (compiledDir : String) (root : Node) (d : Desk) :
    (compileSafely config r compiledDir root).run d =
      match (compilePlan config r compiledDir root).run d with
      | (.ok text, d') => (.ok (.ok text), d')
      | (.error (.exit code), d') => (.error (.exit code), d')
      | (.error c, d') => (.ok (.error c.message), d') := by
  rw [compileSafely, run_bind_of_ok (run_get d)]
  rcases (compilePlan config r compiledDir root).run d with ⟨c | text, d'⟩
  · cases c <;> rfl
  · rfl

theorem moves_compileSafely {R : Desk → Desk → Prop} {compiledDir : String} {root : Node}
    (h : Moves R (compilePlan config r compiledDir root)) :
    Moves R (compileSafely config r compiledDir root) := by
  refine ⟨fun d => ?_⟩
  have hplan := h.run d
  rw [run_compileSafely]
  split <;> simp_all

theorem calm_compileSafely {R : Desk → Desk → Prop} [Desk.Calm R] (compiledDir : String) (root : Node) :
    Moves R (compileSafely config r compiledDir root) :=
  moves_compileSafely (calm_compilePlan compiledDir root)

section Loose

variable {R : Desk → Desk → Prop} [Desk.Free R]

theorem loose_modify (h : ∀ d, (f d).past = d.past) : Moves R (modify f) := moves_modify fun d => Desk.Free.free (h d)

theorem loose_writeFile (path text : String) : Moves R (writeFile path text) :=
  .bind moves_get fun _ => .bind (moves_lift _) fun _ => loose_modify fun _ => rfl

theorem loose_makeFolders (p : Path) : Moves R (makeFolders p) :=
  .bind moves_get fun _ => .bind (moves_lift _) fun _ => loose_modify fun _ => rfl

theorem loose_writeResult (result : String) : Moves R (writeResult config result) := by
  rw [writeResult]
  split
  · exact mild_report (o := .out _) trivial rfl
  · exact mild_report (o := .out _) trivial rfl
  · split
    · exact mild_report (o := .out _) trivial rfl
    · exact loose_writeFile ..

theorem loose_writeBelow (base : Path) (input result : String) : Moves R (writeBelow config base input result) := by
  refine .bind moves_get fun _ => ?_
  split
  · refine .bind (moves_lift _) fun _ => .bind (loose_makeFolders _) fun _ => ?_
    exact .bind (loose_writeFile ..) fun _ => moves_pure _
  · exact .bind (mild_report (o := .out _) trivial rfl) fun _ => moves_pure _

end Loose

theorem quiet_readCommand (i : Invocation) : Quiet (readCommand i) := by
  rw [readCommand]
  split
  · exact .bind (quiet_report rfl) fun _ => moves_throw _
  · exact .bind (quiet_report rfl) fun _ => .bind (quiet_errorLine _) fun _ => moves_throw _
  · refine .bind moves_get fun _ => .bind (moves_lift _) fun _ => ?_
    exact .bind (calm_exitIfErrors _) fun _ => moves_pure _

theorem quiet_completeConfig (config : Config) : Quiet (completeConfig config) := calm_completeConfig config

theorem quiet_listPlugins (entries : List Entry) : Quiet (listPlugins config entries) := calm_listPlugins entries

theorem quiet_compare (result path : String) : Quiet (compare config result path) := by
  refine .bind moves_get fun _ => .bind (moves_lift _) fun _ => ?_
  exact .bind (quiet_errorLine _) fun _ => moves_pure _

theorem quiet_goesOn : Quiet goesOn := calm_goesOn

theorem quiet_compileSafely (compiledDir : String) (root : Node) : Quiet (compileSafely config r compiledDir root) :=
  calm_compileSafely compiledDir root

theorem adds_writeResult (result : String) : Adds (writeResult config result) := loose_writeResult result

theorem adds_writeBelow (base : Path) (input result : String) : Adds (writeBelow config base input result) :=
  loose_writeBelow base input result

theorem leaves_makeConfig (folder : String) : Leaves milestones (makeConfig folder) := by
  refine .bind moves_get fun _ => .bind (moves_lift _) fun made => ?_
  cases made with
  | error obstacle => exact Quiet.leaves (calm_exitIfErrors _) |>.milestones
  | ok made => exact .bind (moves_modify fun _ => rfl) fun _ => moves_report fun _ => rfl

section Patient

variable {R : Desk → Desk → Prop} [Desk.Patient R] {e : Event}

theorem patient_emit (he : (Output.event e).isMilestone = false) (hnode : (Output.event e).isNode = false) :
    Moves R (emit e) :=
  moves_report (Desk.Patient.event he hnode)

theorem patient_loadPlugins (entries : List Entry) : Moves R (loadPlugins config entries) := by
  refine .bind (moves_lift _) fun _ => .bind (calm_presentLoadErrors _) fun _ => ?_
  exact .bind (patient_emit rfl rfl) fun _ => moves_pure _

theorem patient_planFiles (total : Nat) (embedded : List String) (index : Nat) (paths : List String) :
    Moves R (planFiles config r total embedded index paths) := by
  induction paths generalizing embedded index with
  | nil => exact moves_pure _
  | cons path rest ih =>
    refine .bind moves_get fun _ => ?_
    dsimp only
    split
    · exact ih ..
    · refine .bind (Plan.calm_plan (.file _)) fun root => .bind (moves_lift _) fun _ => ?_
      split
      · refine .bind (patient_emit rfl rfl) fun _ => .bind calm_goesOn fun _ => ?_
        split
        · exact .bind (ih ..) fun _ => moves_pure _
        · exact moves_pure _
      · exact .bind (patient_emit rfl rfl) fun _ => .bind (ih ..) fun _ => moves_pure _

theorem patient_planAll (files : List String) : Moves R (planAll config r files) := by
  refine .bind (patient_emit rfl rfl) fun _ => .bind (patient_planFiles ..) fun _ => ?_
  exact .bind (patient_emit rfl rfl) fun _ => moves_pure _

end Patient

theorem leaves_loadPlugins (entries : List Entry) : Leaves standing (loadPlugins config entries) :=
  patient_loadPlugins entries

theorem leaves_planAll (files : List String) : Leaves standing (planAll config r files) := patient_planAll files

end Session

end Transclude
