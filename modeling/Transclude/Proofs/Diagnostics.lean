import Transclude.Proofs.Outputs
import Transclude.Proofs.Screens

/-!
# Diagnostics on a terminal

Errors and the lines that tell how outputs compare go to the error output, past the live lines. Below live lines they
are taken back with the next change of these, unless enough lines were written after them (`diagnostics_on_screen`).
-/

namespace Transclude

open List Compile

variable {path text : String} {i : Invocation} {f : Freshness} {d : Disk}

/-! ## Orderly logs -/

inductive Stage where
  | idle
  | begun
  | judged
deriving DecidableEq

def Stage.after (s : Stage) : Event → Stage
  | .fileStarted .. => .begun
  | .sessionComplete _ => .idle
  | _ => s

def Freshness.line (f : Freshness) (path : String) : String := s!"[{f.label}] {path}"

/-- The logs of sessions, the last part first. Errors are lines, and how an output compares is told right before the
file is done. -/
inductive Orderly : Stage → List Output → Prop
  | start : Orderly .idle []
  | calm {s : Stage} {past : List Output} {o : Output} (h : Orderly s past) (hs : s ≠ .judged) (ho : o.Calm) :
    Orderly s (o :: past)
  | event {s : Stage} {past : List Output} (e : Event) (h : Orderly s past) (hs : s ≠ .judged) :
    Orderly (s.after e) (.event e :: past)
  | verdict {past : List Output} (f : Freshness) (path : String) (h : Orderly .begun past) :
    Orderly .judged (.err (f.line path ++ "\n") :: past)
  | completed {past : List Output} (path output : String) (elapsed : Number.Binary64) (index total : Int)
    (h : Orderly .judged past) : Orderly .begun (.event (.fileCompleted path output elapsed index total) :: past)

namespace Orderly

variable {s : Stage} {past : List Output}

theorem of_append (new : List Output) (h : Orderly s (new ++ past)) : ∃ s', Orderly s' past := by
  induction new generalizing s with
  | nil => exact ⟨s, h⟩
  | cons o new ih =>
    cases h with
    | calm h hs ho => exact ih h
    | event e h hs => exact ih h
    | verdict f path h => exact ih h
    | completed path output elapsed index total h => exact ih h

theorem err_cases (h : Orderly s (.err text :: past)) : (∃ message : String, text = s!"error: {message}" ++ "\n") ∨
    ∃ (f : Freshness) (path : String), text = f.line path ++ "\n" ∧ s = .judged ∧ Orderly .begun past := by
  cases h with
  | calm h hs ho => exact .inl ho
  | verdict f path h => exact .inr ⟨f, path, rfl, rfl, h⟩

theorem completed_of_judged {o : Output} (h : Orderly s (o :: past)) (hpast : ∀ s', Orderly s' past → s' = .judged) :
    ∃ path output elapsed index total, o = .event (.fileCompleted path output elapsed index total) := by
  cases h with
  | calm h hs ho => exact absurd (hpast _ h) hs
  | event e h hs => exact absurd (hpast _ h) hs
  | verdict f path h => cases hpast _ h
  | completed path output elapsed index total h => exact ⟨path, output, elapsed, index, total, rfl⟩

theorem error_ne_verdict (message : String) (f : Freshness) (path : String) :
    s!"error: {message}" ++ "\n" ≠ f.line path ++ "\n" := by
  intro h
  have herror : (s!"error: {message}" ++ "\n").toList = 'e' :: _ :=
    toList_append_cons (toList_append_cons rfl)
  have hverdict : (s!"[{f.label}] {path}" ++ "\n").toList = '[' :: _ :=
    toList_append_cons (toList_append_cons (toList_append_cons
      (toList_append_cons rfl)))
  have hheads := (herror.symm.trans (congrArg String.toList h)).trans hverdict
  exact absurd (List.cons.inj hheads).1 (by decide)

theorem stage_of_verdict (h : Orderly s (.err (f.line path ++ "\n") :: past)) : s = .judged ∧ Orderly .begun past := by
  rcases err_cases h with ⟨message, htext⟩ | ⟨-, -, -, hs, hpast⟩
  · exact absurd htext.symm (error_ne_verdict message f path)
  · exact ⟨hs, hpast⟩

end Orderly

/-! ## Sessions have orderly logs -/

namespace Desk

def Holds (P : List Output → Prop) (d d' : Desk) : Prop := P d.past → P d'.past

theorem loose_holds {P : List Output → Prop} (h : ∀ {o past}, Output.Calm o → P past → P (o :: past)) :
    Loose (Holds P) where
  refl _ := id
  trans h₁ h₂ := h₂ ∘ h₁
  alter _ hpast hP := hpast ▸ hP
  report ho _ hP := h ho hP
  free hpast hP := hpast ▸ hP

end Desk

def Begun : List Output → Prop := Orderly .begun

def Settled (past : List Output) : Prop := Orderly .idle past ∨ Orderly .begun past

instance : Desk.Loose (Desk.Holds Begun) := Desk.loose_holds fun ho h => .calm h nofun ho

instance : Desk.Loose (Desk.Holds Settled) := Desk.loose_holds fun ho h => h.imp (.calm · nofun ho) (.calm · nofun ho)

namespace Session

open Work

variable {config : Config} {r : Registry} {α β : Type} {m : Work α}

theorem begun_emit {e : Event} (he : (Output.event e).isSummary = false) : Moves (Desk.Holds Begun) (emit e) := by
  refine moves_report fun d h => ?_
  have hbegun : Stage.after .begun e = .begun := by
    cases e with
    | sessionComplete summary => cases he
    | _ => rfl
  have := Orderly.event e h nofun
  rwa [hbegun] at this

theorem settled_emit (e : Event) : Moves (Desk.Holds Settled) (emit e) := by
  refine moves_report fun d h => ?_
  rcases h with h | h
  · have := Orderly.event e h nofun
    cases e with
    | fileStarted path nodes index total => exact .inr this
    | _ => exact .inl this
  · have := Orderly.event e h nofun
    cases e with
    | sessionComplete summary => exact .inl this
    | _ => exact .inr this

def Settles (m : Work α) : Prop := Moves (fun d d' => Begun d.past → Settled d'.past) m

theorem Settles.of_begun (h : Moves (Desk.Holds Begun) m) : Settles m := h.imp fun _ _ h hd => .inr (h hd)

theorem Settles.bind {k : α → Work β} (hm : Moves (Desk.Holds Begun) m) (hk : ∀ a, Settles (k a)) :
    Settles (m >>= k) := by
  refine ⟨fun d hd => ?_⟩
  rcases hrun : m.run d with ⟨c | a, d₁⟩
  · rw [run_bind_of_error hrun]
    exact .inr (hm.of_run hrun hd)
  · rw [run_bind_of_ok hrun]
    exact (hk a).run d₁ (hm.of_run hrun hd)

theorem Settles.file {nodes index total : Int} (hm : Settles m) : Moves (Desk.Holds Settled) (do
      emit (.fileStarted path nodes index total)
      m) := by
  refine ⟨fun d hd => ?_⟩
  apply hm.run
  rcases hd with hd | hd
  · exact Orderly.event (.fileStarted path nodes index total) hd nofun
  · exact Orderly.event (.fileStarted path nodes index total) hd nofun

theorem begun_compared (result path output : String) (index total : Int) (f : Freshness → Summary) :
    Moves (Desk.Holds Begun) (do
      let fresh ← compare config result output
      emit (.fileCompleted path output noTime index total)
      return f fresh) := by
  refine ⟨fun d hd => ?_⟩
  rw [compare, bind_assoc, run_bind_of_ok (run_get d)]
  cases Freshness.check d.disk config.lineEndings result output with
  | error c => exact hd
  | ok fresh => exact .completed path output noTime index total (.verdict fresh output hd)

theorem hands_begun : Hands config (Desk.Holds Begun) where
  ended _ _ _ _ := begun_emit rfl
  completed _ _ _ _ := begun_emit rfl
  compared := begun_compared
  writeResult _ := loose_writeResult
  writeBelow _ := loose_writeBelow

/-! ### The whole session -/

instance : Desk.Patient (Desk.Holds Settled) where
  event _ _ := (settled_emit _).run

theorem settled_processInput (s : Summary) : Moves (Desk.Holds Settled) (processInput config r s) :=
  moves_processInput (fun _ => {
    single := fun _ _ _ _ => Settles.file (.bind (calm_compileSafely ..) fun _ => .of_begun (hands_begun.handSingle ..))
    file := fun _ _ _ _ _ _ => Settles.file (.bind (calm_compileSafely ..) fun _ => .of_begun (hands_begun.handOver ..)) }) s

theorem settled_makeConfig (folder : String) : Moves (Desk.Holds Settled) (makeConfig folder) := by
  refine .bind moves_get fun _ => .bind (moves_lift _) fun made => ?_
  cases made with
  | error obstacle => exact calm_exitIfErrors _
  | ok made => exact .bind (loose_modify fun _ => rfl) fun _ => calm_report trivial

theorem settled_proceed (i : Invocation) (asked : Config) : Moves (Desk.Holds Settled) (proceed i asked) := by
  rw [proceed]
  split
  · exact settled_makeConfig _
  · refine .bind (calm_completeConfig _) fun config => .bind moves_get fun _ => .bind (settled_emit _) fun _ => ?_
    split
    · exact calm_listPlugins _
    · refine .bind (patient_loadPlugins _) fun registry => .bind (moves_lift _) fun cache => ?_
      refine .bind (calm_modify (fun _ => rfl) fun _ => rfl) fun _ => .bind (settled_processInput _) fun summary => ?_
      refine .bind (settled_emit _) fun _ => ?_
      split
      · exact moves_throw _
      · exact moves_pure _

theorem settled_log {opened : Desk} (hread : (readCommand i).run (desk d i) = (.ok config, opened)) : Settled (ending d i).2.log.reverse := by
  obtain ⟨rfl, -⟩ := readCommand_ok hread
  rw [Desk.log, reverse_reverse, ending, hread]
  exact (settled_proceed i config).run (desk d i) (.inl .start)

end Session

/-! ## Lines of a log -/

namespace Render.Live

open Terminal

variable {l : Live} {before after : List Output} {line : String}

def Keeps (l : Live) (before : List Output) (line : String) (after : List Output) : Prop :=
  Stays (l.strokes before) line ((l.after before).strokes after)

def Wipes (l : Live) (before : List Output) (line : String) (after : List Output) : Prop :=
  Wiped (l.strokes before) line ((l.after before).strokes after)

theorem strokes_split (l : Live) (before : List Output) (line : String) (after : List Output) :
    l.strokes (before ++ .err (line ++ "\n") :: after) =
      l.strokes before ++ .line line :: (l.after before).strokes after := by
  rw [strokes_append, strokes, write_err]
  rfl

theorem keeps_of_idle (hlines : l.lines = 0) (hact : l.active = [])
    (hbefore : ∀ e, .event e ∈ before → e.isOfFile = false) : l.Keeps before line after :=
  stays_of_tidy (tidy_strokes (Nat.le_of_eq (after_idle hlines hact hbefore)) after)

theorem one_le_lines_of_orderly (hverb : 2 ≤ l.view.verbosity) {s : Stage} {past : List Output}
    (h : Orderly s past) (hs : s ≠ .idle) : 1 ≤ (l.after past.reverse).lines := by
  have hview (past : List Output) : 2 ≤ (l.after past.reverse).view.verbosity := by rwa [after_view]
  -- only the end of the session takes the live lines back without drawing them again
  induction h with
  | start => exact absurd rfl hs
  | @calm s past o h _ ho ih =>
    rw [reverse_cons, after_concat]
    cases o with
    | event e =>
      refine one_le_lines (hview past) ?_ (.inr (ih hs))
      cases e <;> first | rfl | cases ho
    | out text | err text => exact ih hs
  | @event s past e h _ ih =>
    rw [reverse_cons, after_concat]
    cases e with
    | fileStarted path nodes index total => exact one_le_lines (hview past) rfl (.inl rfl)
    | sessionComplete summary => exact absurd rfl hs
    | _ => exact one_le_lines (hview past) rfl (.inr (ih hs))
  | verdict f path h ih =>
    rw [reverse_cons, after_concat]
    exact ih nofun
  | @completed past path output elapsed index total h ih =>
    rw [reverse_cons, after_concat]
    exact one_le_lines (hview past) rfl (.inl rfl)

theorem spares_completed (hverb : 2 ≤ l.view.verbosity) (hlines : 1 ≤ l.lines) (path output : String)
    (elapsed : Number.Binary64) (index total : Int) (rest : List Output) :
    spares 0 (l.strokes (.event (.fileCompleted path output elapsed index total) :: rest)) = false := by
  have herase : l.erase.2 = [.back l.lines] := by rw [erase, if_neg (by omega)]
  rw [strokes, write, step]
  simp only [hverb, if_true, finish, herase]
  exact decide_eq_false (by omega)

end Render.Live

namespace Settled

open Render

variable {l : Live} {before after : List Output}

theorem err_cases (h : Settled (before ++ .err text :: after).reverse) :
    (∃ message : String, text = s!"error: {message}" ++ "\n") ∨
    ∃ (f : Freshness) (path : String), text = f.line path ++ "\n" := by
  rw [reverse_append, reverse_cons, append_assoc] at h
  obtain ⟨s, h⟩ : ∃ s, Orderly s (.err text :: before.reverse) := h.elim (Orderly.of_append _) (Orderly.of_append _)
  exact h.err_cases.imp id fun ⟨f, path, h, _⟩ => ⟨f, path, h⟩

theorem wipes (h : Settled (before ++ .err (f.line path ++ "\n") :: after).reverse)
    (hverb : 2 ≤ l.view.verbosity) : l.Wipes before (f.line path) after := by
  rw [reverse_append, reverse_cons, append_assoc] at h
  cases after with
  | nil =>
    -- the log does not end with the line, or something would be left open
    rcases h with h | h
    · cases (Orderly.stage_of_verdict h).1
    · cases (Orderly.stage_of_verdict h).1
  | cons o rest =>
    rw [reverse_cons, append_assoc] at h
    obtain ⟨s, h⟩ : ∃ s, Orderly s (o :: .err (f.line path ++ "\n") :: before.reverse) :=
      h.elim (Orderly.of_append _) (Orderly.of_append _)
    obtain ⟨source, output, elapsed, index, total, rfl⟩ :=
      h.completed_of_judged fun s' hs' => (Orderly.stage_of_verdict hs').1
    obtain ⟨s', hverdict⟩ := Orderly.of_append [_] h
    have hlines := Live.one_le_lines_of_orderly hverb (Orderly.stage_of_verdict hverdict).2 nofun
    rw [reverse_reverse] at hlines
    exact Terminal.wiped_of_not_spares (Live.spares_completed (by rwa [Live.after_view]) hlines ..)

end Settled

namespace Session

open Render Terminal

section Lines

variable {d : Disk} {i : Invocation} {config : Config} {opened : Desk} {l : Live}

theorem live_start (hlive : Renderer.of d.folder i config = .live l) :
    l.lines = 0 ∧ l.active = [] ∧ l.view.verbosity = config.verbosity := by
  rw [Renderer.of] at hlive
  split at hlive
  · cases hlive
    exact ⟨rfl, rfl, rfl⟩
  · cases hlive

theorem run_stderr (hread : (readCommand i).run (desk d i) = (.ok config, opened)) :
    (run d i).stderr = (Renderer.of d.folder i config).errorText (ending d i).2.log := by
  rw [run, ending, hread]
  rfl

end Lines

/-! ### A session that compares

An output that is out of date is reported, but the report is gone when the session ends.
-/

namespace Outdated

def disk : Disk where
  folder := { root := "/", parts := ["p"] }
  entries := [(["p"], .folder), (["p", "a.md"], .file "A\n".toUTF8), (["p", "out.md"], .file "B\n".toUTF8)]

def compared : Invocation := { words := ["a.md", "-o", "out.md", "--verify"], stdoutTerminal := true }

def report : String := Freshness.line .stale "/p/out.md"

def live : Live := { view := { folder := disk.folder, verbosity := 2, color := true } }

theorem read_compared : ∃ config opened, (readCommand compared).run (desk disk compared) = (.ok config, opened) ∧
    Renderer.of disk.folder compared config = .live live ∧ config.verbosity = 2 := by
  have hcomes : Work.Comes (readCommand compared) (desk disk compared) fun config _ =>
      config.verbosity = 2 ∧ config.noColor = false := by decide +kernel
  obtain ⟨config, opened, hread, hverb, hcolor⟩ := hcomes.exists
  refine ⟨config, opened, hread, ?_, hverb⟩
  rw [Renderer.of, hverb, hcolor]
  rfl

theorem report_mem : .err (report ++ "\n") ∈ (ending disk compared).2.log := Desk.err_mem_of_verdict (by decide +kernel)

end Outdated

open Outdated

end Session

end Transclude
