import Transclude.Proofs.Balance

/-!
# What stays on the screen

As many of the last lines on the screen are cleared as live lines were drawn. No more are taken back than were written
since the last time (`tidy_strokes`), so whether a line stays is decided when lines are taken back for the first time
after it (`stays_iff`, `wiped_iff`).
-/

namespace Transclude.Terminal

open List Nat String

/-! ## Taking lines back -/

/-- How many lines were written since lines were taken back, if there were `n` at first. -/
def since (n : Nat) : List Stroke → Nat
  | [] => n
  | .line _ :: rest => since (n + 1) rest
  | .back _ :: rest => since 0 rest

def Tidy (n : Nat) : List Stroke → Prop
  | [] => True
  | .line _ :: rest => Tidy (n + 1) rest
  | .back lines :: rest => lines ≤ n ∧ Tidy 0 rest

def spares (n : Nat) : List Stroke → Bool
  | [] => true
  | .line _ :: rest => spares (n + 1) rest
  | .back lines :: _ => lines ≤ n

section Strokes

variable {n : Nat} {a b : List Stroke}

@[simp] theorem since_append (n : Nat) (a b : List Stroke) : since n (a ++ b) = since (since n a) b := by
  induction a generalizing n with
  | nil => rfl
  | cons x a ih => cases x <;> exact ih _

@[simp] theorem tidy_append (n : Nat) (a b : List Stroke) : Tidy n (a ++ b) ↔ Tidy n a ∧ Tidy (since n a) b := by
  induction a generalizing n with
  | nil => simp [Tidy, since]
  | cons x a ih => cases x <;> simp [Tidy, since, ih, and_assoc]

@[simp] theorem since_lines (n : Nat) (lines : List String) : since n (lines.map .line) = n + lines.length := by
  induction lines generalizing n with
  | nil => rfl
  | cons x lines ih =>
    rw [map_cons, since, ih, length_cons]
    omega

@[simp] theorem tidy_lines (n : Nat) (lines : List String) : Tidy n (lines.map .line) := by
  induction lines generalizing n with
  | nil => trivial
  | cons x lines ih => exact ih (n + 1)

theorem tidy_of_spares {m : Nat} (htidy : Tidy m a) (h : spares n a = true) : Tidy n a := by
  induction a generalizing n m with
  | nil => trivial
  | cons x a ih =>
    cases x with
    | line text => exact ih htidy h
    | back lines => exact ⟨of_decide_eq_true h, htidy.2⟩

end Strokes

/-! ## Lines on the screen -/

def Stays (before : List Stroke) (line : String) (after : List Stroke) : Prop :=
  ∀ written, written <+: after → line :: screen before <:+ screen (before ++ .line line :: written)

def Wiped (before : List Stroke) (line : String) (after : List Stroke) : Prop :=
  ∃ written, written <+: after ∧ screen (before ++ .line line :: written) <:+ screen before

section Lines

variable {before after strokes : List Stroke} {line : String} {n : Nat}

theorem screen_append_line (before : List Stroke) (line : String) (written : List Stroke) :
    screen (before ++ .line line :: written) = written.foldl Stroke.onto (line :: screen before) := by
  rw [screen, foldl_append]
  rfl

theorem suffix_foldl_onto (base top : List String) (h : Tidy n strokes) (hn : n ≤ top.length) : base <:+ strokes.foldl Stroke.onto (top ++ base) := by
  induction strokes generalizing n top with
  | nil => exact suffix_append top base
  | cons x strokes ih =>
    cases x with
    | line text => exact ih (text :: top) h (succ_le_succ hn)
    | back lines =>
      obtain ⟨hlines, hrest⟩ := h
      have hdrop : (top ++ base).drop lines = top.drop lines ++ base :=
        drop_append_of_le_length (Nat.le_trans hlines hn)
      rw [foldl_cons, Stroke.onto, hdrop]
      exact ih (top.drop lines) hrest (zero_le _)

theorem exists_foldl_onto_suffix (line : String) (base top : List String) (h : spares top.length strokes = false) :
    ∃ written, written <+: strokes ∧ written.foldl Stroke.onto (top ++ line :: base) <:+ base := by
  induction strokes generalizing top with
  | nil => cases h
  | cons x strokes ih =>
    cases x with
    | line text =>
      obtain ⟨written, hwritten, hsuffix⟩ := ih (text :: top) h
      exact ⟨.line text :: written, prefix_cons_inj _ |>.2 hwritten, hsuffix⟩
    | back lines =>
      have hlines : top.length < lines := by simpa [spares] using h
      refine ⟨[.back lines], ⟨strokes, rfl⟩, ?_⟩
      have hdrop : (top ++ line :: base).drop lines = base.drop (lines - (top.length + 1)) := by
        rw [drop_append, drop_eq_nil_of_le (Nat.le_of_lt hlines), nil_append,
          show lines - top.length = lines - (top.length + 1) + 1 by omega, drop_succ_cons]
      rw [foldl_cons, Stroke.onto, hdrop]
      exact drop_suffix _ _

theorem not_stays_of_wiped (h : Wiped before line after) : ¬ Stays before line after := by
  intro hstays
  obtain ⟨written, hwritten, hwiped⟩ := h
  have hlong := (hstays written hwritten).length_le
  have hshort := hwiped.length_le
  rw [length_cons] at hlong
  omega

theorem stays_of_tidy (h : Tidy 0 after) : Stays before line after := by
  rintro written ⟨rest, rfl⟩
  rw [screen_append_line]
  exact suffix_foldl_onto _ [] ((tidy_append ..).1 h).1 (Nat.le_refl 0)

theorem wiped_of_not_spares (h : spares 0 after = false) : Wiped before line after := by
  obtain ⟨written, hwritten, hsuffix⟩ := exists_foldl_onto_suffix line (screen before) [] h
  refine ⟨written, hwritten, ?_⟩
  rw [screen_append_line]
  exact hsuffix

theorem stays_iff (h : Tidy n (before ++ .line line :: after)) : Stays before line after ↔ spares 0 after = true := by
  constructor
  · intro hstays
    cases hspares : spares 0 after with
    | true => rfl
    | false => exact absurd hstays (not_stays_of_wiped (wiped_of_not_spares hspares))
  · intro hspares
    exact stays_of_tidy (tidy_of_spares ((tidy_append ..).1 h).2 hspares)

theorem wiped_iff (h : Tidy n (before ++ .line line :: after)) : Wiped before line after ↔ spares 0 after = false := by
  constructor
  · intro hwiped
    have hspares := mt (stays_iff h).2 (not_stays_of_wiped hwiped)
    simpa using hspares
  · exact wiped_of_not_spares

end Lines

end Transclude.Terminal

namespace Transclude.Render.Live

open Transclude.Terminal

variable {log : List Output}

/-! ## Logs on a terminal -/

/-- What a part of the log writes to a terminal; a text for the error output is a line. -/
def write (l : Live) : Output → Live × List Stroke
  | .event e => l.step e
  | .out _ => (l, [])
  | .err text => (l, [.line (String.ofList text.toList.dropLast)])

def after (l : Live) (log : List Output) : Live := log.foldl (fun l o => (l.write o).1) l

def strokes (l : Live) : List Output → List Stroke
  | [] => []
  | o :: log => (l.write o).2 ++ (l.write o).1.strokes log

theorem after_append (l : Live) (a b : List Output) : l.after (a ++ b) = (l.after a).after b := List.foldl_append

theorem after_concat (l : Live) (log : List Output) (o : Output) : l.after (log ++ [o]) = ((l.after log).write o).1 := by
  rw [after_append]
  rfl

theorem strokes_append (l : Live) (a b : List Output) : l.strokes (a ++ b) = l.strokes a ++ (l.after a).strokes b := by
  induction a generalizing l with
  | nil => rfl
  | cons o a ih =>
    rw [List.cons_append, strokes, ih, strokes, List.append_assoc]
    rfl

/-! ## Steps -/

variable {l : Live} {n : Nat}

structure Fits (n : Nat) (r : Live × List Stroke) : Prop where
  tidy : Tidy n r.2
  lines_le : r.1.lines ≤ since n r.2

theorem fits_lines (h : l.lines ≤ n) (lines : List String) : Fits n (l, lines.map .line) where
  tidy := tidy_lines n lines
  lines_le := by
    rw [since_lines]
    exact Nat.le_add_right_of_le h

theorem erase_lines (l : Live) : l.erase.1.lines = 0 := by
  unfold erase
  split
  · assumption
  · rfl

theorem tidy_erase (h : l.lines ≤ n) : Tidy n l.erase.2 := by
  unfold erase
  split
  · trivial
  · exact ⟨h, trivial⟩

theorem redraw_lines (l : Live) : 1 ≤ l.redraw.1.lines := Nat.le_add_left ..

theorem fits_redraw (h : l.lines ≤ n) : Fits n l.redraw where
  tidy := (tidy_append ..).2 ⟨tidy_erase h, tidy_lines ..⟩
  lines_le := by
    have hdrawn (n : Nat) (title : String) (lines : List String) :
        lines.length + 1 ≤ since n ((title :: lines).map .line) := by
      rw [since_lines, List.length_cons]
      omega
    unfold redraw
    rw [since_append]
    exact hdrawn ..

theorem fits_finish (h : l.lines ≤ n) (path : String) (lines : List String) : Fits n (l.finish path lines) := by
  have hredraw (n : Nat) : Fits n (redraw { l.erase.1 with
      done := l.erase.1.done + 1, active := l.erase.1.active.filter (·.path != path) }) :=
    fits_redraw (by simp [erase_lines])
  refine ⟨?_, ?_⟩
  · refine (tidy_append ..).2 ⟨(tidy_append ..).2 ⟨tidy_erase h, tidy_lines ..⟩, (hredraw _).tidy⟩
  · show _ ≤ since n (_ ++ _)
    rw [since_append]
    exact (hredraw _).lines_le

/-- What an event does: it writes lines below or above the live lines, draws these again, or takes them back for good.
-/
inductive Does (l : Live) (e : Event) : Live × List Stroke → Prop
  | stays {l' : Live} (lines : List String) (hview : l'.view = l.view) (hlines : l'.lines = l.lines)
      (hact : l'.active = l.active) (he : 2 ≤ l.view.verbosity → e.isOfFile = false) :
      Does l e (l', lines.map .line)
  | redraws {l' : Live} (hview : l'.view = l.view) (hlines : l'.lines = l.lines)
      (he : e.isOfFile = true ∨ l.active ≠ []) : Does l e l'.redraw
  | finishes {l' : Live} (path : String) (lines : List String) (hview : l'.view = l.view) (hlines : l'.lines = l.lines)
      (he : e.isOfFile = true) : Does l e (l'.finish path lines)
  | ends (lines : List String) (he : (Output.event e).isSummary = true) :
      Does l e (l.erase.1, l.erase.2 ++ lines.map .line)

theorem does_step (l : Live) (e : Event) : Does l e (l.step e) := by
  cases e with
  | fileStarted path nodes index total =>
    simp only [step]
    split
    · exact .redraws rfl rfl (.inl rfl)
    · exact .stays [] rfl rfl rfl (by omega)
  | nodeCompiled path index count elapsed =>
    simp only [step]
    split
    · rename_i h
      refine .redraws rfl rfl (.inr fun hact => ?_)
      simp [hact] at h
    · exact .stays [] rfl rfl rfl fun _ => rfl
  | fileCompleted path output elapsed index total =>
    simp only [step]
    split
    · exact .finishes _ _ rfl rfl rfl
    · exact .stays [] rfl rfl rfl (by omega)
  | fileError path message elapsed index total =>
    simp only [step]
    split
    · exact .finishes _ _ rfl rfl rfl
    · exact .stays [] rfl rfl rfl (by omega)
  | sessionComplete summary =>
    simp only [step]
    split
    · exact .ends _ rfl
    · exact .stays [] rfl rfl rfl fun _ => rfl
  | compilationStarted files => exact .stays [] rfl rfl rfl fun _ => rfl
  | sessionStarted | pluginsLoaded | planningStarted | filePlanned | filePlanError | planningComplete
  | compilationComplete | cache | diagnostic => exact .stays _ rfl rfl rfl fun _ => rfl

theorem fits_step (h : l.lines ≤ n) (e : Event) : Fits n (l.step e) := by
  have hdoes := does_step l e
  generalize l.step e = r at hdoes ⊢
  cases hdoes with
  | stays lines hview hlines hact he => exact fits_lines (by omega) lines
  | redraws hview hlines he => exact fits_redraw (by omega)
  | finishes path lines hview hlines he => exact fits_finish (by omega) path lines
  | ends lines he =>
    refine ⟨(tidy_append ..).2 ⟨tidy_erase h, tidy_lines ..⟩, ?_⟩
    rw [erase_lines]
    exact Nat.zero_le _

theorem fits_write (h : l.lines ≤ n) (o : Output) : Fits n (l.write o) := by
  cases o with
  | event e => exact fits_step h e
  | out text => exact fits_lines h []
  | err text => exact fits_lines h [_]

theorem tidy_strokes (h : l.lines ≤ n) (log : List Output) : Tidy n (l.strokes log) := by
  induction log generalizing l n with
  | nil => trivial
  | cons o log ih =>
    have hfits := fits_write h o
    exact (tidy_append ..).2 ⟨hfits.tidy, ih hfits.lines_le⟩

/-! ## Live lines -/

theorem erase_view (l : Live) : l.erase.1.view = l.view := by
  unfold erase
  split <;> rfl

theorem write_view (l : Live) (o : Output) : (l.write o).1.view = l.view := by
  cases o with
  | event e =>
    show (l.step e).1.view = l.view
    have hdoes := does_step l e
    generalize l.step e = r at hdoes ⊢
    cases hdoes with
    | stays lines hview hlines hact he => exact hview
    | redraws hview hlines he => exact (erase_view _).trans hview
    | finishes path lines hview hlines he => exact (erase_view _).trans ((erase_view _).trans hview)
    | ends lines he => exact erase_view l
  | out text | err text => rfl

theorem after_view (l : Live) (log : List Output) : (l.after log).view = l.view := by
  induction log generalizing l with
  | nil => rfl
  | cons o log ih => exact (ih _).trans (write_view l o)

theorem after_idle (hlines : l.lines = 0) (hact : l.active = [])
    (hlog : ∀ e, .event e ∈ log → e.isOfFile = false) : (l.after log).lines = 0 := by
  induction log generalizing l with
  | nil => exact hlines
  | cons o log ih =>
    have hrest : ∀ e, .event e ∈ log → e.isOfFile = false := fun e he => hlog e (List.mem_cons_of_mem _ he)
    cases o with
    | event e =>
      have he := hlog e List.mem_cons_self
      show ((l.step e).1.after log).lines = 0
      have hdoes := does_step l e
      generalize l.step e = r at hdoes ⊢
      cases hdoes with
      | stays lines hview hlines' hact' _ => exact ih (hlines'.trans hlines) (hact'.trans hact) hrest
      | redraws hview hlines' h =>
        rcases h with h | h
        · rw [he] at h
          cases h
        · exact absurd hact h
      | finishes path lines hview hlines' h =>
        rw [he] at h
        cases h
      | ends lines h => exact ih (erase_lines l) (by rwa [erase, if_pos hlines]) hrest
    | out text | err text => exact ih hlines hact hrest

theorem one_le_lines (hverb : 2 ≤ l.view.verbosity) {e : Event} (he : (Output.event e).isSummary = false)
    (h : e.isOfFile = true ∨ 1 ≤ l.lines) : 1 ≤ (l.step e).1.lines := by
  have hdoes := does_step l e
  generalize l.step e = r at hdoes ⊢
  cases hdoes with
  | stays lines hview hlines hact hfile =>
    rcases h with h | h
    · rw [hfile hverb] at h
      cases h
    · exact hlines.symm ▸ h
  | redraws hview hlines _ => exact redraw_lines _
  | finishes path lines hview hlines _ => exact redraw_lines _
  | ends lines hsummary =>
    rw [he] at hsummary
    cases hsummary

/-! ## The error output -/

@[simp] theorem write_err (l : Live) (line : String) : l.write (.err (line ++ "\n")) = (l, [.line line]) := by
  have hline : String.ofList (line ++ "\n").toList.dropLast = line := by
    rw [String.toList_append, show "\n".toList = ['\n'] from rfl, List.dropLast_concat, String.ofList_toList]
  rw [write, hline]

theorem errorText_eq (l : Live) (hlog : ∀ text, .err text ∈ log → ∃ line, text = line ++ "\n") :
    (Session.Renderer.live l).errorText log = String.join ((l.strokes log).map (·.text)) := by
  induction log generalizing l with
  | nil => rfl
  | cons o log ih =>
    have hrest := ih (l := (l.write o).1) fun text h => hlog text (List.mem_cons_of_mem _ h)
    rw [strokes, List.map_append, String.join_append, ← hrest]
    cases o with
    | event e => rfl
    | out text => rw [Session.Renderer.errorText, write, List.map_nil, String.join_nil, String.empty_append]
    | err text =>
      obtain ⟨line, rfl⟩ := hlog text List.mem_cons_self
      rw [Session.Renderer.errorText, write_err, List.map_singleton, String.join_cons, String.join_nil, String.append_empty,
        Stroke.text]

end Transclude.Render.Live
