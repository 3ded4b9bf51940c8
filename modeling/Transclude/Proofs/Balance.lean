import Transclude.Proofs.Reopening

/-!
# Balanced sessions

A session tells of each file that it is begun, how work goes on, and that it is done or fails. The files follow one
another by their numbers, and the counts at the end are theirs (`balanced_of_sessionComplete`).
-/

namespace Transclude

open List Event Int

def Output.event? : Output → Option Event
  | .event e => some e
  | _ => none

namespace Event

def isProgress (e : Event) : Bool := (Output.event e).isProgress

def isStarted : Event → Bool
  | .fileStarted .. => true
  | _ => false

def isCompleted : Event → Bool
  | .fileCompleted .. => true
  | _ => false

def isOfFile : Event → Bool
  | .fileStarted .. => true
  | .fileCompleted .. => true
  | .fileError .. => true
  | _ => false

variable {e : Event}

theorem isStarted_of_isOfFile (h : e.isOfFile = false) : e.isStarted = false := by cases e <;> first | rfl | cases h

theorem isStarted_of_isProgress (h : e.isProgress = true) : e.isStarted = false := by cases e <;> first | rfl | cases h

theorem isOfFile_of_isMilestone (h : (Output.event e).isMilestone = false) : e.isOfFile = false := by
  cases e <;> first | rfl | cases h

end Event

namespace Desk

def events (d : Desk) : List Event := d.log.filterMap Output.event?

variable {d d' : Desk}

theorem events_after (d : Desk) (e : Event) : (d.after e).events = d.events ++ [e] :=
  filterMap_log_cons Output.event? d (.event e)

theorem Follows.events (h : d.Follows d') :
    ∃ progress, d'.events = d.events ++ progress ∧ ∀ e ∈ progress, e.isProgress = true := by
  obtain ⟨new, hpast, hnew⟩ := h
  refine ⟨new.reverse.filterMap Output.event?, ?_, fun e he => ?_⟩
  · rw [Desk.events, log, hpast, reverse_append, filterMap_append, Desk.events, log]
  · obtain ⟨o, ho, hevent⟩ := mem_filterMap.1 he
    have hprog := hnew o (mem_reverse.1 ho)
    cases o <;> cases hevent
    exact hprog

theorem isOfFile_of_milestones (h : d.milestones = []) : ∀ e ∈ d.events, e.isOfFile = false := by
  intro e he
  obtain ⟨o, ho, hevent⟩ := mem_filterMap.1 he
  have hnone := filter_eq_nil_iff.1 h o (mem_reverse.1 ho)
  cases o <;> cases hevent
  exact isOfFile_of_isMilestone (by simpa using hnone)

end Desk

namespace Session

open Work Plan

variable {config : Config} {r : Registry} {s s₁ s' : Summary} {d d₁ d' : Desk} {index total : Int} {files : List
  (List Event)} {es : List Event}

/-! ## One file -/

def Course (index total : Int) (es : List Event) : Prop :=
  ∃ path nodes progress error e, es = .fileStarted path nodes index total :: (progress ++ [e]) ∧
    (∀ e ∈ progress, e.isProgress = true) ∧ Closes path index total error e

theorem Course.countP_isStarted (h : Course index total es) : es.countP isStarted = 1 := by
  obtain ⟨path, nodes, progress, error, e, rfl, hprog, hcloses⟩ := h
  have hnone : progress.countP isStarted = 0 :=
    countP_eq_zero.2 fun e he => by simp [isStarted_of_isProgress (hprog e he)]
  have hlast : e.isStarted = false := by cases hcloses <;> rfl
  rw [countP_cons_of_pos rfl, countP_append, hnone, countP_cons_of_neg (by simp [hlast]), countP_nil]

theorem count_counted (s : Summary) (root : Node) (wrote : Bool) (fresh : Option Freshness) :
    (count s root wrote fresh).ok + (count s root wrote fresh).warnings + (count s root wrote fresh).errors =
      s.ok + s.warnings + s.errors + 1 := by
  unfold count
  cases fresh with
  | none => cases wrote <;> grind
  | some fresh => cases fresh <;> grind

theorem count_written_le (s : Summary) (root : Node) (wrote : Bool) (fresh : Option Freshness) :
    (count s root wrote fresh).written ≤ s.written + if wrote then 1 else 0 := by
  unfold count
  cases fresh with
  | none => cases wrote <;> grind
  | some fresh => cases fresh <;> grind

structure Recorded (index total : Int) (s : Summary) (d : Desk) (files : List (List Event)) (s' : Summary)
    (d' : Desk) : Prop where
  events : d'.events = d.events ++ files.flatten
  courses : ∀ k (hk : k < files.length), Course (index + k) total files[k]
  counted : s'.ok + s'.warnings + s'.errors = s.ok + s.warnings + s.errors + files.length
  written : s'.written ≤ s.written + files.flatten.countP isCompleted

theorem Treated.recorded {f : Compiled} (h : Treated config r f index total s d s' d') :
    ∃ es, Recorded index total s d [es] s' d' := by
  obtain ⟨d₁, e, hfollows, hcloses, rfl⟩ := h.closed.reported
  obtain ⟨wrote, fresh, hwrote, -, rfl⟩ := h.closed.counted
  obtain ⟨progress, hevents, hprog⟩ := hfollows.events
  refine ⟨.fileStarted f.path f.root.count index total :: (progress ++ [e]), ?_, fun k hk => ?_, ?_, ?_⟩
  · rw [Desk.events_after, hevents, Desk.events_after]
    simp
  · obtain rfl : k = 0 := by simpa using hk
    rw [Int.natCast_zero, Int.add_zero]
    exact ⟨_, _, progress, _, e, rfl, hprog, hcloses⟩
  · exact count_counted ..
  · refine Int.le_trans (count_written_le ..) (Int.add_le_add_left ?_ _)
    split_ifs with hwritten
    · -- a file that counts as written has no error, so its last event tells that it is done
      have hdone : e.isCompleted = true := by
        rw [hwrote hwritten] at hcloses
        cases hcloses
        rfl
      exact natCast_pos.2 (countP_pos_iff.2 ⟨e, by simp, hdone⟩)
    · exact natCast_nonneg _

/-! ## Many files -/

theorem recorded_nil (s : Summary) (d : Desk) : Recorded index total s d [] s d where
  events := (append_nil _).symm
  courses _ hk := absurd hk (Nat.not_lt_zero _)
  counted := (Int.add_zero _).symm
  written := Int.le_of_eq (Int.add_zero _).symm

theorem Recorded.cons (h : Recorded index total s d [es] s₁ d₁) (h' : Recorded (index + 1) total s₁ d₁ files s' d') : Recorded index total s d (es :: files) s' d' where
  events := by
    rw [h'.events, h.events]
    simp
  courses k hk := by
    cases k with
    | zero => exact h.courses 0 Nat.one_pos
    | succ k =>
      have hcourse := h'.courses k (Nat.lt_of_succ_lt_succ hk)
      rwa [Int.add_assoc, Int.add_comm 1] at hcourse
  counted := by
    have h₁ := h.counted
    have h₂ := h'.counted
    simp only [length_cons, length_nil] at h₁ ⊢
    omega
  written := by
    have h₁ := h.written
    have h₂ := h'.written
    simp only [flatten_cons, flatten_nil, append_nil, countP_append] at h₁ ⊢
    omega

theorem Treats.recorded {fs : List Compiled} (h : Treats config r total index s d fs s' d') :
    ∃ files, files.length = fs.length ∧ Recorded index total s d files s' d' := by
  induction h with
  | nil => exact ⟨[], rfl, recorded_nil _ _⟩
  | cons h _ ih =>
    obtain ⟨es, hfirst⟩ := h.recorded
    obtain ⟨files, hlen, hrest⟩ := ih
    exact ⟨es :: files, by rw [length_cons, hlen, length_cons], hfirst.cons hrest⟩

/-! ## Whole sessions -/

/-- Whether events and counts balance: the courses of the files follow one another by their numbers, as many files are
counted as are begun, and at most those that are done count as written. -/
structure Balanced (events : List Event) (s : Summary) : Prop where
  courses : ∃ (before : List Event) (files : List (List Event)) (after : List Event),
    events = before ++ files.flatten ++ after ∧
    (∀ e ∈ before ++ after, e.isOfFile = false) ∧
    ∀ k : Nat, ∀ hk : k < files.length, Course k files.length files[k]
  counted : (events.countP isStarted : Int) = s.ok + s.warnings + s.errors
  written : s.written ≤ events.countP isCompleted

theorem countP_isStarted_flatten (h : ∀ k (hk : k < files.length), Course (index + k) total files[k]) :
    files.flatten.countP isStarted = files.length := by
  have hone : ∀ es ∈ files, es.countP isStarted = 1 := by
    intro es hes
    obtain ⟨k, hk, rfl⟩ := getElem_of_mem hes
    exact (h k hk).countP_isStarted
  rw [countP_flatten, map_congr_left hone]
  simp

theorem countP_isStarted_others (h : ∀ e ∈ es, e.isOfFile = false) : es.countP isStarted = 0 :=
  countP_eq_zero.2 fun e he => by simp [isStarted_of_isOfFile (h e he)]

theorem Worked.balanced {label : String} {fs : List Compiled} (h : Worked config r { target := label } d fs s d')
    (hd : d.milestones = []) : Balanced (d'.after (.sessionComplete s)).events s := by
  obtain ⟨d₀, d₁, hmiles, htreats, hend⟩ := h.treats
  obtain ⟨files, hlen, hrec⟩ := htreats.recorded
  rw [← hlen] at hrec
  have hbefore := Desk.isOfFile_of_milestones (hmiles.trans hd)
  obtain ⟨after, hafter, hothers⟩ : ∃ after, (d'.after (.sessionComplete s)).events = d₁.events ++ after ∧
      ∀ e ∈ after, e.isOfFile = false := by
    rcases hend with rfl | rfl
    · exact ⟨[.sessionComplete s], Desk.events_after .., forall_mem_singleton.2 rfl⟩
    · refine ⟨[.compilationComplete s.ok s.errors, .sessionComplete s], ?_, by simp [isOfFile]⟩
      rw [Desk.events_after, Desk.events_after, append_assoc]
      rfl
  rw [hafter, hrec.events]
  refine ⟨⟨d₀.events, files, after, rfl, forall_mem_append.2 ⟨hbefore, hothers⟩, fun k hk => ?_⟩, ?_, ?_⟩
  · have hcourse := hrec.courses k hk
    rwa [Int.zero_add] at hcourse
  · have hcnt : s.ok + s.warnings + s.errors = 0 + 0 + 0 + (files.length : Int) := hrec.counted
    rw [countP_append, countP_append, countP_isStarted_others hbefore, countP_isStarted_others hothers,
      countP_isStarted_flatten hrec.courses]
    omega
  · have hwritten : s.written ≤ 0 + (files.flatten.countP isCompleted : Int) := hrec.written
    rw [countP_append, countP_append]
    omega

/-- A session that comes to its counts has told of its files one after the other, and its counts are theirs. -/
theorem balanced_of_sessionComplete {d : Disk} {i : Invocation}
    (h : .event (.sessionComplete s) ∈ (ending d i).2.log) : Balanced (ending d i).2.events s := by
  obtain ⟨request, asked, config, r, loaded, cache, hopens, hinit, hlist⟩ := exists_opens h
  obtain ⟨done, hinput, hending⟩ := hopens.processInput_ok hinit hlist h
  obtain ⟨files, hworked⟩ := processInput_ok hinput
  have hload : loaded.milestones = [] := (leaves_loadPlugins i.entries).milestones.view_eq hopens.loads
  rw [hending]
  exact hworked.balanced hload

/-! ### A session on two documents

Of two documents in a folder one crashes a plugin, for the condition on the rows of its table is a number. Neither plan
has errors, so both documents are counted without any, but only one is written.
-/

namespace Sample

def pair : Disk where
  folder := { root := "/", parts := ["p"] }
  entries := [(["p"], .folder), (["p", "t.csv"], .file "a\n1\n".toUTF8), (["p", "b.md"], .file "B\n".toUTF8),
    (["p", "a.md"], .file "```yaml embedm\ntype: table\nsource: t.csv\nfilter: \x7ba: 1\x7d\n```\n".toUTF8)]

def gathered : Invocation := { words := [".", "-d", "out"] }

end Sample

theorem gathered_balanced : ∃ s : Summary,
    .event (.sessionComplete s) ∈ (ending Sample.pair Sample.gathered).2.log ∧ (s.ok = 2 ∧ s.written = 1) ∧
    Balanced (ending Sample.pair Sample.gathered).2.events s := by
  obtain ⟨s, hs, hcounts⟩ := exists_summary (by decide +kernel :
    ∃ s ∈ (ending Sample.pair Sample.gathered).2.past.filterMap Output.summary?, s.ok = 2 ∧ s.written = 1)
  exact ⟨s, hs, hcounts, balanced_of_sessionComplete hs⟩

end Session

end Transclude
