import Transclude.Proofs.Diagnostics
import Transclude.Proofs.Passes
import Transclude.Proofs.Steps

/-!
# Progress of files

After a session begins a file and before it begins another one, it reports the directives of the plan of the file, from
the first one on (`Paced`, `node_reports_count_up`). The reports name the source of the plan. A single input is begun
under this name, but a file of a folder under its own, which need not be the same text; then no live line is changed by
them (`node_reports_name_source`).
-/

namespace Transclude

open List Plan Output

variable {path source : String} {root : Node} {levels : Nat} {config : Config} {r : Registry} {o : Output} {d : Disk}

/-! ## Files in a log -/

namespace Session

open Work Compile

/-- The logs of files that are begun and reported on, the last part first, with the file that was begun last, its plan
and the number of the last report on it. -/
inductive Paced (Plan : String → Node → Prop) : Option (String × Node × Nat) → List Output → Prop where
  | idle {past : List Output} (h : ∀ o ∈ past, o.started? = none) : Paced Plan none past
  | other {mark : Option (String × Node × Nat)} {past : List Output} {o : Output} (h : Paced Plan mark past)
    (hnode : o.isNode = false) (hstart : o.started? = none) : Paced Plan mark (o :: past)
  | begun {mark : Option (String × Node × Nat)} {past : List Output} {path : String} {root : Node} (index total : Int)
    (h : Paced Plan mark past) (hplan : Plan path root) :
    Paced Plan (some (path, root, 0)) (.event (.fileStarted path root.count index total) :: past)
  | node {past : List Output} {path : String} {root : Node} {k : Nat} (h : Paced Plan (some (path, root, k)) past)
    (hk : k + 1 < root.count) : Paced Plan (some (path, root, k + 1))
      (.event (.nodeCompiled root.directive.source (k + 1 : Nat) root.count (.zero false)) :: past)

namespace Paced

variable {Plan : String → Node → Prop} {mark : Option (String × Node × Nat)} {past new : List Output} {path : String}
  {root : Node} {j k : Nat} {nodes index total : Int}

theorem of_append (h : Paced Plan mark (new ++ past)) : ∃ mark', Paced Plan mark' past := by
  induction new generalizing mark with
  | nil => exact ⟨mark, h⟩
  | cons o new ih =>
    cases h with
    | idle h => exact ⟨none, .idle fun o' ho' => h o' (mem_cons_of_mem _ (mem_append_right _ ho'))⟩
    | other h _ _ => exact ih h
    | begun index total h _ => exact ih h
    | node h _ => exact ih h

theorem extend (h : Paced Plan (some (path, root, j)) past) (hstart : ∀ o ∈ new, o.started? = none)
    (hnodes : new.filter isNode = (steps root.directive.source root.count j k).reverse)
    (hk : j + k < root.count) : Paced Plan (some (path, root, j + k)) (new ++ past) := by
  induction new generalizing k with
  | nil =>
    obtain rfl : 0 = k := by simpa [steps] using congrArg List.length hnodes
    exact h
  | cons o new ih =>
    rw [forall_mem_cons] at hstart
    cases ho : o.isNode with
    | false =>
      rw [filter_cons_of_neg (by simp [ho])] at hnodes
      exact .other (ih hstart.2 hnodes hk) ho hstart.1
    | true =>
      rw [filter_cons_of_pos ho] at hnodes
      cases k with
      | zero => simp [steps] at hnodes
      | succ k =>
        rw [steps_succ, reverse_append] at hnodes
        obtain ⟨rfl, hrest⟩ := List.cons.inj hnodes
        exact .node (ih hstart.2 hrest (by omega)) hk

theorem stretch (h : Paced Plan mark (new ++ .event (.fileStarted path nodes index total) :: past))
    (hstart : ∀ o ∈ new, o.started? = none) : ∃ root k, mark = some (path, root, k) ∧ Plan path root ∧
      nodes = root.count ∧ k < root.count ∧
      new.filter isNode = (steps root.directive.source root.count 0 k).reverse := by
  induction new generalizing mark with
  | nil =>
    cases h with
    | idle h => cases h _ mem_cons_self
    | other _ _ hother => cases hother
    | @begun _ _ _ root _ _ _ hplan => exact ⟨root, 0, rfl, hplan, rfl, by rw [Node.count_eq]; omega, rfl⟩
  | cons o new ih =>
    rw [forall_mem_cons] at hstart
    cases h with
    | idle h => cases h (.event (.fileStarted path nodes index total)) (by simp)
    | other h hnode _ =>
      rw [filter_cons_of_neg (by simp [hnode])]
      exact ih h hstart.2
    | begun => cases hstart.1
    | node h hk =>
      obtain ⟨root, k, hmark, hplan, hcount, -, hnodes⟩ := ih h hstart.2
      cases hmark
      refine ⟨_, _, rfl, hplan, hcount, hk, ?_⟩
      rw [filter_cons_of_pos rfl, hnodes, steps_succ, reverse_append, Nat.zero_add]
      rfl

end Paced

variable {Plan : String → Node → Prop} {config : Config} {r : Registry}

def InPace (Plan : String → Node → Prop) (past : List Output) : Prop := ∃ mark, Paced Plan mark past

instance : Desk.Free (Desk.Holds (InPace Plan)) where
  refl _ := id
  trans h₁ h₂ := h₂ ∘ h₁
  alter _ hpast _ h := hpast ▸ h
  report ho hnode _ h := by
    obtain ⟨mark, h⟩ := h
    refine ⟨mark, .other h hnode ?_⟩
    have hmile := isMilestone_of_isProgress ho.isProgress
    simp_all [isMilestone]
  free hpast h := hpast ▸ h

instance : Desk.Patient (Desk.Holds (InPace Plan)) where
  event {e} he hnode := by
    rintro d ⟨mark, h⟩
    exact ⟨mark, .other h hnode (by simp_all [isMilestone])⟩

theorem paced_report (hnode : o.isNode = false) (hstart : o.started? = none) :
    Moves (Desk.Holds (InPace Plan)) (report o) :=
  moves_report fun _ ⟨mark, h⟩ => ⟨mark, .other h hnode hstart⟩

theorem inPace_of_milestones {d : Desk} (h : d.milestones = []) : InPace Plan d.past := by
  refine ⟨none, .idle fun o ho => ?_⟩
  have hmile := filter_eq_nil_iff.1 h o ho
  simp_all [isMilestone]

theorem paced_begin {index total : Int} (hplan : Plan path root) (hroot : Planned r levels root)
    (compiledDir : String) :
    Moves (Desk.Holds (InPace Plan)) (do
      emit (.fileStarted path root.count index total)
      compileSafely config r compiledDir root) := by
  refine ⟨fun d ⟨mark, h⟩ => ?_⟩
  rw [run_bind_of_ok (run_emit ..)]
  obtain ⟨new, hpast, hnew⟩ := ((quiet_compileSafely compiledDir root).run (d.after _)).follows
  obtain ⟨k, hk, hnodes⟩ := (moves_compileSafely (walked_compilePlan hroot compiledDir)).run
    (d.after (.fileStarted path root.count index total))
  rw [Desk.nodes_of_append hpast, append_cancel_left_eq, filter_reverse] at hnodes
  have hbegun : Paced Plan (some (path, root, 0)) (d.after (.fileStarted path root.count index total)).past :=
    .begun index total h hplan
  rw [hpast]
  refine ⟨_, hbegun.extend (fun o ho => ?_) (k := k) ?_ (by omega)⟩
  · have hmile := isMilestone_of_isProgress (hnew o ho)
    simp_all [isMilestone]
  · rw [← hnodes, reverse_reverse]

theorem hands_paced : Hands config (Desk.Holds (InPace Plan)) where
  ended _ _ _ _ := paced_report rfl rfl
  completed _ _ _ _ := paced_report rfl rfl
  compared _ _ _ _ _ _ := .bind (.bind moves_get fun _ => .bind (moves_lift _) fun _ =>
    .bind (paced_report rfl rfl) fun _ => moves_pure _) fun _ => .bind (paced_report rfl rfl) fun _ => moves_pure _
  writeResult _ := loose_writeResult
  writeBelow _ := loose_writeBelow

/-! ## Whole sessions -/

theorem Begins.planned {disk : Disk} (h : Begins config r disk path root) :
    Planned r (config.maxRecursion.value.toNat + 1) root := by
  cases h with
  | folder hmode h =>
    obtain ⟨d, d', -, h⟩ := h
    exact planFile_ok h
  | single subject hmode hd h => exact planned_of_plan_ok subject h

theorem carries_paced (disk : Disk) : Carries config r disk (Desk.Holds (InPace (Begins config r disk))) where
  single h _ _ _ := by
    rw [← bind_assoc]
    exact .bind (paced_begin h h.planned _) fun result => hands_paced.handSingle ..
  file h _ _ _ _ _ := by
    rw [← bind_assoc]
    exact .bind (paced_begin h h.planned _) fun result => hands_paced.handOver ..

/-- What a session reports after it begins a file and before it begins another one: the directives of the plan of the
file, from the first one on. -/
theorem exists_stretch {i : Invocation} {before between after : List Output} {nodes index total : Int}
    (hlog : (ending d i).2.log = before ++ .event (.fileStarted path nodes index total) :: (between ++ after))
    (hbetween : ∀ o ∈ between, o.started? = none) :
    ∃ config r root k, WorksWith d i config r ∧ Begins config r d path root ∧ nodes = root.count ∧ k < root.count ∧
      between.filter isNode = steps root.directive.source root.count 0 k := by
  have hpast : (ending d i).2.past = after.reverse ++ (between.reverse ++
      .event (.fileStarted path nodes index total) :: before.reverse) := by
    rw [← reverse_reverse (ending d i).2.past, ← Desk.log, hlog]
    simp
  have hmiles : (ending d i).2.milestones ≠ [] := by
    rw [Desk.milestones, hpast, ← length_pos_iff, ← countP_eq_length_filter, countP_pos_iff]
    exact ⟨.event (.fileStarted path nodes index total), by simp, rfl⟩
  rcases standing_or_opens d i with hstand | ⟨asked, folder, -, -, hend⟩ |
    ⟨request, asked, config, r, loaded, cache, hopens, hinit, hlist⟩
  · exact absurd (congrArg Prod.snd hstand) hmiles
  · rw [hend] at hmiles
    exact absurd ((leaves_makeConfig folder).view_run _) hmiles
  · have hload : loaded.standing = (d, []) := (leaves_loadPlugins i.entries).view_eq hopens.loads
    have hholds : Desk.Holds (InPace (Begins config r d)) { loaded with cache, acceptAll := config.acceptAll }
        (ending d i).2 := by
      rw [hopens.ending_eq hinit hlist]
      refine run_bind_of ((carries_paced d).processInput (congrArg Prod.fst hload)) fun s d₁ _ => ?_
      refine (Moves.bind (paced_report rfl rfl) fun _ => ?_).run d₁
      split
      · exact moves_throw _
      · exact moves_pure _
    obtain ⟨mark, hpaced⟩ := hholds (inPace_of_milestones (congrArg Prod.snd hload))
    rw [hpast] at hpaced
    obtain ⟨mark', hstretch⟩ := hpaced.of_append
    obtain ⟨root, k, -, hbegins, hnodes, hk, hsteps⟩ := hstretch.stretch fun o ho => hbetween o (mem_reverse.1 ho)
    refine ⟨config, r, root, k, ⟨asked, _, _, _, _, hopens.reads, hopens.completes, hopens.loads⟩, hbegins, hnodes, hk, ?_⟩
    rwa [filter_reverse, reverse_inj] at hsteps

namespace Greeted

/-- A document with a greeting and an embedded text, in a folder below the current one. -/
def home : Disk where
  folder := { root := "/", parts := ["p"] }
  entries := [(["p"], .folder), (["p", "docs"], .folder), (["p", "docs", "b.txt"], .file "b\n".toUTF8),
    (["p", "docs", "a.md"], .file
      "```yaml embedm\ntype: hello_world\n```\n```yaml embedm\ntype: file\nsource: b.txt\n```\n".toUTF8)]

def folder : Invocation := { words := ["docs"] }

def single : Invocation := { words := ["docs/a.md"] }

def names (source : String) : Output → Bool
  | .event (.nodeCompiled name ..) => name == source
  | _ => false

/-- Whether the first file of a log is begun under a name, with three nodes and two reports that name a source. -/
def opensWith (path source : String) (log : List Output) : Bool :=
  match log.dropWhile (·.started?.isNone) with
  | .event (.fileStarted name nodes _ _) :: rest =>
    let between := rest.takeWhile (!·.isMilestone)
    name == path && nodes == 3 && between.countP isNode == 2 && between.any (names source)
  | _ => false

/-- A file of three nodes that is begun in a log under a name, and two reports until it is done or fails. -/
structure Opening (log : List Output) (path source : String) (before between after : List Output)
    (index total : Int) : Prop where
  log_eq : log = before ++ .event (.fileStarted path 3 index total) :: (between ++ after)
  plain : ∀ o ∈ between, o.isMilestone = false
  nodes : between.countP isNode = 2
  named : ∃ number count elapsed, .event (.nodeCompiled source number count elapsed) ∈ between

theorem exists_opening {log : List Output} (h : opensWith path source log = true) :
    ∃ before between after index total, Opening log path source before between after index total := by
  rw [opensWith] at h
  split at h
  · rename_i name nodes index total rest hrest
    simp only [Bool.and_eq_true, beq_iff_eq] at h
    obtain ⟨⟨⟨rfl, rfl⟩, hcount⟩, hany⟩ := h
    refine ⟨log.takeWhile (·.started?.isNone), rest.takeWhile (!·.isMilestone), rest.dropWhile (!·.isMilestone), index,
      total, ?_, fun o ho => by simpa using all_eq_true.1 all_takeWhile o ho, hcount, ?_⟩
    · rw [takeWhile_append_dropWhile, ← hrest, takeWhile_append_dropWhile]
    · obtain ⟨o, ho, hnames⟩ := any_eq_true.1 hany
      rw [names.eq_def] at hnames
      split at hnames
      · rw [← eq_of_beq hnames]
        exact ⟨_, _, _, ho⟩
      · cases hnames
  · cases h

end Greeted

/-- Compiling the plan of a file, to its end or to a crash, reports directives by the numbers from one on, out of as many
as the plan has nodes, and never comes to that. In a session these are the reports after the begin of the file, which
tells the same number of nodes. -/
theorem node_reports_count_up : (∀ {config r path root} {d d₁ : Desk}, (planFile config r path).run d = (.ok root, d₁) →
      ∀ (config' : Config) (compiledDir : String) (d₂ : Desk), ∃ k < root.count,
        ((compilePlan config' r compiledDir root).run d₂).2.nodes =
          d₂.nodes ++ steps root.directive.source root.count 0 k) ∧
    ∀ {d i before between after path index total} {nodes : Int},
      (ending d i).2.log = before ++ .event (.fileStarted path nodes index total) :: (between ++ after) →
      (∀ o ∈ between, o.started? = none) →
      ∃ config r root k, WorksWith d i config r ∧ Begins config r d path root ∧ nodes = root.count ∧ k < root.count ∧
        between.filter Output.isNode = steps root.directive.source root.count 0 k :=
  ⟨fun hplan _ compiledDir d₂ => (walked_compilePlan (planFile_ok hplan) compiledDir).run d₂, exists_stretch⟩

/-- The plan of two directives without sources, and the file of the folder. -/
theorem node_reports_count_up_greeted :
    (∃ root d₁, (planFile {} Compile.Greeting.registry "a.md").run (Sole.desk Compile.Greeting.text) = (.ok root, d₁) ∧
      ∃ k < root.count, ((compilePlan {} Compile.Greeting.registry "" root).run d₁).2.nodes =
        d₁.nodes ++ steps root.directive.source root.count 0 k) ∧
    ∃ before between after index total,
      Greeted.Opening (ending Greeted.home Greeted.folder).2.log "docs/a.md" "/p/docs/a.md" before between after index
        total ∧
      ∃ config r root k, WorksWith Greeted.home Greeted.folder config r ∧
        Begins config r Greeted.home "docs/a.md" root ∧ (3 : Int) = root.count ∧ k < root.count ∧
        between.filter Output.isNode = steps root.directive.source root.count 0 k := by
  constructor
  · have hok : ((planFile {} Compile.Greeting.registry "a.md").run (Sole.desk Compile.Greeting.text)).1.isOk = true := by decide +kernel
    rcases hplan : (planFile {} Compile.Greeting.registry "a.md").run (Sole.desk Compile.Greeting.text) with ⟨c | root, d₁⟩
    · rw [hplan] at hok
      cases hok
    · exact ⟨root, d₁, rfl, node_reports_count_up.1 hplan {} "" d₁⟩
  · obtain ⟨before, between, after, index, total, h⟩ := Greeted.exists_opening (by decide +kernel :
      Greeted.opensWith "docs/a.md" "/p/docs/a.md" (ending Greeted.home Greeted.folder).2.log = true)
    refine ⟨before, between, after, index, total, h, node_reports_count_up.2 h.log_eq fun o ho => ?_⟩
    have hmile := h.plain o ho
    simp_all [Output.isMilestone]

end Session

/-! ## Live lines -/

namespace Render.Live

variable {l : Live} {path : String} {n : Int}

def Shows (l : Live) (path : String) (n : Int) : Prop :=
  (∃ a ∈ l.active, a.path = path) ∧ ∀ a ∈ l.active, a.path = path → a.done = n

theorem redraw_active (l : Live) : l.redraw.1.active = l.active := by
  change l.erase.1.active = l.active
  rw [erase]
  split <;> rfl

theorem active_write_of_other (hmile : o.isMilestone = false) (hnode : o.isNode = false) :
    (l.write o).1.active = l.active := by
  cases o with
  | event e =>
    cases e with
    | nodeCompiled name number count elapsed => cases hnode
    | sessionComplete summary => cases hmile
    | fileStarted path nodes index total => cases hmile
    | fileCompleted path output elapsed index total => cases hmile
    | fileError path message elapsed index total => cases hmile
    | _ => rfl
  | out text => rfl
  | err text => rfl

theorem shows_begun (h : 2 ≤ l.view.verbosity) (path : String) (nodes index total : Int) :
    (l.write (.event (.fileStarted path nodes index total))).1.Shows path 0 := by
  rw [write, step, if_pos h]
  simp only [Shows, redraw_active, start]
  split
  · rename_i hany
    simp only [any_eq_true, beq_iff_eq] at hany
    simp only [mem_map, beq_iff_eq]
    constructor
    · obtain ⟨a, ha, hpath⟩ := hany
      exact ⟨_, ⟨a, ha, if_pos hpath⟩, rfl⟩
    · rintro _ ⟨a, -, rfl⟩ hpath
      split_ifs at hpath ⊢ with heq
      · rfl
      · exact absurd hpath heq
  · rename_i hany
    simp only [any_eq_true, beq_iff_eq, not_exists, not_and] at hany
    simp only [mem_append, mem_singleton]
    refine ⟨⟨_, .inr rfl, rfl⟩, ?_⟩
    rintro a (ha | rfl) hpath
    · exact absurd hpath (hany a ha)
    · rfl

theorem Shows.node (hv : 2 ≤ l.view.verbosity) (h : l.Shows path n) (name : String) (index count : Int)
    (elapsed : Number.Binary64) :
    (l.write (.event (.nodeCompiled name index count elapsed))).1.Shows path (if name = path then index else n) := by
  obtain ⟨⟨a, ha, hpath⟩, hdone⟩ := h
  rw [write, step]
  split
  · simp only [Shows, redraw_active, mem_map, beq_iff_eq]
    constructor
    · refine ⟨_, ⟨a, ha, rfl⟩, ?_⟩
      split_ifs <;> exact hpath
    · rintro _ ⟨b, hb, rfl⟩ hbpath
      split_ifs at hbpath ⊢ with hname hsame hsame
      · rfl
      · exact absurd (hname.symm.trans hbpath) hsame
      · exact absurd (hbpath.trans hsame.symm) hname
      · exact hdone b hb hbpath
  · rename_i hnone
    have hne : name ≠ path := by
      rintro rfl
      refine hnone (Bool.and_eq_true _ _ ▸ ⟨decide_eq_true hv, any_eq_true.2 ⟨a, ha, by simpa using hpath⟩⟩)
    rw [if_neg hne]
    exact ⟨⟨a, ha, hpath⟩, hdone⟩

theorem Shows.after {total j k : Nat} {between : List Output} (hv : 2 ≤ l.view.verbosity)
    (h : l.Shows path (if source = path then j else 0)) (hmile : ∀ o ∈ between, o.isMilestone = false)
    (hnodes : between.filter isNode = steps source total j k) :
    (l.after between).Shows path (if source = path then (j + k : Nat) else 0) := by
  induction between generalizing l j k with
  | nil =>
    obtain rfl : 0 = k := by simpa [steps] using congrArg List.length hnodes
    exact h
  | cons o between ih =>
    rw [forall_mem_cons] at hmile
    have hview : 2 ≤ (l.write o).1.view.verbosity := by rwa [write_view]
    cases ho : o.isNode with
    | false =>
      rw [filter_cons_of_neg (by simp [ho])] at hnodes
      refine ih hview ?_ hmile.2 hnodes
      rwa [Shows, active_write_of_other hmile.1 ho]
    | true =>
      rw [filter_cons_of_pos ho] at hnodes
      cases k with
      | zero => cases hnodes
      | succ k =>
        obtain ⟨rfl, hrest⟩ := List.cons.inj hnodes
        rw [show j + (k + 1) = j + 1 + k by omega]
        refine ih hview ?_ hmile.2 hrest
        have hnode := h.node hv source (j + 1 : Nat) total (.zero false)
        split_ifs at hnode ⊢ <;> exact hnode

end Render.Live

namespace Session

open Work Compile Render

theorem planFile_source {d d' : Desk} (h : (planFile config r path).run d = (.ok root, d')) :
    root.directive.source = (Path.resolve d.disk.folder (.ofText path)).text := by
  rw [(rooted_of_plan_ok (.file path) h).directive_eq]
  rfl

theorem Begins.source_eq (h : Begins config r d path root) : root.directive.source =
      if config.mode = .directory then (Path.resolve d.folder (.ofText path)).text else path := by
  cases h with
  | folder hmode h =>
    obtain ⟨desk, desk', rfl, h⟩ := h
    rw [if_pos hmode, planFile_source h]
  | single subject hmode hd h => rw [if_neg hmode]

/-- The reports on a file, from its begin on until it is done or fails, name one source: that under which a single input
is begun, and for a file of a folder what its name is resolved to, so that a relative name is never the one that is
reported. The live line of the file counts the reports if the source is the name, and stays at zero otherwise. -/
theorem node_reports_name_source {d : Disk} {i : Invocation} {before between after : List Output} {path : String}
    {nodes index total : Int}
    (hlog : (ending d i).2.log = before ++ .event (.fileStarted path nodes index total) :: (between ++ after))
    (hbetween : ∀ o ∈ between, o.isMilestone = false) :
    ∃ config r source, WorksWith d i config r ∧
      source = (if config.mode = .directory then (Path.resolve d.folder (.ofText path)).text else path) ∧
      (config.mode = .directory → source = path → (Path.ofText path).isAbsolute = true) ∧
      (∀ name number count elapsed, .event (.nodeCompiled name number count elapsed) ∈ between → name = source) ∧
      ∀ l : Live, 2 ≤ l.view.verbosity →
        (l.after (before ++ .event (.fileStarted path nodes index total) :: between)).Shows path
          (if source = path then between.countP Output.isNode else 0) := by
  have hstart : ∀ o ∈ between, o.started? = none := fun o ho => by
    simp_all [Output.isMilestone]
  obtain ⟨config, r, root, k, hworks, hbegins, rfl, -, hnodes⟩ := exists_stretch hlog hstart
  refine ⟨config, r, root.directive.source, hworks, hbegins.source_eq, fun hmode hsrc => ?_, ?_, fun l hv => ?_⟩
  · rw [← hsrc, hbegins.source_eq, if_pos hmode]
    exact Path.isAbsolute_ofText_text rfl
  · intro name number count elapsed hmem
    have hnode : .event (.nodeCompiled name number count elapsed) ∈ between.filter Output.isNode :=
      mem_filter.2 ⟨hmem, rfl⟩
    rw [hnodes, steps, mem_map] at hnode
    obtain ⟨_, -, heq⟩ := hnode
    cases heq
    rfl
  · have hbegun := Live.shows_begun (l := l.after before) (by rwa [Live.after_view]) path root.count index total
    have hlen : between.countP Output.isNode = k := by
      rw [countP_eq_length_filter, hnodes, steps, length_map, length_range']
    have hview : 2 ≤ ((l.after before).write (.event (.fileStarted path root.count index total))).1.view.verbosity := by
      rwa [Live.write_view, Live.after_view]
    have hafter := Live.Shows.after hview (by simpa using hbegun) hbetween hnodes
    rw [Nat.zero_add] at hafter
    rw [Live.after_append, hlen]
    exact hafter

/-- A document that is given by its own name: both of its directives are shown as done. -/
theorem single_input_shown : ∃ before between after index total,
    Greeted.Opening (ending Greeted.home Greeted.single).2.log "/p/docs/a.md" "/p/docs/a.md" before between after index
      total ∧
    ∀ l : Live, 2 ≤ l.view.verbosity →
      (l.after (before ++ .event (.fileStarted "/p/docs/a.md" 3 index total) :: between)).Shows "/p/docs/a.md" 2 := by
  obtain ⟨before, between, after, index, total, h⟩ := Greeted.exists_opening (by decide +kernel :
    Greeted.opensWith "/p/docs/a.md" "/p/docs/a.md" (ending Greeted.home Greeted.single).2.log = true)
  refine ⟨before, between, after, index, total, h, fun l hv => ?_⟩
  obtain ⟨config, r, source, -, -, -, hnames, hshows⟩ := node_reports_name_source h.log_eq h.plain
  obtain ⟨number, count, elapsed, hmem⟩ := h.named
  have hshown := hshows l hv
  rwa [if_pos (hnames _ _ _ _ hmem).symm, h.nodes] at hshown

/-- A document of a folder that is given by a relative name: the reports name another path. -/
theorem relative_folder_misnamed : ∃ before between after index total,
    Greeted.Opening (ending Greeted.home Greeted.folder).2.log "docs/a.md" "/p/docs/a.md" before between after index
      total :=
  Greeted.exists_opening (by decide +kernel)

end Session

end Transclude
