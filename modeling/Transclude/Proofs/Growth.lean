import Transclude.Proofs.Aliases
import Transclude.Proofs.Pairs

/-!
# How plans grow

The plan of a file is the same on all twins of a desk, and each node has the document of its source or an obstacle
(`Grown`). So a file has the same directives below it wherever it is planned (`exists_counterpart`,
`Stands.exists_document`).
-/

namespace Transclude

open List Cache Node

/-! ## Walking a tree -/

namespace Node

variable {root n c : Node} {k : Nat}

theorem induct {motive : Node → Prop} (h : ∀ n, (∀ c ∈ n.children, motive c) → motive n) (n : Node) :
    motive n :=
  h n fun c _ => induct h c
termination_by sizeOf n
decreasing_by
  rename_i hc
  have hlt := sizeOf_lt_of_mem hc
  cases n
  simp only [mk.sizeOf_spec] at hlt ⊢
  omega

theorem walkAll_eq (ns : List Node) : walkAll ns = ns.flatMap walk := by
  induction ns with
  | nil => rw [walkAll, flatMap_nil]
  | cons n ns ih => rw [walkAll, ih, flatMap_cons]

theorem walk_eq (n : Node) : n.walk = n :: n.children.flatMap walk := by
  cases n
  rw [walk, walkAll_eq]

theorem self_mem_walk (n : Node) : n ∈ n.walk := by
  rw [walk_eq]
  exact mem_cons_self

theorem mem_walk_of_mem_children (hn : n ∈ root.walk) (hc : c ∈ n.children) : c ∈ root.walk := by
  induction root using induct with
  | h root ih =>
    rw [walk_eq] at hn ⊢
    refine mem_cons_of_mem _ (mem_flatMap.2 ?_)
    rcases mem_cons.1 hn with rfl | hn
    · exact ⟨c, hc, c.self_mem_walk⟩
    · obtain ⟨m, hm, hn⟩ := mem_flatMap.1 hn
      exact ⟨m, hm, ih m hm hn⟩

theorem AtDepth.of_child (hc : c ∈ root.children) (hn : c.AtDepth k n) : root.AtDepth (k + 1) n := by
  induction hn with
  | root => exact .child .root hc
  | child _ hm ih => exact .child ih hm

theorem mem_walk_iff : n ∈ root.walk ↔ ∃ k, root.AtDepth k n := by
  constructor
  · intro hn
    induction root using induct with
    | h root ih =>
      rw [walk_eq] at hn
      rcases mem_cons.1 hn with rfl | hn
      · exact ⟨0, .root⟩
      · obtain ⟨m, hm, hn⟩ := mem_flatMap.1 hn
        obtain ⟨k, hk⟩ := ih m hm hn
        exact ⟨k + 1, hk.of_child hm⟩
  · rintro ⟨k, hn⟩
    induction hn with
    | root => exact root.self_mem_walk
    | child _ hc ih => exact mem_walk_of_mem_children ih hc

def resolved (cwd : Path) (n : Node) : String := (Path.resolve cwd (.ofText n.directive.source)).text

end Node

theorem Desk.source_ne_of_reads {desk : Desk} {source text : String}
    (h : desk.reads source = .ok (some text, [])) : source ≠ "" := by
  rintro rfl
  cases (isFile_of_direct h).2

namespace Plan

open Work

/-! ## Nodes with and without documents -/

inductive Obstacle (desk : Desk) (s : Setting) (above : List String) (d : Directive) (status : List Status) : Prop where
  | bare : d.source = "" → Obstacle desk s above d status
  | circular : d.source ∈ above → Obstacle desk s above d status
  | deep : status = [tooDeep s] → Obstacle desk s above d status
  | refused {e : Status} {errors : List Status} :
      desk.objections d.source = .ok (e :: errors) → Obstacle desk s above d status
  | unread {content : String} {data : Option Data} {e : Status} {errors : List Status} :
      desk.reads d.source = .ok (some content, []) →
      dataOf s.registry desk.disk.folder d content = .ok (data, e :: errors) → Obstacle desk s above d status

structure Opened (desk : Desk) (s : Setting) (n : Node) (content : String) (fragments : List Fragment) : Prop where
  reads : desk.reads n.directive.source = .ok (some content, [])
  cut : ∃ refusals, Fragment.ofText desk.disk.folder (folderOf n.directive.source) content.toList =
    .ok (fragments, refusals)
  document : n.document = some (modernizeAll s.registry fragments).1
  accepted : ∃ data, dataOf s.registry desk.disk.folder n.directive content = .ok (data, [])

/-- A tree in which every node has the document of its source or an obstacle; `above` are the sources further up. -/
inductive Grown (desk : Desk) (s : Setting) : List String → Node → Prop where
  | leaf {above : List String} {n : Node} :
      n.document = none → n.children = [] → Obstacle desk s above n.directive n.status → Grown desk s above n
  | branch {above : List String} {n : Node} {content : String} {fragments : List Fragment} :
      Opened desk s n content fragments →
      (∀ c ∈ n.children, Grown desk s (n.directive.source :: above) c) → Grown desk s above n

/-! ## Planning makes such trees -/

section

variable {desk : Desk} {s : Setting} {above : List String} {room : Nat} {d : Directive} {e : Status}

theorem Judged.obstacle (h : Judged desk.world s above room d (some e)) : Obstacle desk s above d [e] := by
  generalize hfound : some e = found at h
  cases h with
  | circular habove => exact .circular habove
  | deep =>
    cases hfound
    exact .deep rfl
  | @checked errors _ _ hobj =>
    cases errors with
    | nil => cases hfound
    | cons first rest => exact .refused hobj

theorem Judged.isFailure (h : Judged desk.world s above room d (some e)) : e.isFailure = true := by
  generalize hfound : some e = found at h
  cases h with
  | circular =>
    cases hfound
    rfl
  | deep =>
    cases hfound
    rfl
  | checked _ _ hobj => exact Desk.isFailure_of_objections hobj e (mem_of_head? hfound.symm)

theorem Made.grown {n : Node} {above' : List String} {given : Option String}
    (h : Made desk.world s room above given n) (hgiven : given = none)
    (habove : above = n.directive.source :: above') : Grown desk s above' n := by
  induction h generalizing above' with
  | refused hreads hnone =>
    obtain ⟨text, rfl, rfl⟩ | ⟨e, rest, rfl, rfl, hobj⟩ := Desk.reads_cases hreads
    · exact absurd rfl (hnone text rfl)
    · exact .leaf rfl rfl (.refused hobj)
  | unread hcont hdata =>
    subst hgiven
    exact .leaf rfl rfl (.unread hcont hdata)
  | @document room above given n content fragments refusals checked built bare hdrawn hsort hkids _ ih =>
    subst hgiven
    refine .branch ⟨hdrawn.supplied, ⟨refusals, hdrawn.cut⟩, hdrawn.document, hdrawn.accepted⟩ fun c hc => ?_
    rw [hkids, mem_append, mem_append] at hc
    rw [← habove]
    rcases hc with (hc | hc) | hc
    · exact ih c hc rfl rfl
    · obtain ⟨z, hz, hc⟩ := mem_filterMap.1 hc
      obtain ⟨e, he, rfl⟩ := Option.map_eq_some_iff.1 hc
      exact .leaf rfl rfl (he ▸ hsort.judged z hz).obstacle
    · have hbare := hsort.sourceless c hc
      exact .leaf hbare.document hbare.children (.bare hbare.source)

theorem Rooted.grown {config : Config} {r : Registry} {path : String} {root : Node}
    (h : Rooted desk.world config r (.file path) root) : Grown desk (settingOf config r) [] root :=
  h.made.grown rfl (by rw [h.directive_eq]; rfl)

theorem steady_planFile (config : Config) (r : Registry) (path : String) :
    Steady desk (fun root => ∃ p, Path.follow desk.disk.folder path = .ok p ∧
        root.directive = ⟨config.rootKind, p.text, [], ""⟩ ∧ Grown desk (settingOf config r) [] root)
      (fun _ => True) (planFile config r path) :=
  (even_plan config r (.file path) (answers_twins desk) (fun _ _ => trivial)
    (fun _ _ _ => trivial)).imp (fun _ h => ⟨_, h.follow_eq, h.directive_eq, h.grown⟩) fun _ _ => trivial

end

/-! ## Trees of files -/

structure Stands (desk : Desk) (s : Setting) (root : Node) : Prop where
  planned : ∃ levels, Planned s.registry levels root
  grown : Grown desk s [] root
  absolute : (Path.ofText root.directive.source).isAbsolute = true

section

variable {desk : Desk} {s : Setting} {root n m c : Node} {content content' : String}
  {fragments fragments' : List Fragment} {k : Nat} {above : List String}

theorem Grown.exists_opened (h : Grown desk s above n) (hn : n.document.isSome = true) :
    ∃ content fragments, Opened desk s n content fragments := by
  cases h with
  | leaf hnone => simp [hnone] at hn
  | branch hopened => exact ⟨_, _, hopened⟩

theorem Grown.document_of_mem (h : Grown desk s above n) (hc : c ∈ n.children) : n.document.isSome = true := by
  cases h with
  | leaf _ hnone =>
    rw [hnone] at hc
    cases hc
  | branch hopened => simp [hopened.document]

theorem Grown.atDepth (h : Grown desk s above root) (hn : root.AtDepth k n) :
    ∃ above', Grown desk s above' n ∧ ∀ source ∈ above', source ∈ above ∨
      ∃ m ∈ root.walk, m.document.isSome = true ∧ m.directive.source = source := by
  induction hn with
  | root => exact ⟨above, h, fun _ hsrc => .inl hsrc⟩
  | @child k n c hk hc ih =>
    obtain ⟨above', hgrown, habove⟩ := ih
    have hdoc := hgrown.document_of_mem hc
    cases hgrown with
    | leaf hnone => simp [hnone] at hdoc
    | branch _ hkids =>
      refine ⟨n.directive.source :: above', hkids c hc, forall_mem_cons.2 ⟨.inr ?_, habove⟩⟩
      exact ⟨n, mem_walk_iff.2 ⟨k, hk⟩, hdoc, rfl⟩

namespace Opened

theorem isFile (h : Opened desk s n content fragments) : desk.disk.isFile n.directive.source = true :=
  (isFile_of_direct h.reads).2

theorem source_ne (h : Opened desk s n content fragments) : n.directive.source ≠ "" := Desk.source_ne_of_reads h.reads

theorem child_source (h : Opened desk s n content fragments) {levels : Nat} (hn : Planned s.registry levels n)
    (habs : (Path.ofText n.directive.source).isAbsolute = true) (hc : c ∈ n.children) :
    c.directive.source = "" ∨ (Path.ofText c.directive.source).isAbsolute = true := by
  have hlabel : c.label ∈ wanted s.registry (modernizeAll s.registry fragments).1 :=
    (hn.children_perm h.document).mem_iff.1 (mem_map_of_mem hc)
  obtain ⟨d, hd, hmodern⟩ := exists_of_mem_modernizeAll (mem_filter.1 hlabel).1
  obtain ⟨refusals, hcut⟩ := h.cut
  obtain ⟨source, -, hsrc⟩ := Fragment.exists_gives hcut (of_mem_directivesFrom hd).2
  have hsame : c.directive.source = d.source := by
    rw [show c.directive = (s.registry.modernize d).1 from hmodern, modernize_source]
  rw [hsame]
  exact absolute_of_resolveSource habs hsrc

end Opened

theorem dataOf_detached (r : Registry) (cwd : Path) (d : Directive) (content : String) :
    dataOf r cwd d.detached content = dataOf r cwd d content := by
  simp only [dataOf, Plugin.readSource, Directive.detached]

theorem exists_counterpart {levels levels' : Nat} (hn : Opened desk s n content fragments)
    (hm : Opened desk s m content' fragments') (hplanned : Planned s.registry levels n)
    (hplanned' : Planned s.registry levels' m) (h : desk.disk.Aliases n.directive.source m.directive.source)
    (hc : c ∈ n.children) : ∃ c' ∈ m.children, c'.directive.detached = c.directive.detached := by
  have hcont : content = content' := by
    have hnull := (isFile_of_direct hm.reads).1
    have hreads : desk.reads m.directive.source = .ok (some content, []) := direct_of_aliases h hnull hn.reads
    rw [hm.reads] at hreads
    simpa using hreads.symm
  subst hcont
  obtain ⟨_, hcut⟩ := hn.cut
  obtain ⟨_, hcut'⟩ := hm.cut
  have hsrcs : SameSources desk.disk.folder (folderOf n.directive.source) (folderOf m.directive.source) :=
    fun source u v => resolveSource_of_aliases h
  have hfrags := Fragment.ofText_detached hsrcs hcut hcut'
  have hwanted : (wanted s.registry (modernizeAll s.registry fragments).1).map (fun x => (x.1, x.2.detached)) =
      (wanted s.registry (modernizeAll s.registry fragments').1).map fun x => (x.1, x.2.detached) := by
    rw [← wanted_detached, ← wanted_detached, ← modernizeAll_detached, ← modernizeAll_detached, hfrags]
  have hlabel : c.label ∈ wanted s.registry (modernizeAll s.registry fragments).1 :=
    (hplanned.children_perm hn.document).mem_iff.1 (mem_map_of_mem hc)
  have hmem := mem_map_of_mem (f := fun x : Placed => (x.1, x.2.detached)) hlabel
  rw [hwanted] at hmem
  obtain ⟨y, hy, heq⟩ := mem_map.1 hmem
  obtain ⟨c', hc', rfl⟩ := mem_map.1 ((hplanned'.children_perm hm.document).mem_iff.2 hy)
  exact ⟨c', hc', congrArg Prod.snd heq⟩

namespace Stands

variable {root' : Node}

theorem planned_of_mem (h : Stands desk s root) (hn : n ∈ root.walk) : ∃ levels, Planned s.registry levels n := by
  obtain ⟨levels, hplanned⟩ := h.planned
  obtain ⟨k, hk⟩ := mem_walk_iff.1 hn
  obtain ⟨l, -, hl⟩ := hplanned.atDepth hk
  exact ⟨l, hl⟩

theorem opened (h : Stands desk s root) (hn : n ∈ root.walk) (hdoc : n.document.isSome = true) :
    ∃ content fragments, Opened desk s n content fragments := by
  obtain ⟨k, hk⟩ := mem_walk_iff.1 hn
  obtain ⟨above, hgrown, -⟩ := h.grown.atDepth hk
  exact hgrown.exists_opened hdoc

theorem document_of_mem (h : Stands desk s root) (hn : n ∈ root.walk) (hc : c ∈ n.children) :
    n.document.isSome = true := by
  obtain ⟨k, hk⟩ := mem_walk_iff.1 hn
  obtain ⟨above, hgrown, -⟩ := h.grown.atDepth hk
  exact hgrown.document_of_mem hc

theorem source_cases (h : Stands desk s root) (hk : root.AtDepth k n) :
    n.directive.source = "" ∨ (Path.ofText n.directive.source).isAbsolute = true := by
  induction hk with
  | root => exact .inr h.absolute
  | @child k n c hk hc ih =>
    have hn := mem_walk_iff.2 ⟨k, hk⟩
    obtain ⟨content, fragments, hopened⟩ := h.opened hn (h.document_of_mem hn hc)
    obtain ⟨levels, hplanned⟩ := h.planned_of_mem hn
    exact hopened.child_source hplanned (ih.resolve_left hopened.source_ne) hc

theorem aliases (h : Stands desk s root) (h' : Stands desk s root') (hn : n ∈ root.walk) (hm : m ∈ root'.walk)
    (hopened : Opened desk s n content fragments) (hopened' : Opened desk s m content' fragments')
    (hres : n.resolved desk.disk.folder = m.resolved desk.disk.folder) :
    desk.disk.Aliases n.directive.source m.directive.source := by
  obtain ⟨k, hk⟩ := mem_walk_iff.1 hn
  obtain ⟨k', hk'⟩ := mem_walk_iff.1 hm
  have habs := (h.source_cases hk).resolve_left hopened.source_ne
  have habs' := (h'.source_cases hk').resolve_left hopened'.source_ne
  exact ⟨habs, habs', hopened.isFile, hopened'.isFile, Path.resolve_eq_of_text_eq habs habs' hres⟩

theorem exists_counterpart (h : Stands desk s root) (h' : Stands desk s root') (hn : n ∈ root.walk)
    (hm : m ∈ root'.walk) (hdoc : m.document.isSome = true)
    (hres : n.resolved desk.disk.folder = m.resolved desk.disk.folder) (hc : c ∈ n.children) :
    ∃ c' ∈ m.children, c'.directive.detached = c.directive.detached := by
  obtain ⟨content, fragments, hopened⟩ := h.opened hn (h.document_of_mem hn hc)
  obtain ⟨content', fragments', hopened'⟩ := h'.opened hm hdoc
  obtain ⟨levels, hplanned⟩ := h.planned_of_mem hn
  obtain ⟨levels', hplanned'⟩ := h'.planned_of_mem hm
  exact Plan.exists_counterpart hopened hopened' hplanned hplanned' (h.aliases h' hn hm hopened hopened' hres) hc

theorem exists_document_or (h : Stands desk s root) (hn : n ∈ root.walk) (hdeep : tooDeep s ∉ n.status)
    (hsrc : n.directive.source ≠ "") :
    (∃ m ∈ root.walk, m.document.isSome = true ∧ m.directive.source = n.directive.source) ∨
    (∃ e errors, desk.objections n.directive.source = .ok (e :: errors)) ∨
    ∃ content data e errors, desk.reads n.directive.source = .ok (some content, []) ∧
      dataOf s.registry desk.disk.folder n.directive content = .ok (data, e :: errors) := by
  obtain ⟨k, hk⟩ := mem_walk_iff.1 hn
  obtain ⟨above, hgrown, habove⟩ := h.grown.atDepth hk
  cases hgrown with
  | branch hopened => exact .inl ⟨n, hn, by simp [hopened.document], rfl⟩
  | leaf _ _ hobstacle =>
    cases hobstacle with
    | bare hempty => exact absurd hempty hsrc
    | circular hmem => exact .inl ((habove _ hmem).resolve_left not_mem_nil)
    | deep hstatus => exact absurd (by simp [hstatus]) hdeep
    | refused hobj => exact .inr (.inl ⟨_, _, hobj⟩)
    | unread hreads hdata => exact .inr (.inr ⟨_, _, _, _, hreads, hdata⟩)

theorem exists_document_of_reads (h : Stands desk s root) (hn : n ∈ root.walk) (hdeep : tooDeep s ∉ n.status)
    {data : Option Data} (hreads : desk.reads n.directive.source = .ok (some content, []))
    (hdata : dataOf s.registry desk.disk.folder n.directive content = .ok (data, [])) :
    ∃ m ∈ root.walk, m.document.isSome = true ∧ m.directive.source = n.directive.source := by
  obtain hfound | ⟨e, errors, hobj⟩ | ⟨content', data', e, errors, hreads', hdata'⟩ :=
    h.exists_document_or hn hdeep (Desk.source_ne_of_reads hreads)
  · exact hfound
  · have hnone : desk.objections n.directive.source = .ok [] := (direct_eq_text_iff.1 hreads).1
    rw [hnone] at hobj
    simp at hobj
  · rw [hreads] at hreads'
    obtain rfl : content = content' := by simpa using hreads'
    rw [hdata] at hdata'
    simp at hdata'

theorem hasNull_eq_false (h : Stands desk s root) (hn : n ∈ root.walk) (hdeep : tooDeep s ∉ n.status)
    (hsrc : n.directive.source ≠ "") : Path.hasNull n.directive.source = false := by
  obtain ⟨m, hm, hdoc, hsame⟩ | ⟨e, errors, hobj⟩ | ⟨content, _, _, _, hreads, -⟩ :=
    h.exists_document_or hn hdeep hsrc
  · obtain ⟨content, fragments, hopened⟩ := h.opened hm hdoc
    rw [← hsame]
    exact (isFile_of_direct hopened.reads).1
  · rw [Desk.objections, objections] at hobj
    split_ifs at hobj with hnull
    simpa using hnull
  · exact (isFile_of_direct hreads).1

theorem exists_document (h : Stands desk s root) (h' : Stands desk s root')
    (hdeep : ∀ n ∈ root'.walk, tooDeep s ∉ n.status)
    (hroot : ∃ m ∈ root'.walk, m.document.isSome = true ∧ root.resolved desk.disk.folder = m.resolved desk.disk.folder)
    (hk : root.AtDepth k n) (hdoc : n.document.isSome = true) :
    ∃ m ∈ root'.walk, m.document.isSome = true ∧ n.resolved desk.disk.folder = m.resolved desk.disk.folder := by
  induction hk with
  | root => exact hroot
  | @child k n c hk hc ih =>
    have hn := mem_walk_iff.2 ⟨k, hk⟩
    obtain ⟨m, hm, hmdocument, hres⟩ := ih (h.document_of_mem hn hc)
    obtain ⟨c', hc', hdet⟩ := h.exists_counterpart h' hn hm hmdocument hres hc
    have hsrc := (Directive.of_detached_eq hdet).2.1
    obtain ⟨content, fragments, hopened⟩ := h.opened (mem_walk_of_mem_children hn hc) hdoc
    have hc'walk := mem_walk_of_mem_children hm hc'
    have hreads : desk.reads c'.directive.source = .ok (some content, []) := by
      rw [hsrc]
      exact hopened.reads
    obtain ⟨data, hdata⟩ := hopened.accepted
    rw [← dataOf_detached, ← hdet, dataOf_detached] at hdata
    obtain ⟨m', hm', hm'document, hsame⟩ := h'.exists_document_of_reads hc'walk (hdeep _ hc'walk) hreads hdata
    refine ⟨m', hm', hm'document, ?_⟩
    rw [resolved, resolved, hsame, hsrc]

end Stands

end

end Plan

end Transclude
