import Transclude.Proofs.Logs

/-!
# Planning and compiling side by side

Planning comes to the same on two desks if the sources in documents are read alike on both: if all that occur are, or
if the plan made on one desk shows that they are. Compiling reads the sources of the nodes of a plan and nothing else.
-/

namespace Transclude

open List Work Node

/-! ## What is known of a plan -/

namespace Node

structure Sound (usable : String → Prop) (n : Node) : Prop where
  failures : n.failures = []
  sources : ∀ m ∈ n.walk, usable m.directive.source

variable {trusted : String → Prop} {n : Node}

theorem trusts_of_children (hn : n.directive.source = "" ∧ n.document = none ∨ trusted n.directive.source)
    (hkids : ∀ c ∈ n.children, c.Trusts trusted) : n.Trusts trusted := by
  intro m hm
  rw [walk_eq] at hm
  rcases mem_cons.1 hm with rfl | hm
  · exact hn
  · obtain ⟨c, hc, hm⟩ := mem_flatMap.1 hm
    exact hkids c hc m hm

theorem trusts_failed {d : Directive} (hd : trusted d.source) (place : Nat) (errors : List Status) :
    (failed d place errors).Trusts trusted :=
  trusts_of_children (.inr hd) (forall_mem_nil _)

theorem isFailure_eq_false {m : Node} {e : Status} (h : n.failures = []) (hm : m ∈ n.walk) (he : e ∈ m.status) :
    e.isFailure = false := by
  have hnone := flatMap_eq_nil_iff.1 h m hm
  simpa using filter_eq_nil_iff.1 hnone e he

end Node

/-! ## Planning -/

namespace Plan

variable {root : Node}

/-- What is asked of an outcome so that the same can be planned elsewhere: all sources are trusted, or the result
shows it. -/
def Clear {α : Type} (closed : Prop) (shows : α → Prop) (x : Except Crash α) : Prop := closed ∨ ∃ a, x = .ok a ∧ shows a

structure Reliable (base : Desk) (document : String → String → Prop) (trusted usable : String → Prop)
    (closed : Prop) : Prop where
  files : ∀ source content, base.reads source = .ok (some content, []) → document source content
  occurs : closed → ∀ x, Occurs base.disk.folder document x → x.source ≠ "" → trusted x.source
  usable : ∀ path, usable path → base.objections path = .ok [] → trusted path

abbrev Alike (base : Desk) (trusted : String → Prop) (logged : Prop) (d d' : Desk) : Prop :=
  Desk.Alike base (fun _ => True) trusted logged d d'

variable {base d d' : Desk} {document : String → String → Prop} {trusted usable : String → Prop}
  {closed logged : Prop} {done done' : List Output} {s : Setting} {above : List String} {room : Nat}
  {given : Option String} {content : String} {n : Node} {config : Config} {r : Registry} {subject : Subject}

theorem Supplied.unique {source content' : String} (h : Supplied base.world given source content)
    (h' : Supplied base.world given source content') : content = content' := by
  cases given with
  | none =>
    have hsame : (some content, ([] : List Status)) = (some content', []) := Except.ok.inj (h.symm.trans h')
    cases hsame
    rfl
  | some text => exact h.symm.trans h'

theorem Made.exists_child (h : Made base.world s room above given n)
    (hn : ∀ c ∈ n.children, ∀ e ∈ c.status, e.isFailure = false) {fragments : List Fragment} {refusals : List Refusal}
    (hholds : Holds base.world s.registry given n.directive content fragments refusals) {x : Placed}
    (hx : x ∈ directivesFrom 0 (modernizeAll s.registry fragments).1) (hne : x.2.source ≠ "") :
    base.objections x.2.source = .ok [] ∧
      ∃ c ∈ n.children, c.directive = x.2 ∧ ∃ room above, Made base.world s room above none c := by
  obtain ⟨hsupp, ⟨data, hdata⟩, hcut⟩ := hholds
  cases h with
  | refused hreads hnone =>
    cases Except.ok.inj (hreads.symm.trans hsupp)
    exact absurd rfl (hnone content rfl)
  | unread hcont hunread =>
    obtain rfl := hcont.unique hsupp
    cases Except.ok.inj (hunread.symm.trans hdata)
  | @document _ _ _ _ content' fragments' _ checked built bare hdrawn hsort hkids hmade =>
    obtain rfl := hdrawn.supplied.unique hsupp
    cases Except.ok.inj (hdrawn.cut.symm.trans hcut)
    have hmem : x ∈ checked.map (·.1) := hsort.labels ▸ mem_filter.2 ⟨hx, by simpa using hne⟩
    obtain ⟨⟨x, found⟩, hz, rfl⟩ := mem_map.1 hmem
    have hjudged := hsort.judged _ hz
    cases found with
    | some e =>
      -- a source with an error has a node with that error
      have hfailed : failed x.2 x.1 [e] ∈ n.children := by
        rw [hkids]
        exact mem_append_left _ (mem_append_right _ (mem_filterMap.2 ⟨_, hz, rfl⟩))
      have hfalse := hn _ hfailed e mem_cons_self
      rw [hjudged.isFailure] at hfalse
      cases hfalse
    | none =>
      have hbuilt : x ∈ built.map label := by
        rw [hsort.planned]
        exact mem_map_of_mem (mem_filter.2 ⟨hz, rfl⟩)
      obtain ⟨c, hc, hlabel⟩ := mem_map.1 hbuilt
      refine ⟨hjudged.of_none.2.2, c, ?_, congrArg Prod.snd hlabel, _, _, hmade c hc⟩
      rw [hkids]
      exact mem_append_left _ (mem_append_left _ hc)

theorem Made.exists_node (h : Made base.world s room above given n) (hn : n.failures = []) {x : Directive}
    (hx : Found base.world s.registry n.directive given x) (hne : x.source ≠ "") :
    base.objections x.source = .ok [] ∧
      ∃ m ∈ n.walk, m.directive = x ∧ ∃ room above, Made base.world s room above none m := by
  have hclear {m c : Node} (hm : m ∈ n.walk) (hc : c ∈ m.children) : ∀ e ∈ c.status, e.isFailure = false :=
    fun e he => isFailure_eq_false hn (mem_walk_of_mem_children hm hc) he
  induction hx with
  | here hholds hx =>
    obtain ⟨hobj, c, hc, hmade⟩ := h.exists_child (fun c hc => hclear n.self_mem_walk hc) hholds hx hne
    exact ⟨hobj, c, mem_walk_of_mem_children n.self_mem_walk hc, hmade⟩
  | @further d _ _ _ x _ hholds hx ih =>
    obtain ⟨-, m, hm, rfl, _, _, hmade⟩ := ih (Desk.source_ne_of_reads hholds.supplied)
    obtain ⟨hobj, c, hc, hmade⟩ := hmade.exists_child (fun c hc => hclear hm hc) hholds hx hne
    exact ⟨hobj, c, mem_walk_of_mem_children hm hc, hmade⟩

theorem Made.trusts {root : Directive} {given' : Option String} (h : Made base.world s room above given n)
    (hn : trusted n.directive.source) (hled : Led base.world s.registry root given' n.directive given)
    (hfound : ∀ x, Found base.world s.registry root given' x → x.source ≠ "" → trusted x.source) :
    n.Trusts trusted := by
  induction h with
  | refused => exact trusts_failed hn _ _
  | unread => exact trusts_failed hn _ _
  | @document _ _ _ n content fragments _ checked built bare hdrawn hsort hkids _ ih =>
    have hall : ∀ x ∈ directivesFrom 0 (modernizeAll s.registry fragments).1,
        Found base.world s.registry root given' x.2 := fun x hx => hled.found_of_mem hdrawn.toHolds hx
    refine trusts_of_children (.inr hn) fun c hc => ?_
    rw [hkids, mem_append, mem_append] at hc
    rcases hc with (hc | hc) | hc
    · obtain ⟨hmem, hne, -⟩ := hsort.of_mem_built hc
      have hc' : Found base.world s.registry root given' c.directive := hall _ hmem
      exact ih c hc (hfound _ hc' hne) (.found hc')
    · obtain ⟨z, hz, hc⟩ := mem_filterMap.1 hc
      obtain ⟨e, -, rfl⟩ := Option.map_eq_some_iff.1 hc
      have hmem : z.1 ∈ (directivesFrom 0 (modernizeAll s.registry fragments).1).filter fun x => !x.2.source.isEmpty :=
        hsort.labels ▸ mem_map_of_mem hz
      exact trusts_failed (hfound _ (hall _ (mem_filter.1 hmem).1) (hsort.source_ne hz)) _ _
    · have hbare := hsort.sourceless c hc
      refine trusts_of_children (.inl ⟨hbare.source, hbare.document⟩) fun c' hc' => ?_
      rw [hbare.children] at hc'
      cases hc'

theorem rooted_of_serves (h : Desk.Serves base (fun _ => True) d)
    (hrun : ((subject.plan config r).run d).1 = .ok root) : Rooted base.world config r subject root := by
  have houtcome := (even_plan config r subject answers_matched (fun _ _ => ⟨trivial, trivial⟩)
    (fun _ _ _ => ⟨trivial, trivial⟩) d d ⟨h.alike_self, rfl, rfl⟩).outcome
  rwa [hrun] at houtcome

section

variable (hrel : Reliable base document trusted usable closed)
include hrel

theorem Rooted.source_trusted {path : String} (h : Rooted base.world config r (.file path) root)
    (hroot : root.Sound usable) : trusted root.directive.source := by
  have husable := hroot.sources root root.self_mem_walk
  have hread {content : String} (hcont : base.reads root.directive.source = .ok (some content, [])) :
      trusted root.directive.source :=
    hrel.usable _ husable (Cache.direct_eq_text_iff.1 hcont).1
  cases h.made with
  | refused hreads hnone =>
    obtain ⟨text, rfl, rfl⟩ | ⟨e, errors, rfl, rfl, hobj⟩ := Desk.reads_cases hreads
    · exact absurd rfl (hnone text rfl)
    · have hfalse := isFailure_eq_false hroot.failures (self_mem_walk _) mem_cons_self
      rw [Desk.isFailure_of_objections hobj e mem_cons_self] at hfalse
      cases hfalse
  | unread hcont => exact hread hcont
  | document hdrawn => exact hread hdrawn.supplied

theorem trusted_of_found {root x : Directive} (hclosed : closed) (hx : Found base.world r root given x)
    (hroot : ∀ content, Supplied base.world given root.source content → document root.source content)
    (hne : x.source ≠ "") : trusted x.source := by
  have hoccurs {source content : String} {fragments : List Fragment} {refusals : List Refusal} {x : Placed}
      (hdoc : document source content)
      (hcut : Fragment.ofText base.disk.folder (folderOf source) content.toList = .ok (fragments, refusals))
      (hx : x ∈ directivesFrom 0 (modernizeAll r fragments).1) (hne : x.2.source ≠ "") : trusted x.2.source := by
    obtain ⟨d₀, hd₀, hmodern⟩ := exists_of_mem_modernizeAll hx
    have hsrc : x.2.source = d₀.source := by rw [hmodern, modernize_source]
    rw [hsrc] at hne ⊢
    exact hrel.occurs hclosed d₀ ⟨_, _, _, _, hdoc, hcut, _, hd₀⟩ hne
  cases hx with
  | here hholds hx => exact hoccurs (hroot _ hholds.supplied) hholds.cut hx hne
  | further _ hholds hx => exact hoccurs (hrel.files _ _ hholds.supplied) hholds.cut hx hne

theorem agree_plan (hroot : closed → trusted (subject.source base.disk.folder))
    (htext : ∀ content, subject = .text content →
      trusted (subject.source base.disk.folder) ∧ document (subject.source base.disk.folder) content)
    (h : Desk.Matched base (fun _ => True) trusted logged done done' d d')
    (hclear : Clear closed (Node.Sound usable) ((subject.plan config r).run d).1) :
    Agree (Desk.Matched base (fun _ => True) trusted logged done done') (Node.Trusts trusted) (fun _ => True)
      ((subject.plan config r).run d) ((subject.plan config r).run d') := by
  have hdoc : ∀ content, Supplied base.world subject.given (subject.source base.disk.folder) content →
      document (subject.source base.disk.folder) content := by
    intro content hcont
    cases subject with
    | file => exact hrel.files _ _ hcont
    | text text =>
      obtain rfl : text = content := hcont
      exact (htext text rfl).2
  have hsrc : trusted (subject.source base.disk.folder) := by
    rcases hclear with hclosed | ⟨root, hrun, hsound⟩
    · exact hroot hclosed
    cases subject with
    | text text => exact (htext text rfl).1
    | file path =>
      have hrooted := rooted_of_serves h.1.left hrun
      have htrusted := hrooted.source_trusted hrel hsound
      rwa [hrooted.directive_eq] at htrusted
  have hfound : ∀ x, Found base.world r (subject.directive config base.disk.folder) subject.given x → x.source ≠ "" →
      trusted x.source := by
    intro x hx hne
    rcases hclear with hclosed | ⟨root, hrun, hsound⟩
    · exact trusted_of_found hrel hclosed hx hdoc hne
    · have hrooted := rooted_of_serves h.1.left hrun
      have hroot : root.directive = subject.directive config base.disk.folder := hrooted.directive_eq
      rw [← hroot] at hx
      obtain ⟨hobj, m, hm, rfl, -⟩ := hrooted.made.exists_node hsound.failures hx hne
      exact hrel.usable _ (hsound.sources m hm) hobj
  obtain ⟨hres, houtcome, hafter⟩ := even_plan config r subject answers_matched
    (fun _ _ => ⟨trivial, hsrc⟩) (fun x hx hne => ⟨trivial, hfound x hx hne⟩) d d' h
  refine ⟨hres, houtcome.imp (fun root hrooted => ?_) fun _ _ => trivial, hafter⟩
  refine hrooted.made.trusts ?_ ?_ hfound
  · rw [hrooted.directive_eq]
    exact hsrc
  · rw [hrooted.directive_eq]
    exact .root

end

end Plan

/-! ## Compiling -/

namespace Compile

variable {base : Desk} {trusted : String → Prop} {logged : Prop} {done done' : List Output} {E : Crash → Prop}

theorem ne_uncached_of_reads {path : String} {c : Crash} (h : base.reads path = .error c) : c ≠ uncached := by
  rintro rfl
  rw [Desk.reads, Cache.direct, Cache.objections] at h
  split_ifs at h
  · cases h
  · rw [Except.ok_bind] at h
    split at h
    swap
    · cases h
    cases htext : base.disk.text (Path.ofText path).text with
    | error fault =>
      rw [htext] at h
      cases h
    | ok text =>
      rw [htext] at h
      cases h

theorem isDelivery_error (text : String) : (Output.err (s!"error: {text}" ++ "\n")).isDelivery = false := by
  have hlist : (s!"error: {text}" ++ "\n").toList = 'e' :: _ := toList_append_cons (toList_append_cons rfl)
  rw [Output.isDelivery, hlist]
  rfl

theorem advances_matched (hE : ∀ c, c ≠ uncached → E c) :
    Advances (fun path found => base.reads path = .ok found) trusted E
      (Desk.Matched base trusted trusted logged done done') where
  folder h := h.1.folder
  acceptAll h := h.1.acceptAll
  readFile hpath := (even_readFile hpath hpath).imp (fun _ h => h) fun c hc => hE c (ne_uncached_of_reads hc)
  errorLine message := even_report (isDelivery_error message)
  ask := even_ask
  accept := even_alter (fun d d' h => { h with
    left := h.left.congr rfl ⟨rfl, rfl⟩ h.left.faithful
    right := h.right.congr rfl ⟨rfl, rfl⟩ h.right.faithful
    acceptAll := rfl }) fun _ => rfl
  spares := hE
  advance s := by
    rw [advance]
    split
    · exact even_pure trivial
    · rintro d d' ⟨h, hdone⟩
      refine ⟨rfl, trivial, ?_, hdone⟩
      refine { h with
        left := h.left.congr rfl ⟨rfl, rfl⟩ h.left.faithful
        right := h.right.congr rfl ⟨rfl, rfl⟩ h.right.faithful
        compiled := fun hlogged => congrArg (· + 1) (h.compiled hlogged)
        heard := fun hlogged => ?_ }
      change Output.event (.nodeCompiled _ (d'.compiled + 1 : Nat) _ _) :: d'.heard =
        Output.event (.nodeCompiled _ (d.compiled + 1 : Nat) _ _) :: d.heard
      rw [h.heard hlogged, h.compiled hlogged]
  restart := even_alter (fun d d' h => { h with
    left := h.left.congr rfl ⟨rfl, rfl⟩ h.left.faithful
    right := h.right.congr rfl ⟨rfl, rfl⟩ h.right.faithful
    compiled := fun _ => rfl }) fun _ => rfl

end Compile

end Transclude
