import Transclude.Proofs.Growth

/-!
# Documents above documents

A source is planned only if its text is none of those above it (`Ascending`). A relative source is resolved first, so
that equal paths are equal texts; two absolute ones may stand for one file.
-/

namespace Transclude

open List Directive Node Path Except

variable {n : Node} {x : List Fragment × List Refusal} {ns : List Node} {fragments : List Fragment}
  {refusals : List Refusal} {source : String} {d : Directive}

namespace Path

theorem Canonical.resolve {folder p : Path} (hdir : folder.Canonical) (hp : p.Clean) :
    (resolve folder p).Canonical := by
  by_cases habs : p.isAbsolute = true
  · exact canonical_resolve folder hp habs
  · refine ⟨rfl, fun name hname => ?_, resolve_down folder p⟩
    have hjoin : (folder.join p).parts = folder.parts ++ p.parts := by rw [Path.join, if_neg habs]
    rw [Path.resolve, hjoin] at hname
    rcases of_mem_collapse hname with hname | ⟨hname, -⟩
    · cases hname
    · rcases mem_append.1 hname with hname | hname
      · exact hdir.names _ hname
      · exact hp.names _ hname

theorem Canonical.text_resolve {p : Path} (h : p.Canonical) (folder : Path) :
    (Path.resolve folder (.ofText p.text)).text = p.text := by
  rw [ofText_text h.clean, h.resolve_eq]

end Path

/-! ## Ways down a tree -/

namespace Node

inductive Chain : Node → List Node → Prop where
  | stop (n : Node) : Chain n [n]
  | down {n c : Node} {ns : List Node} : c ∈ n.children → Chain c ns → Chain n (n :: ns)

theorem Chain.eq_cons (h : n.Chain ns) : ns = n :: ns.tail := by cases h <;> rfl

def documents (ns : List Node) : List Node := ns.filter (·.document.isSome)

def Settled (cwd : Path) (n : Node) : Prop := n.resolved cwd = n.directive.source

def Quotes (r : Registry) (cwd : Path) (n : Node) (source : String) : Prop :=
  ∃ content fragments refusals,
    Fragment.ofText cwd (Plan.folderOf n.directive.source) content.toList = .ok (fragments, refusals) ∧
    n.document = some (Plan.modernizeAll r fragments).1 ∧ Fragment.Gives cwd content source

end Node

namespace Plan

open Work

/-- A tree of which no document has a source of a document above it; `above` are the sources further up. -/
inductive Ascending (r : Registry) (cwd : Path) : List String → Node → Prop where
  | leaf {above : List String} {n : Node} : n.document = none → n.children = [] → Ascending r cwd above n
  | branch {above : List String} {n : Node} : n.directive.source ∉ above →
      (∀ c ∈ n.children, Ascending r cwd (n.directive.source :: above) c) →
      (∀ c ∈ n.children, c.document.isSome = true →
        c.Settled cwd ∨ (ofText c.directive.source).isAbsolute = true ∧ n.Quotes r cwd c.directive.source) →
      Ascending r cwd above n

section

variable {r : Registry} {cwd : Path} {s : Setting} {above : List String} {content : String}

theorem settled_or_gives (habs : (ofText source).isAbsolute = true)
    (hcut : Fragment.ofText cwd (folderOf source) content.toList = .ok (fragments, refusals))
    (hd : .directive d ∈ fragments) (hne : d.source ≠ "") :
    (ofText d.source).isAbsolute = true ∧
      ((resolve cwd (.ofText d.source)).text = d.source ∨ Fragment.Gives cwd content d.source) := by
  obtain ⟨given, hgives, hsrc⟩ := Fragment.exists_gives hcut hd
  refine ⟨(absolute_of_resolveSource habs hsrc).resolve_left hne, ?_⟩
  simp only [resolveSource] at hsrc
  split_ifs at hsrc with hrel
  · have hjoined : ((ofText (folderOf source)).join (.ofText given)).Clean ∧
        ((ofText (folderOf source)).join (.ofText given)).isAbsolute = true := by
      have hgiven : (ofText given).isAbsolute = false := by simp_all
      have hdir := clean_ofText (folderOf source)
      rw [join, if_neg (by simp [hgiven])]
      refine ⟨⟨hdir.root, fun name hname => ?_⟩, ?_⟩
      · rcases mem_append.1 hname with hname | hname
        · exact hdir.names _ hname
        · exact (clean_ofText given).names _ hname
      · rw [(ofText_folderOf habs).1]
        exact habs
    rw [← Except.ok.inj hsrc]
    exact .inl ((canonical_resolve cwd hjoined.1 hjoined.2).text_resolve cwd)
  · cases hsrc
    exact .inr hgives

theorem settled_or_gives_modern {x : Placed} (habs : (ofText source).isAbsolute = true)
    (hcut : Fragment.ofText cwd (folderOf source) content.toList = .ok (fragments, refusals))
    (hx : x ∈ directivesFrom 0 (modernizeAll r fragments).1) (hne : x.2.source ≠ "") :
    (ofText x.2.source).isAbsolute = true ∧
      ((resolve cwd (.ofText x.2.source)).text = x.2.source ∨ Fragment.Gives cwd content x.2.source) := by
  obtain ⟨d, hd, hmodern⟩ := exists_of_mem_modernizeAll hx
  rw [hmodern, modernize_source] at hne ⊢
  exact settled_or_gives habs hcut (of_mem_directivesFrom hd).2 hne

theorem leaf_of_mem_broken {checked : List (Placed × Option Status)} (h : n ∈ broken checked) :
    n.document = none ∧ n.children = [] := by
  obtain ⟨x, -, hx⟩ := mem_filterMap.1 h
  obtain ⟨e, -, rfl⟩ := Option.map_eq_some_iff.1 hx
  exact ⟨rfl, rfl⟩

theorem Made.ascending {w : World} {room : Nat} {given : Option String} {above' : List String}
    (h : Made w s room above given n) (habove : above = n.directive.source :: above')
    (habs : (ofText n.directive.source).isAbsolute = true) (hnew : n.directive.source ∉ above') : Ascending s.registry w.folder above' n := by
  induction h generalizing above' with
  | refused => exact .leaf rfl rfl
  | unread => exact .leaf rfl rfl
  | @document room above given n content fragments refusals checked built bare hdrawn hsort hkids _ ih =>
    have hcases : ∀ c ∈ n.children, (c.document = none ∧ c.children = []) ∨ c ∈ built := by
      intro c hc
      rw [hkids, mem_append, mem_append] at hc
      rcases hc with (hc | hc) | hc
      · exact .inr hc
      · exact .inl (leaf_of_mem_broken hc)
      · exact .inl ⟨(hsort.sourceless c hc).document, (hsort.sourceless c hc).children⟩
    have hsrc : ∀ c ∈ built, (ofText c.directive.source).isAbsolute = true ∧
        ((resolve w.folder (.ofText c.directive.source)).text = c.directive.source ∨
          Fragment.Gives w.folder content c.directive.source) := by
      intro c hc
      obtain ⟨hmem, hne, -⟩ := hsort.of_mem_built hc
      exact settled_or_gives_modern (x := c.label) habs hdrawn.cut hmem hne
    refine .branch hnew (fun c hc => ?_) fun c hc hdoc => ?_
    · rcases hcases c hc with ⟨hnone, hleaf⟩ | hc
      · exact .leaf hnone hleaf
      · rw [← habove]
        exact ih c hc rfl (hsrc c hc).1 (hsort.of_mem_built hc).2.2.of_none.1
    · rcases hcases c hc with ⟨hnone, -⟩ | hc
      · simp [hnone] at hdoc
      · obtain ⟨habsolute, hgives⟩ := hsrc c hc
        exact hgives.imp id fun hgives => ⟨habsolute, content, fragments, refusals, hdrawn.cut, hdrawn.document, hgives⟩

theorem ascending_of_planFile {config : Config} {path : String} {desk desk' : Desk} {root : Node}
    (hdir : desk.disk.folder.Canonical) (h : (planFile config r path).run desk = (.ok root, desk')) :
    root.Settled desk.disk.folder ∧ Ascending r desk.disk.folder [] root := by
  have hroot := rooted_of_plan_ok (.file path) h
  have hcanon := hdir.resolve (clean_ofText path)
  have hsrc : root.directive.source = (resolve desk.disk.folder (.ofText path)).text := by
    rw [hroot.directive_eq]
    rfl
  constructor
  · rw [Node.Settled, resolved, hsrc]
    exact hcanon.text_resolve _
  · refine hroot.made.ascending (by rw [hsrc]; rfl) ?_ not_mem_nil
    rw [hsrc]
    exact isAbsolute_ofText_text hcanon.root

/-! ## The documents on a way down -/

theorem Ascending.not_mem (h : Ascending r cwd above n) (hn : n.document.isSome = true) :
    n.directive.source ∉ above := by
  cases h with
  | leaf hnone => simp [hnone] at hn
  | branch hnew => exact hnew

theorem Ascending.chain (h : Ascending r cwd above n) (hns : n.Chain ns) :
    (∀ m ∈ documents ns, m.directive.source ∉ above) ∧
    (documents ns).Pairwise fun m m' => m.directive.source ≠ m'.directive.source := by
  induction hns generalizing above with
  | stop n =>
    rw [documents, filter_singleton]
    cases hn : n.document.isSome with
    | false => simp
    | true => simpa using h.not_mem hn
  | @down n c ns hc _ ih =>
    cases h with
    | leaf _ hnone => simp [hnone] at hc
    | branch hnew hkids _ =>
      obtain ⟨hbelow, hpairwise⟩ := ih (hkids c hc)
      have habove : ∀ m ∈ documents ns, m.directive.source ∉ above := fun m hm hmem =>
        hbelow m hm (mem_cons_of_mem _ hmem)
      have hself : ∀ m ∈ documents ns, n.directive.source ≠ m.directive.source := fun m hm he =>
        hbelow m hm (he ▸ mem_cons_self)
      rw [documents, filter_cons]
      split_ifs
      · exact ⟨forall_mem_cons.2 ⟨hnew, habove⟩, pairwise_cons.2 ⟨hself, hpairwise⟩⟩
      · exact ⟨habove, hpairwise⟩

theorem Ascending.chain_settled (h : Ascending r cwd above n) (hns : n.Chain ns) : ∀ m ∈ documents ns.tail, m.Settled cwd ∨
      (ofText m.directive.source).isAbsolute = true ∧ ∃ m' ∈ ns, Node.Quotes r cwd m' m.directive.source := by
  induction hns generalizing above with
  | stop n =>
    intro m hm
    cases hm
  | @down n c ns hc hns ih =>
    cases h with
    | leaf _ hnone => simp [hnone] at hc
    | branch _ hkids hsrcs =>
      intro m hm
      obtain ⟨hm, hdoc⟩ := mem_filter.1 hm
      rw [hns.eq_cons] at hm
      rcases mem_cons.1 hm with rfl | hm
      · exact (hsrcs m hc hdoc).imp id fun hquotes => ⟨hquotes.1, n, mem_cons_self, hquotes.2⟩
      · rcases ih (hkids c hc) m (mem_filter.2 ⟨hm, hdoc⟩) with hset | ⟨habs, m', hm', hquotes⟩
        · exact .inl hset
        · exact .inr ⟨habs, m', mem_cons_of_mem _ hm', hquotes⟩

end

/-- On a way down the plan of a file the sources of documents are different texts. Two of them are resolved to one
path only if one is not settled, and such a source is an absolute path that a document gives in these words. -/
theorem documents_differ_on_chain {config : Config} {r : Registry} {path : String} {desk desk' : Desk}
    {root : Node} {ns : List Node} (hdir : desk.disk.folder.Canonical)
    (hplan : (planFile config r path).run desk = (.ok root, desk')) (hns : root.Chain ns) :
    ((Node.documents ns).Pairwise fun m n =>
      m.directive.source ≠ n.directive.source ∧
      (m.resolved desk.disk.folder = n.resolved desk.disk.folder →
        ¬ m.Settled desk.disk.folder ∨ ¬ n.Settled desk.disk.folder)) ∧
    ∀ n ∈ Node.documents ns, ¬ n.Settled desk.disk.folder → (Path.ofText n.directive.source).isAbsolute = true ∧
        ∃ m ∈ ns, Node.Quotes r desk.disk.folder m n.directive.source := by
  obtain ⟨hroot, hascending⟩ := ascending_of_planFile hdir hplan
  constructor
  · refine (hascending.chain hns).2.imp fun {m n} hne => ⟨hne, fun hres => ?_⟩
    by_contra hset
    obtain ⟨hm, hn⟩ := not_or.1 hset
    have hm : m.resolved desk.disk.folder = m.directive.source := not_not.1 hm
    have hn : n.resolved desk.disk.folder = n.directive.source := not_not.1 hn
    exact hne (by rw [← hm, ← hn, hres])
  · intro n hn hunsettled
    obtain ⟨hn, hdoc⟩ := mem_filter.1 hn
    rw [hns.eq_cons] at hn
    rcases mem_cons.1 hn with rfl | hn
    · exact absurd hroot hunsettled
    · exact (hascending.chain_settled hns n (mem_filter.2 ⟨hn, hdoc⟩)).resolve_left hunsettled

namespace Sole

def detour : String := "```yaml embedm\ntype: file\nsource: \"/p/./a.md\"\n```\n"

theorem detour_nested : ∃ root c desk',
    (planFile {} registry "a.md").run (desk detour) = (.ok root, desk') ∧ c ∈ root.children ∧
    documents [root, c] = [root, c] ∧ root.resolved (disk detour).folder = c.resolved (disk detour).folder := by
  have hcheck : (match ((planFile {} registry "a.md").run (desk detour)).1 with
      | .ok root => root.children.any fun c => root.document.isSome && c.document.isSome &&
          root.resolved (disk detour).folder == c.resolved (disk detour).folder
      | .error _ => false) = true := by
    decide +kernel
  rcases hrun : (planFile {} registry "a.md").run (desk detour) with ⟨c | root, desk'⟩
  · rw [hrun] at hcheck
    cases hcheck
  · rw [hrun] at hcheck
    obtain ⟨c, hc, hnested⟩ := any_eq_true.1 hcheck
    simp only [Bool.and_eq_true, beq_iff_eq] at hnested
    refine ⟨root, c, desk', rfl, hc, ?_, hnested.2⟩
    simp [documents, hnested.1.1, hnested.1.2]

theorem canonical_folder (text : String) : (disk text).folder.Canonical := by
  refine ⟨rfl, fun name hname => ?_, fun name hname => ?_⟩
  · obtain rfl := mem_singleton.1 hname
    exact ⟨rfl, by decide⟩
  · obtain rfl := mem_singleton.1 hname
    decide

end Sole

open Sole

/-- The two documents of the detour differ in their texts, although they are of one file. -/
theorem documents_differ_in_detour : ∃ root c desk', (disk detour).folder.Canonical ∧
    (planFile {} registry "a.md").run (desk detour) = (.ok root, desk') ∧
    root.Chain [root, c] ∧
    root.directive.source ≠ c.directive.source ∧
    ∃ m ∈ [root, c], Node.Quotes registry (disk detour).folder m c.directive.source := by
  obtain ⟨root, c, desk', hplan, hc, hdocs, hres⟩ := detour_nested
  have hdir := canonical_folder detour
  have hchain : root.Chain [root, c] := .down hc (.stop c)
  obtain ⟨hdiffer, hgiven⟩ := documents_differ_on_chain hdir hplan hchain
  rw [hdocs] at hdiffer hgiven
  obtain ⟨hne, hunsettled⟩ := rel_of_pairwise_cons hdiffer mem_cons_self
  have hc : ¬ c.Settled (disk detour).folder :=
    (hunsettled hres).resolve_left (not_not.2 (ascending_of_planFile hdir hplan).1)
  exact ⟨root, c, desk', hdir, hplan, hchain, hne, (hgiven c (by simp) hc).2⟩

/-- A file is planned inside itself: two documents on the way from the root are resolved to one path. -/
theorem file_inside_itself : ∃ root c desk',
    (planFile {} registry "a.md").run (desk detour) = (.ok root, desk') ∧
    root.Chain [root, c] ∧ Node.documents [root, c] = [root, c] ∧
    ¬ ((Node.documents [root, c]).map (·.resolved (disk detour).folder)).Nodup := by
  obtain ⟨root, c, desk', hplan, hc, hdocs, hres⟩ := detour_nested
  refine ⟨root, c, desk', hplan, .down hc (.stop c), hdocs, fun hnodup => ?_⟩
  rw [hdocs] at hnodup
  simp [hres] at hnodup

end Plan

end Transclude
