import Transclude.Proofs.Embedding
import Transclude.Session

/-!
# The files of a folder

Files of a folder are planned unless an earlier plan embeds them, and compiled unless any plan does. What a file that
is not planned would embed is embedded where it is (`targets_eq_filter`); where every directive that names a file
merges it, no file is lost (`merged_of_planAll`).
-/

namespace Transclude.Session

open List Work Plan Node

variable {p : String × Node} {d : Desk}

section

variable {desk : Desk} {config : Config} {r : Registry} {files embedded : List String} {plans : List (String × Node)}
  {root : Node} {file : String} {plan : String → Node}

/-! ## Plans on their own -/

def fullPath (cwd : Path) (file : String) : String := (Path.resolve cwd (.ofText file)).text

def Alone (desk : Desk) (config : Config) (r : Registry) (file : String) (root : Node) : Prop :=
  ((planFile config r file).run desk).1 = .ok root

variable (hdesk : desk.cache.Faithful desk.disk) (hacc : desk.acceptAll = true)

include hdesk in
theorem Alone.stands (h : Alone desk config r file root) :
    Stands desk (settingOf config r) root ∧ root.directive.kind = config.rootKind ∧
      root.directive.source = fullPath desk.disk.folder file := by
  obtain ⟨p, hp, hdir, hgrown⟩ : ∃ p, Path.follow desk.disk.folder file = .ok p ∧
      root.directive = ⟨config.rootKind, p.text, [], ""⟩ ∧ Grown desk (settingOf config r) [] root := by
    have houtcome := (steady_planFile config r file).outcome (Desk.twin_refl hdesk)
    rwa [show ((planFile config r file).run desk).1 = _ from h] at houtcome
  have hp : p = Path.resolve desk.disk.folder (.ofText file) := by
    rw [Path.follow] at hp
    split_ifs at hp
    cases hp
    rfl
  subst hp
  have hplanned : Planned r (config.maxRecursion.value.toNat + 1) root :=
    planFile_ok (show (planFile config r file).run desk = (.ok root, _) from Prod.ext h rfl)
  refine ⟨⟨⟨_, hplanned⟩, hgrown, ?_⟩, ?_, ?_⟩
  · rw [hdir]
    exact Path.isAbsolute_ofText_text rfl
  · rw [hdir]
  · rw [hdir]
    rfl

include hdesk in
theorem Alone.resolved_eq {c : Node} (h : Alone desk config r file root)
    (hc : (Path.ofText c.directive.source).isAbsolute = true)
    (hres : c.resolved desk.disk.folder = fullPath desk.disk.folder file) :
    root.resolved desk.disk.folder = c.resolved desk.disk.folder := by
  rw [resolved, (h.stands hdesk).2.2, ← hres, resolved, (Path.ofText_text_resolve _ hc).2]

/-! ## Planning the files in order -/

inductive Skimmed (desk : Desk) (config : Config) (r : Registry) :
    List String → List String → List (String × Node) → Prop where
  | nil {embedded : List String} : Skimmed desk config r embedded [] []
  | skip {embedded rest : List String} {file : String} {plans : List (String × Node)} :
      fullPath desk.disk.folder file ∈ embedded → Skimmed desk config r embedded rest plans →
      Skimmed desk config r embedded (file :: rest) plans
  | plan {embedded rest more : List String} {file : String} {root : Node} {plans : List (String × Node)} :
      Alone desk config r file root → root.embedded desk.disk.folder config.rootKind = .ok more →
      Skimmed desk config r (embedded ++ more) rest plans →
      Skimmed desk config r embedded (file :: rest) ((file, root) :: plans)

def Stuck (desk : Desk) (config : Config) (r : Registry) (files : List String) (c : Crash) : Prop :=
  ∃ file ∈ files, ((planFile config r file).run desk).1 = .error c ∨
    ∃ root, Alone desk config r file root ∧ root.embedded desk.disk.folder config.rootKind = .error c

theorem Stuck.cons {rest : List String} {c : Crash} (h : Stuck desk config r rest c) :
    Stuck desk config r (file :: rest) c := by
  obtain ⟨file', hfile', h⟩ := h
  exact ⟨file', mem_cons_of_mem _ hfile', h⟩

section

include hacc

theorem steady_goesOn {E : Crash → Prop} : Steady desk (· = true) E goesOn := by
  refine even_bind_get fun d d' h => ⟨by rw [h.1.acceptAll, h.2.acceptAll], ?_⟩
  rw [if_pos (h.1.acceptAll.trans hacc)]
  exact even_pure rfl

include hdesk

theorem steady_planFiles (total index : Nat) :
    Steady desk (Skimmed desk config r embedded files) (Stuck desk config r files)
      (planFiles config r total embedded index files) := by
  induction files generalizing embedded index with
  | nil => exact even_pure .nil
  | cons file rest ih =>
    refine even_bind_get fun d d' h => ⟨by simp only [h.1.disk, h.2.disk], ?_⟩
    simp only [h.1.disk]
    split_ifs with hskip
    · have hskip : fullPath desk.disk.folder file ∈ embedded := contains_iff_mem.1 hskip
      exact (ih (index + 1)).imp (fun plans hplans => .skip hskip hplans) fun c hc => hc.cons
    · refine even_bind (((steady_planFile config r file).self hdesk).imp (fun root hroot => hroot.2)
        fun c hc => ⟨file, mem_cons_self, .inl hc.2⟩) fun root hroot => ?_
      refine even_bind_lift (fun more hmore => ?_) fun c hc => ⟨file, mem_cons_self, .inr ⟨root, hroot, hc⟩⟩
      have hrest (index : Nat) : Steady desk (Skimmed desk config r embedded (file :: rest))
          (Stuck desk config r (file :: rest)) (do
            return (file, root) :: (← planFiles config r total (embedded ++ more) index rest)) := by
        refine even_bind ((ih index).imp (fun _ h => h) fun c hc => hc.cons) fun plans hplans => ?_
        exact even_pure (.plan hroot hmore hplans)
      split_ifs
      · refine even_bind (steady_report _) fun _ _ => ?_
        refine even_bind (steady_goesOn hacc) fun goes hgoes => ?_
        subst hgoes
        exact hrest (index + 1)
      · exact even_bind (steady_report _) fun _ _ => hrest (index + 1)

theorem steady_planAll :
    Steady desk (Skimmed desk config r [] files) (Stuck desk config r files) (planAll config r files) := by
  refine even_bind (steady_report _) fun _ _ => ?_
  refine even_bind (steady_planFiles hdesk hacc _ _) fun plans hplans => ?_
  exact even_bind (steady_report _) fun _ _ => even_pure hplans

theorem outcome_planAll (config : Config) (r : Registry) (files : List String) :
    Work.Outcome (Skimmed desk config r [] files) (Stuck desk config r files) ((planAll config r files).run desk).1 :=
  (steady_planAll hdesk hacc).outcome (Desk.twin_refl hdesk)

theorem skimmed_of_planAll {desk' : Desk} (h : (planAll config r files).run desk = (.ok plans, desk')) :
    Skimmed desk config r [] files plans := by
  have houtcome := outcome_planAll hdesk hacc config r files
  rwa [h] at houtcome

end

namespace Skimmed

variable (h : Skimmed desk config r embedded files plans)
include h

theorem of_mem (hp : p ∈ plans) :
    p.1 ∈ files ∧ Alone desk config r p.1 p.2 ∧
      p.2.embedded desk.disk.folder config.rootKind = .ok (p.2.embeds desk.disk.folder config.rootKind) := by
  induction h with
  | nil => cases hp
  | skip _ _ ih =>
    obtain ⟨hfile, hplan⟩ := ih hp
    exact ⟨mem_cons_of_mem _ hfile, hplan⟩
  | plan halone hmore _ ih =>
    rcases mem_cons.1 hp with rfl | hp
    · exact ⟨mem_cons_self, halone, by rw [hmore, embeds_of_embedded hmore]⟩
    · obtain ⟨hfile, hplan⟩ := ih hp
      exact ⟨mem_cons_of_mem _ hfile, hplan⟩

theorem eq_plan (hplan : ∀ g ∈ files, Alone desk config r g (plan g)) (hp : p ∈ plans) : p.1 ∈ files ∧ p.2 = plan p.1 := by
  obtain ⟨hfile, halone, -⟩ := h.of_mem hp
  exact ⟨hfile, Except.ok.inj (halone.symm.trans (hplan p.1 hfile))⟩

theorem covers (hfile : file ∈ files) :
    (∃ root, (file, root) ∈ plans) ∨ fullPath desk.disk.folder file ∈ embedded ∨
      ∃ p ∈ plans, fullPath desk.disk.folder file ∈ p.2.embeds desk.disk.folder config.rootKind := by
  induction h with
  | nil => cases hfile
  | skip hskip _ ih =>
    rcases mem_cons.1 hfile with rfl | hfile
    · exact .inr (.inl hskip)
    · exact ih hfile
  | @plan embedded rest more first root plans halone hmore _ ih =>
    rcases mem_cons.1 hfile with rfl | hfile
    · exact .inl ⟨root, mem_cons_self⟩
    · rcases ih hfile with ⟨root', hmem⟩ | hmem | ⟨p, hp, hmem⟩
      · exact .inl ⟨root', mem_cons_of_mem _ hmem⟩
      · rcases mem_append.1 hmem with hmem | hmem
        · exact .inr (.inl hmem)
        · rw [embeds_of_embedded hmore] at hmem
          exact .inr (.inr ⟨_, mem_cons_self, hmem⟩)
      · exact .inr (.inr ⟨p, mem_cons_of_mem _ hp, hmem⟩)

theorem filter_eq (keep : String → Bool) (hplan : ∀ f ∈ files, Alone desk config r f (plan f))
    (hemb : ∀ f ∈ files, fullPath desk.disk.folder f ∈ embedded → keep f = false)
    (hplans : ∀ p ∈ plans, ∀ f ∈ files,
      fullPath desk.disk.folder f ∈ p.2.embeds desk.disk.folder config.rootKind → keep f = false) :
    plans.filter (fun p => keep p.1) = (files.filter keep).map fun f => (f, plan f) := by
  induction h with
  | nil => rfl
  | @skip embedded rest first plans hskip _ ih =>
    rw [forall_mem_cons] at hplan hemb
    rw [filter_cons_of_neg (by simp [hemb.1 hskip])]
    exact ih hplan.2 hemb.2 fun p hp f hf => hplans p hp f (mem_cons_of_mem _ hf)
  | @plan embedded rest more first root plans halone hmore _ ih =>
    rw [forall_mem_cons] at hplan hemb
    obtain rfl : root = plan first := Except.ok.inj (halone.symm.trans hplan.1)
    have htail := ih hplan.2 (fun f hf hmem => ?_) fun p hp f hf =>
      hplans p (mem_cons_of_mem _ hp) f (mem_cons_of_mem _ hf)
    · rw [filter_cons, filter_cons, htail]
      split_ifs <;> rfl
    · rcases mem_append.1 hmem with hmem | hmem
      · exact hemb.2 f hf hmem
      · rw [embeds_of_embedded hmore] at hmem
        exact hplans _ mem_cons_self f (mem_cons_of_mem _ hf) hmem

theorem targets_eq :
    targets desk.disk.folder config plans = .ok (plans.filter fun p => plans.all fun q =>
      !(q.2.embeds desk.disk.folder config.rootKind).contains (fullPath desk.disk.folder p.1)) := by
  rw [targets, Except.mapM_eq_ok_map fun p hp => (h.of_mem hp).2.2]
  refine congrArg Except.ok (filter_congr fun p _ => ?_)
  rw [Bool.eq_iff_iff]
  simp [fullPath]

end Skimmed

/-! ## Files that are not planned -/

def Embedding (r : Registry) (kind : String) : Prop := ∀ p, r.find? kind = some p → p.behaviour = .embed

theorem Embedding.dataOf_eq {d : Directive} (h : Embedding r d.kind) (cwd : Path) (content : String) :
    dataOf r cwd d content = .ok (none, []) := by
  rw [dataOf]
  cases hp : r.find? d.kind with
  | none => rfl
  | some p =>
    dsimp only
    rw [Plugin.readSource, h p hp]
    rfl

def LeadsOn (disk : Disk) (kind : String) (files : List String) (root : Node) : Prop :=
  ∀ c ∈ root.embedding kind, ∀ g ∈ files, c.resolved disk.folder = fullPath disk.folder g →
    disk.isFile (fullPath disk.folder g) = true → disk.isFile c.directive.source = true

instance (disk : Disk) (kind : String) (files : List String) (root : Node) : Decidable (LeadsOn disk kind files root) :=
  inferInstanceAs (Decidable (∀ c ∈ root.embedding kind, ∀ g ∈ files, c.resolved disk.folder = fullPath disk.folder g →
    disk.isFile (fullPath disk.folder g) = true → disk.isFile c.directive.source = true))

include hdesk in
theorem embeds_subset_of_mem {root' : Node} (hkind : Embedding r config.rootKind) (h : Alone desk config r file root)
    {file' : String} (h' : Alone desk config r file' root')
    (hdeep : ∀ n ∈ root'.walk, tooDeep (settingOf config r) ∉ n.status)
    (hfile : file ∈ files) (hlead : LeadsOn desk.disk config.rootKind files root')
    (hmem : fullPath desk.disk.folder file ∈ root'.embeds desk.disk.folder config.rootKind) :
    root.embeds desk.disk.folder config.rootKind ⊆ root'.embeds desk.disk.folder config.rootKind := by
  obtain ⟨hstands, -, hsrc⟩ := h.stands hdesk
  obtain ⟨hstands', -, -⟩ := h'.stands hdesk
  obtain ⟨n, hn, c, hc, hne, hckind, hres⟩ := mem_embeds.1 hmem
  refine hstands.embeds_subset hstands' hdeep fun hdoc => ?_
  have hwalk := mem_walk_of_mem_children hn hc
  obtain ⟨k, hk⟩ := mem_walk_iff.1 hwalk
  have habs := (hstands'.source_cases hk).resolve_left hne
  have hsame := h.resolved_eq hdesk habs hres
  -- the directive can be read, for it leads to the file that its own plan was read from
  obtain ⟨content, fragments, hopened⟩ := hstands.opened root.self_mem_walk hdoc
  have hcfile : desk.disk.isFile c.directive.source = true := by
    refine hlead c (mem_embedding.2 ⟨n, hn, hc, hne, hckind⟩) file hfile hres ?_
    rw [← hsrc]
    exact hopened.isFile
  have haliases : desk.disk.Aliases root.directive.source c.directive.source :=
    ⟨hstands.absolute, habs, hopened.isFile, hcfile, Path.resolve_eq_of_text_eq hstands.absolute habs hsame⟩
  have hnull := hstands'.hasNull_eq_false hwalk (hdeep c hwalk) hne
  have hreads : desk.reads c.directive.source = .ok (some content, []) :=
    Cache.direct_of_aliases haliases hnull hopened.reads
  have hdata : dataOf r desk.disk.folder c.directive content = .ok (none, []) :=
    Embedding.dataOf_eq (by rwa [hckind]) _ _
  obtain ⟨m, hm, hmdocument, hmsource⟩ := hstands'.exists_document_of_reads hwalk (hdeep c hwalk) hreads hdata
  refine ⟨m, hm, hmdocument, ?_⟩
  rw [hsame, resolved, resolved, hmsource]

include hdesk hacc in
theorem exists_skimmed (hplan : ∀ g ∈ files, Alone desk config r g (plan g))
    (hemb : ∀ g ∈ files, (plan g).embedded desk.disk.folder config.rootKind =
      .ok ((plan g).embeds desk.disk.folder config.rootKind)) :
    ∃ plans desk', (planAll config r files).run desk = (.ok plans, desk') ∧ Skimmed desk config r [] files plans := by
  have houtcome := outcome_planAll hdesk hacc config r files
  rcases hrun : (planAll config r files).run desk with ⟨c | plans, desk'⟩
  · rw [hrun] at houtcome
    obtain ⟨g, hg, hcrash | ⟨root, halone, hcrash⟩⟩ := houtcome
    · cases (hplan g hg).symm.trans hcrash
    · obtain rfl : root = plan g := Except.ok.inj (halone.symm.trans (hplan g hg))
      cases (hemb g hg).symm.trans hcrash
  · rw [hrun] at houtcome
    exact ⟨plans, desk', rfl, houtcome⟩

include hdesk in
theorem Skimmed.exists_superset (h : Skimmed desk config r [] files plans) (hkind : Embedding r config.rootKind) (hplan : ∀ g ∈ files, Alone desk config r g (plan g))
    (hdeep : ∀ g ∈ files, ∀ n ∈ (plan g).walk, tooDeep (settingOf config r) ∉ n.status)
    (hlead : ∀ g ∈ files, LeadsOn desk.disk config.rootKind files (plan g)) (hfile : file ∈ files) :
    ∃ p ∈ plans, (plan file).embeds desk.disk.folder config.rootKind ⊆ p.2.embeds desk.disk.folder config.rootKind := by
  rcases h.covers hfile with ⟨root, hp⟩ | hnil | ⟨p, hp, hmem⟩
  · refine ⟨(file, root), hp, ?_⟩
    rw [(h.eq_plan hplan hp).2]
    exact fun _ hmem => hmem
  · cases hnil
  · obtain ⟨hpfile, hroot⟩ := h.eq_plan hplan hp
    refine ⟨p, hp, ?_⟩
    rw [hroot] at hmem ⊢
    exact embeds_subset_of_mem hdesk hkind (hplan file hfile) (hplan p.1 hpfile) (hdeep p.1 hpfile) hfile
      (hlead p.1 hpfile) hmem

/-- The files that are compiled are those that no file of the folder embeds, as if all of them were planned, if
nothing lies too deep and sources lead to files as they are written. -/
theorem targets_eq_filter {plan : String → Node} (hdesk : desk.cache.Faithful desk.disk)
    (hacc : desk.acceptAll = true) (hkind : Embedding r config.rootKind)
    (hplan : ∀ g ∈ files, Alone desk config r g (plan g))
    (hdeep : ∀ g ∈ files, ∀ n ∈ (plan g).walk, tooDeep (settingOf config r) ∉ n.status)
    (hlead : ∀ g ∈ files, LeadsOn desk.disk config.rootKind files (plan g)) :
    ∃ (embeds : String → List String) (plans : List (String × Node)) (desk' : Desk),
      (∀ g ∈ files, (plan g).embedded desk.disk.folder config.rootKind = .ok (embeds g)) ∧
      (planAll config r files).run desk = (.ok plans, desk') ∧
      targets desk.disk.folder config plans = .ok ((files.filter fun f => files.all fun g =>
        !(embeds g).contains (fullPath desk.disk.folder f)).map fun f => (f, plan f)) := by
  have hemb : ∀ g ∈ files, (plan g).embedded desk.disk.folder config.rootKind =
      .ok ((plan g).embeds desk.disk.folder config.rootKind) :=
    fun g hg => ((hplan g hg).stands hdesk).1.embedded_eq (hdeep g hg) _ _
  obtain ⟨plans, desk', hrun, hskim⟩ := exists_skimmed hdesk hacc hplan hemb
  refine ⟨fun g => (plan g).embeds desk.disk.folder config.rootKind, plans, desk', hemb, hrun, ?_⟩
  have hkeep (f : String) : (plans.all fun q =>
        !(q.2.embeds desk.disk.folder config.rootKind).contains (fullPath desk.disk.folder f)) =
      files.all fun g =>
        !((plan g).embeds desk.disk.folder config.rootKind).contains (fullPath desk.disk.folder f) := by
    rw [Bool.eq_iff_iff]
    simp only [all_eq_true, Bool.not_eq_true', ← Bool.not_eq_true, contains_iff_mem]
    constructor
    · intro hnone g hg hmem
      obtain ⟨p, hp, hsubset⟩ := hskim.exists_superset hdesk hkind hplan hdeep hlead hg
      exact hnone p hp (hsubset hmem)
    · intro hnone p hp hmem
      obtain ⟨hfile, hroot⟩ := hskim.eq_plan hplan hp
      rw [hroot] at hmem
      exact hnone p.1 hfile hmem
  rw [hskim.targets_eq]
  simp only [hkeep]
  refine congrArg Except.ok (hskim.filter_eq (fun f => files.all fun g =>
    !((plan g).embeds desk.disk.folder config.rootKind).contains (fullPath desk.disk.folder f)) hplan
    (fun f _ hmem => by cases hmem) fun p hp f _ hmem => ?_)
  rw [← hkeep f]
  exact all_eq_false.2 ⟨p, hp, by simpa using hmem⟩

end

namespace Trio

def embed (source : String) : String := "```yaml embedm\ntype: file\nsource: " ++ source ++ "\n```\n"

def desk (a b c : String) : Desk where
  disk :=
    { folder := { root := "/", parts := ["p"] }
      entries := [(["p"], .folder), (["p", "a.md"], .file a.toUTF8), (["p", "b.md"], .file b.toUTF8),
        (["p", "c.md"], .file c.toUTF8)] }
  cache := (Sole.desk "").cache
  acceptAll := true

def files : List String := ["c.md", "a.md", "b.md"]

def plan (d : Desk) (file : String) : Node :=
  match ((planFile {} Sole.registry file).run d).1 with
  | .ok root => root
  | .error _ => .failed (Sole.directive "" "") 0 []

def sound (d : Desk) : Bool :=
  files.all fun g => ((planFile {} Sole.registry g).run d).1.isOk &&
    (plan d g).walk.all fun n => n.status.all fun e => e.text != (tooDeep (settingOf {} Sole.registry)).text

theorem alone_of_sound (h : sound d = true) : (∀ g ∈ files, Alone d {} Sole.registry g (plan d g)) ∧
      ∀ g ∈ files, ∀ n ∈ (plan d g).walk, tooDeep (settingOf {} Sole.registry) ∉ n.status := by
  simp only [sound, all_eq_true, Bool.and_eq_true, bne_iff_ne] at h
  refine ⟨fun g hg => ?_, fun g hg n hn hmem => (h g hg).2 n hn _ hmem rfl⟩
  have hok := (h g hg).1
  rw [Alone, plan]
  cases hrun : ((planFile {} Sole.registry g).run d).1 with
  | ok root => rfl
  | error c =>
    rw [hrun] at hok
    cases hok

abbrev Compiles (d : Desk) (files names : List String) : Prop :=
  Comes (planAll {} Sole.registry files) d fun plans _ =>
    ∃ chosen ∈ (targets d.disk.folder {} plans).toOption, chosen.map (·.1) = names

theorem Compiles.exists_targets {files names : List String} (h : Compiles d files names) :
    ∃ plans desk' chosen, (planAll {} Sole.registry files).run d = (.ok plans, desk') ∧
      targets d.disk.folder {} plans = .ok chosen ∧ chosen.map (·.1) = names := by
  obtain ⟨plans, desk', hrun, h⟩ := h.exists
  obtain ⟨chosen, hchosen, hnames⟩ := Except.exists_ok h
  exact ⟨plans, desk', chosen, hrun, hchosen, hnames⟩

def chain : Desk := desk (embed "b.md") (embed "c.md") "C\n"

theorem chain_checked : sound chain = true ∧ (∀ g ∈ files, LeadsOn chain.disk "file" files (plan chain g)) ∧
    (∀ g ∈ files, (plan chain g).MergesAll "file") ∧ Compiles chain files ["a.md"] := by
  decide +kernel

def stray : Desk := desk (embed "/p/none/../b.md") (embed "c.md") "C\n"

theorem stray_checked : sound stray = true ∧
    (plan stray "b.md").embeds stray.disk.folder "file" = [fullPath stray.disk.folder "c.md"] ∧
    Compiles stray files ["c.md", "a.md"] := by
  decide +kernel

end Trio

open Trio

/-- The second document is not planned, and the third one is not compiled although it is planned first. -/
theorem chain_targets : (∀ g ∈ files, Alone chain {} Sole.registry g (plan chain g)) ∧
    ∃ (embeds : String → List String) (plans : List (String × Node)) (desk' : Desk),
      (∀ g ∈ files, (plan chain g).embedded chain.disk.folder "file" = .ok (embeds g)) ∧
      (planAll {} Sole.registry files).run chain = (.ok plans, desk') ∧
      targets chain.disk.folder {} plans = .ok ((files.filter fun f => files.all fun g =>
        !(embeds g).contains (fullPath chain.disk.folder f)).map fun f => (f, plan chain f)) := by
  obtain ⟨hsound, hlead, -⟩ := chain_checked
  obtain ⟨halone, hdeep⟩ := alone_of_sound hsound
  have hkind : Embedding Sole.registry "file" := by
    intro p hp
    cases hp
    rfl
  exact ⟨halone, targets_eq_filter (Cache.faithful_of_entries_eq_nil rfl) rfl hkind halone hdeep hlead⟩

/-- The third document is compiled, although the second one embeds it, which is not planned. -/
theorem stray_targets_ne_filter : (∀ g ∈ files, Alone stray {} Sole.registry g (plan stray g)) ∧
    (∀ g ∈ files, ∀ n ∈ (plan stray g).walk, tooDeep (settingOf {} Sole.registry) ∉ n.status) ∧
    (plan stray "b.md").embedded stray.disk.folder "file" =
      .ok [fullPath stray.disk.folder "c.md"] ∧
    ∃ plans desk' chosen, (planAll {} Sole.registry files).run stray = (.ok plans, desk') ∧
      targets stray.disk.folder {} plans = .ok chosen ∧ chosen.map (·.1) = ["c.md", "a.md"] := by
  obtain ⟨hsound, hembeds, hcomp⟩ := stray_checked
  obtain ⟨halone, hdeep⟩ := alone_of_sound hsound
  have hb : "b.md" ∈ files := by decide
  have hstands := ((halone "b.md" hb).stands (Cache.faithful_of_entries_eq_nil rfl)).1
  have hemb : (plan stray "b.md").embedded stray.disk.folder "file" =
      .ok [fullPath stray.disk.folder "c.md"] := by
    rw [hstands.embedded_eq (hdeep "b.md" hb), hembeds]
  exact ⟨halone, hdeep, hemb, hcomp.exists_targets⟩

/-! ## Files that are merged -/

section

variable {desk : Desk} {config : Config} {r : Registry} {files embedded : List String}
  {plans : List (String × Node)} {file : String}

def IsTarget (cwd : Path) (config : Config) (plans : List (String × Node)) (p : String × Node) : Prop :=
  p ∈ plans ∧ ∀ q ∈ plans, fullPath cwd p.1 ∉ q.2.embeds cwd config.rootKind

theorem Skimmed.exists_targets (h : Skimmed desk config r embedded files plans) :
    ∃ chosen, targets desk.disk.folder config plans = .ok chosen ∧
      ∀ p, p ∈ chosen ↔ IsTarget desk.disk.folder config plans p := by
  refine ⟨_, h.targets_eq, fun p => ?_⟩
  simp [IsTarget]

theorem exists_target_of_merged (hdesk : desk.cache.Faithful desk.disk)
    (h : Skimmed desk config r embedded files plans) (hall : ∀ p ∈ plans, p.2.MergesAll config.rootKind) {n : Node}
    {k : Nat} (hp : p ∈ plans) (hn : p.2.Merged config.rootKind k n) :
    ∃ q k' m, IsTarget desk.disk.folder config plans q ∧ q.2.Merged config.rootKind k' m ∧
      m.resolved desk.disk.folder = n.resolved desk.disk.folder := by
  -- whatever a plan is merged into has the node deeper, and no node lies deeper than the limit
  obtain ⟨left, hleft⟩ : ∃ left, config.maxRecursion.value.toNat < k + left :=
    ⟨config.maxRecursion.value.toNat + 1, by omega⟩
  induction left generalizing p n k with
  | zero =>
    have halone := (h.of_mem hp).2.1
    have hplanned := planFile_ok (show (planFile config r p.1).run desk = (.ok p.2, _) from Prod.ext halone rfl)
    have hbound := hplanned.document_depth_le hn.atDepth hn.document
    omega
  | succ left ih =>
    by_cases htarget : ∀ q ∈ plans, fullPath desk.disk.folder p.1 ∉ q.2.embeds desk.disk.folder config.rootKind
    · exact ⟨p, k, n, ⟨hp, htarget⟩, hn, rfl⟩
    · push Not at htarget
      obtain ⟨q, hq, hmem⟩ := htarget
      have halone := (h.of_mem hp).2.1
      obtain ⟨hstands, -, -⟩ := halone.stands hdesk
      obtain ⟨hstands', hkind', -⟩ := (h.of_mem hq).2.1.stands hdesk
      obtain ⟨k', c, hc, hres⟩ := hstands'.exists_merged hkind' (hall q hq) hmem
      obtain ⟨content, fragments, hopened⟩ := hstands'.opened hc.mem_walk hc.document
      have habs := (hstands'.source_cases hc.atDepth).resolve_left hopened.source_ne
      have hsame := halone.resolved_eq hdesk habs hres
      obtain ⟨m, hm, hmres⟩ := hstands.merged_trans hstands' (hall q hq) hc hsame hn
      obtain ⟨q', k'', m', htarget, hm', hres'⟩ := ih hq hm (by omega)
      exact ⟨q', k'', m', htarget, hm', hres'.trans hmres.symm⟩

/-- A file of a folder is compiled, unless a plan embeds it. If the directives that name a file all merge it, it is
compiled or merged into one that is. -/
theorem merged_of_planAll {desk' : Desk} (hdesk : desk.cache.Faithful desk.disk)
    (hacc : desk.acceptAll = true) (h : (planAll config r files).run desk = (.ok plans, desk')) :
    ∃ chosen, targets desk.disk.folder config plans = .ok chosen ∧ (∀ f ∈ files, (∃ root, (f, root) ∈ chosen) ∨
        ∃ p ∈ plans, fullPath desk.disk.folder f ∈ p.2.embeds desk.disk.folder config.rootKind) ∧
      ((∀ p ∈ plans, p.2.MergesAll config.rootKind) → ∀ f ∈ files, (∃ root, (f, root) ∈ chosen) ∨
        ∃ p ∈ chosen, ∃ k n, p.2.Merged config.rootKind k n ∧
          n.resolved desk.disk.folder = fullPath desk.disk.folder f) := by
  have hskim := skimmed_of_planAll hdesk hacc h
  obtain ⟨chosen, hchosen, hmem⟩ := hskim.exists_targets
  have hor : ∀ f ∈ files, (∃ root, (f, root) ∈ chosen) ∨
      ∃ p ∈ plans, fullPath desk.disk.folder f ∈ p.2.embeds desk.disk.folder config.rootKind := by
    intro f hf
    rcases hskim.covers hf with ⟨root, hp⟩ | hnil | hemb
    · by_cases htarget : ∃ p ∈ plans, fullPath desk.disk.folder f ∈ p.2.embeds desk.disk.folder config.rootKind
      · exact .inr htarget
      · exact .inl ⟨root, (hmem _).2 ⟨hp, fun q hq hq' => htarget ⟨q, hq, hq'⟩⟩⟩
    · cases hnil
    · exact .inr hemb
  refine ⟨chosen, hchosen, hor, fun hall f hf => (hor f hf).imp_right ?_⟩
  rintro ⟨p, hp, hpath⟩
  obtain ⟨hstands, hkind, -⟩ := (hskim.of_mem hp).2.1.stands hdesk
  obtain ⟨k, c, hc, hres⟩ := hstands.exists_merged hkind (hall p hp) hpath
  obtain ⟨q, k', m, htarget, hm, hres'⟩ := exists_target_of_merged hdesk hskim hall hp hc
  exact ⟨q, (hmem q).2 htarget, k', m, hm, hres'.trans hres⟩

end

/-- Every document is compiled or merged into the first one. -/
theorem chain_merged : ∃ plans desk' chosen, (planAll {} Sole.registry files).run chain = (.ok plans, desk') ∧
    (∀ p ∈ plans, p.2.MergesAll "file") ∧ targets chain.disk.folder {} plans = .ok chosen ∧
    ∀ f ∈ files, (∃ root, (f, root) ∈ chosen) ∨ ∃ p ∈ chosen, ∃ k n, p.2.Merged "file" k n ∧
      n.resolved chain.disk.folder = fullPath chain.disk.folder f := by
  obtain ⟨hsound, -, hmerges, hcomp⟩ := chain_checked
  obtain ⟨halone, -⟩ := alone_of_sound hsound
  obtain ⟨plans, desk', chosen, hrun, htargets, -⟩ := hcomp.exists_targets
  have hfaith : chain.cache.Faithful chain.disk := Cache.faithful_of_entries_eq_nil rfl
  have hskim := skimmed_of_planAll hfaith rfl hrun
  have hall : ∀ p ∈ plans, p.2.MergesAll "file" := by
    intro p hp
    obtain ⟨hfile, hroot⟩ := hskim.eq_plan halone hp
    rw [hroot]
    exact hmerges p.1 hfile
  obtain ⟨chosen', htargets', -, hmerged⟩ := merged_of_planAll hfaith rfl hrun
  obtain rfl : chosen' = chosen := Except.ok.inj (htargets'.symm.trans htargets)
  exact ⟨plans, desk', chosen', hrun, hall, htargets, hmerged hall⟩

/-- A document that embeds itself is neither compiled nor merged into one that is. -/
theorem loop_not_compiled : ∃ plans desk',
    (planAll {} Sole.registry ["a.md"]).run { Sole.desk Sole.loop with acceptAll := true } = (.ok plans, desk') ∧
    targets (Sole.desk Sole.loop).disk.folder {} plans = .ok [] := by
  have hcomp : Trio.Compiles { Sole.desk Sole.loop with acceptAll := true } ["a.md"] [] := by decide +kernel
  obtain ⟨plans, desk', chosen, hrun, htargets, hchosen⟩ := hcomp.exists_targets
  obtain rfl : chosen = [] := by simpa using hchosen
  exact ⟨plans, desk', hrun, htargets⟩

end Transclude.Session
