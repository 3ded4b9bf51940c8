import Transclude.Proofs.Growth

/-!
# What trees embed and what they merge

A tree embeds the sources of its directives of the kind that embeds files, and merges those that have documents, if
only such directives are above them. Both are the same below a file wherever it is planned (`Stands.embeds_subset`,
`Stands.merged_trans`).
-/

namespace Transclude

open Node

/-! ## Embedded files -/

namespace Except

variable {ε α β : Type} {f : α → Except ε β} {g : α → β} {l : List α}

theorem mapM_eq_ok_map (h : ∀ x ∈ l, f x = .ok (g x)) : l.mapM f = .ok (l.map g) := by
  induction l with
  | nil => rfl
  | cons x l ih =>
    rw [List.forall_mem_cons] at h
    rw [List.mapM_cons, h.1, ih h.2]
    rfl

theorem eq_map_of_mapM_eq_ok {ys : List β} (h : ∀ x y, f x = .ok y → y = g x) (hys : l.mapM f = .ok ys) :
    ys = l.map g := by
  induction l generalizing ys with
  | nil =>
    cases hys
    rfl
  | cons x l ih =>
    rw [List.mapM_cons] at hys
    obtain ⟨y, hy, hys⟩ := of_bind_eq_ok hys
    obtain ⟨rest, hrest, hys⟩ := of_bind_eq_ok hys
    cases hys
    rw [h x y hy, ih hrest, List.map_cons]

end Except

namespace Node

variable {cwd : Path} {kind path : String} {root c : Node}

def embedding (kind : String) (root : Node) : List Node :=
  (root.walk.flatMap (·.children)).filter fun c => !c.directive.source.isEmpty && c.directive.kind == kind

theorem mem_embedding : c ∈ root.embedding kind ↔
    ∃ n ∈ root.walk, c ∈ n.children ∧ c.directive.source ≠ "" ∧ c.directive.kind = kind := by
  simp only [embedding, List.mem_filter, List.mem_flatMap, Bool.and_eq_true, beq_iff_eq, Bool.not_eq_true',
    String.isEmpty_eq_false_iff]
  constructor
  · rintro ⟨⟨n, hn, hc⟩, hsrc, hkind⟩
    exact ⟨n, hn, hc, hsrc, hkind⟩
  · rintro ⟨n, hn, hc, hsrc, hkind⟩
    exact ⟨⟨n, hn, hc⟩, hsrc, hkind⟩

def embeds (cwd : Path) (kind : String) (root : Node) : List String := (root.embedding kind).map (·.resolved cwd)

theorem mem_embeds : path ∈ root.embeds cwd kind ↔ ∃ n ∈ root.walk, ∃ c ∈ n.children,
    c.directive.source ≠ "" ∧ c.directive.kind = kind ∧ c.resolved cwd = path := by
  simp only [embeds, List.mem_map, mem_embedding]
  constructor
  · rintro ⟨c, ⟨n, hn, hc, hsrc, hkind⟩, hpath⟩
    exact ⟨n, hn, c, hc, hsrc, hkind, hpath⟩
  · rintro ⟨n, hn, c, hc, hsrc, hkind, hpath⟩
    exact ⟨c, ⟨n, hn, hc, hsrc, hkind⟩, hpath⟩

theorem embeds_of_embedded {paths : List String} (h : root.embedded cwd kind = .ok paths) :
    paths = root.embeds cwd kind := by
  refine Except.eq_map_of_mapM_eq_ok (fun c path hpath => ?_) h
  obtain ⟨p, hp, hpath⟩ := Except.of_bind_eq_ok hpath
  rw [Path.follow] at hp
  split_ifs at hp
  cases hp
  cases hpath
  rfl

theorem embedded_eq (h : ∀ c ∈ root.embedding kind, Path.hasNull c.directive.source = false) :
    root.embedded cwd kind = .ok (root.embeds cwd kind) := by
  refine Except.mapM_eq_ok_map fun c hc => ?_
  rw [Path.follow, if_neg (by simp [h c hc])]
  rfl

end Node

namespace Plan.Stands

variable {desk : Desk} {s : Setting} {root root' n c : Node} {kind path : String}

theorem embedded_eq (h : Stands desk s root) (hdeep : ∀ n ∈ root.walk, tooDeep s ∉ n.status)
    (cwd : Path) (kind : String) : root.embedded cwd kind = .ok (root.embeds cwd kind) := by
  refine Node.embedded_eq fun c hc => ?_
  obtain ⟨n, hn, hc, hsrc, -⟩ := mem_embedding.1 hc
  have hc := mem_walk_of_mem_children hn hc
  exact h.hasNull_eq_false hc (hdeep c hc) hsrc

theorem root_document {k : Nat} (h : Stands desk s root) (hk : root.AtDepth k n)
    (hdoc : n.document.isSome = true) : root.document.isSome = true := by
  induction hk with
  | root => exact hdoc
  | @child k n c hk hc ih => exact ih (h.document_of_mem (mem_walk_iff.2 ⟨k, hk⟩) hc)

theorem embeds_subset (h : Stands desk s root) (h' : Stands desk s root')
    (hdeep : ∀ n ∈ root'.walk, tooDeep s ∉ n.status)
    (hroot : root.document.isSome = true → ∃ m ∈ root'.walk, m.document.isSome = true ∧
      root.resolved desk.disk.folder = m.resolved desk.disk.folder) :
    root.embeds desk.disk.folder kind ⊆ root'.embeds desk.disk.folder kind := by
  intro path hpath
  obtain ⟨n, hn, c, hc, hsrc, hkind, hpath⟩ := mem_embeds.1 hpath
  obtain ⟨k, hk⟩ := mem_walk_iff.1 hn
  have hdoc := h.document_of_mem hn hc
  obtain ⟨m, hm, hmdocument, hres⟩ := h.exists_document h' hdeep (hroot (h.root_document hk hdoc)) hk hdoc
  obtain ⟨c', hc', hdet⟩ := h.exists_counterpart h' hn hm hmdocument hres hc
  obtain ⟨hkind', hsrc', -⟩ := Directive.of_detached_eq hdet
  refine mem_embeds.2 ⟨m, hm, c', hc', ?_, hkind'.trans hkind, ?_⟩
  · rwa [hsrc']
  · rw [← hpath, resolved, resolved, hsrc']

end Plan.Stands

/-! ## Merged files -/

namespace Node

/-- The nodes whose documents are merged into that of the root, by depth: those of directives of the kind that embeds
files. -/
inductive Merged (kind : String) (root : Node) : Nat → Node → Prop where
  | root : root.document.isSome = true → root.directive.kind = kind → Merged kind root 0 root
  | child {k : Nat} {n c : Node} : Merged kind root k n → c ∈ n.children → c.directive.kind = kind →
      c.document.isSome = true → Merged kind root (k + 1) c

def MergesAll (kind : String) (root : Node) : Prop :=
  ∀ n ∈ root.walk, ∀ c ∈ n.children, c.directive.source ≠ "" → c.directive.kind = kind →
    c.document.isSome = true ∧ n.directive.kind = kind

instance (kind : String) (root : Node) : Decidable (root.MergesAll kind) :=
  inferInstanceAs (Decidable (∀ n ∈ root.walk, ∀ c ∈ n.children, c.directive.source ≠ "" →
    c.directive.kind = kind → c.document.isSome = true ∧ n.directive.kind = kind))

variable {kind : String} {root n : Node} {k : Nat}

theorem Merged.atDepth (h : root.Merged kind k n) : root.AtDepth k n := by
  induction h with
  | root => exact .root
  | child _ hc _ _ ih => exact .child ih hc

theorem Merged.mem_walk (h : root.Merged kind k n) : n ∈ root.walk := mem_walk_iff.2 ⟨k, h.atDepth⟩

theorem Merged.document (h : root.Merged kind k n) : n.document.isSome = true := by
  cases h with
  | root hdoc => exact hdoc
  | child _ _ _ hdoc => exact hdoc

end Node

namespace Plan.Stands

variable {desk : Desk} {s : Setting} {root root' n m c : Node} {kind : String} {k k' : Nat}

theorem merged_of_atDepth (h : Stands desk s root) (hroot : root.directive.kind = kind)
    (hall : root.MergesAll kind) (hk : root.AtDepth k n) (hdoc : n.document.isSome = true)
    (hkind : n.directive.kind = kind) : root.Merged kind k n := by
  induction hk with
  | root => exact .root hdoc hroot
  | @child k n c hk hc ih =>
    have hn := mem_walk_iff.2 ⟨k, hk⟩
    obtain ⟨content, fragments, hopened⟩ := h.opened (mem_walk_of_mem_children hn hc) hdoc
    obtain ⟨-, hparent⟩ := hall n hn c hc hopened.source_ne hkind
    exact .child (ih (h.document_of_mem hn hc) hparent) hc hkind hdoc

theorem exists_merged (h : Stands desk s root) (hroot : root.directive.kind = kind) (hall : root.MergesAll kind)
    {cwd : Path} {path : String} (hpath : path ∈ root.embeds cwd kind) :
    ∃ k c, root.Merged kind (k + 1) c ∧ c.resolved cwd = path := by
  obtain ⟨n, hn, c, hc, hsrc, hkind, hres⟩ := mem_embeds.1 hpath
  obtain ⟨hdoc, hparent⟩ := hall n hn c hc hsrc hkind
  obtain ⟨k, hk⟩ := mem_walk_iff.1 hn
  have hn := h.merged_of_atDepth hroot hall hk (h.document_of_mem hn hc) hparent
  exact ⟨k, c, .child hn hc hkind hdoc, hres⟩

theorem merged_trans (h : Stands desk s root) (h' : Stands desk s root') (hall : root'.MergesAll kind)
    (hm : root'.Merged kind k' m) (hres : root.resolved desk.disk.folder = m.resolved desk.disk.folder)
    (hn : root.Merged kind k n) :
    ∃ m', root'.Merged kind (k' + k) m' ∧ n.resolved desk.disk.folder = m'.resolved desk.disk.folder := by
  induction hn with
  | root => exact ⟨m, hm, hres⟩
  | @child k n c hn hc hkind hdoc ih =>
    obtain ⟨m', hm', hres'⟩ := ih
    obtain ⟨c', hc', hdet⟩ := h.exists_counterpart h' hn.mem_walk hm'.mem_walk hm'.document hres' hc
    obtain ⟨hkind', hsrc', -⟩ := Directive.of_detached_eq hdet
    obtain ⟨content, fragments, hopened⟩ := h.opened (mem_walk_of_mem_children hn.mem_walk hc) hdoc
    have hmerged := hall m' hm'.mem_walk c' hc' (by rw [hsrc']; exact hopened.source_ne) (hkind'.trans hkind)
    refine ⟨c', .child hm' hc' (hkind'.trans hkind) hmerged.1, ?_⟩
    rw [resolved, resolved, hsrc']

end Plan.Stands

end Transclude
