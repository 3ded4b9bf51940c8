import Transclude.Proofs.Indices

/-!
# Older names

Directives get the present names of their kinds and options (`Renewal`), with a warning for each older name that is
found. When that was done, there is nothing left to do.
-/

namespace Transclude

open List

/-! ## Options -/

namespace Options

variable {options : Options} {name : String} {pairs : List (String × String)}

theorem get?_cons (n v : String) (rest : Options) (name : String) :
    get? ((n, v) :: rest) name = if name = n then some v else rest.get? name := by
  rw [get?, get?, lookup_cons]
  by_cases h : name = n
  · simp [h]
  · rw [if_neg h, beq_false_of_ne h]

theorem get?_put (options : Options) (key value name : String) :
    (options.put key value).get? name = if name = key then some value else options.get? name := by
  induction options with
  | nil => exact get?_cons key value [] name
  | cons e rest ih =>
    obtain ⟨n, v⟩ := e
    rw [put, get?_cons]
    by_cases hn : n = key
    · rw [if_pos (by simpa using hn), get?_cons, hn]
      split_ifs <;> rfl
    · rw [if_neg (by simpa using hn), get?_cons, ih]
      by_cases h : name = n
      · rw [if_pos h, if_pos h, if_neg (h ▸ hn)]
      · rw [if_neg h, if_neg h]

def renameOne (options : Options) (pair : String × String) (value : String) : Options :=
  (options.erase pair.2).put pair.1 value

theorem get?_renameOne (pair : String × String) (value : String) (hne : name ≠ pair.1) :
    (options.renameOne pair value).get? name = if name = pair.2 then none else options.get? name := by
  rw [renameOne, get?_put, if_neg hne]
  exact Registry.lookup_remove options pair.2 name

/-- The options after renaming by pairs of a present and an older name, and the pairs whose older name was found. -/
def renamePairs (options : Options) : List (String × String) → Options × List (String × String)
  | [] => (options, [])
  | pair :: rest =>
    match options.get? pair.2 with
    | none => renamePairs options rest
    | some value => ((renamePairs (options.renameOne pair value) rest).1,
        pair :: (renamePairs (options.renameOne pair value) rest).2)

def pairsOf (table : List (String × List String)) : List (String × String) :=
  table.flatMap fun e => e.2.map (e.1, ·)

def oldNameWarning (pair : String × String) : Status :=
  .warning s!"option '{pair.2}' is deprecated, use '{pair.1}' instead"

theorem renamePairs_append (options : Options) (first second : List (String × String)) :
    options.renamePairs (first ++ second) =
      (((options.renamePairs first).1.renamePairs second).1,
        (options.renamePairs first).2 ++ ((options.renamePairs first).1.renamePairs second).2) := by
  induction first generalizing options with
  | nil => rfl
  | cons pair first ih =>
    rw [cons_append, renamePairs, renamePairs]
    cases options.get? pair.2 with
    | none => exact ih options
    | some value =>
      dsimp only
      rw [ih]
      rfl

theorem renameAll_eq (options : Options) (new : String) (olds : List String) :
    renameOld.renameAll options new olds =
      ((options.renamePairs (olds.map (new, ·))).1,
        (options.renamePairs (olds.map (new, ·))).2.map oldNameWarning) := by
  induction olds generalizing options with
  | nil => rfl
  | cons old olds ih =>
    rw [renameOld.renameAll, map_cons, renamePairs]
    cases options.get? old with
    | none => exact ih options
    | some value =>
      dsimp only
      rw [ih]
      rfl

theorem renameOld_eq (options : Options) (table : List (String × List String)) :
    options.renameOld table =
      ((options.renamePairs (pairsOf table)).1, (options.renamePairs (pairsOf table)).2.map oldNameWarning) := by
  induction table generalizing options with
  | nil => rfl
  | cons e table ih =>
    obtain ⟨new, olds⟩ := e
    rw [renameOld, renameAll_eq]
    dsimp only
    rw [ih, show pairsOf ((new, olds) :: table) = olds.map (new, ·) ++ pairsOf table from rfl, renamePairs_append,
      map_append]

theorem get?_renamePairs (hnew : name ∉ pairs.map (·.1)) : (options.renamePairs pairs).1.get? name =
      if name ∈ pairs.map (·.2) then none else options.get? name := by
  induction pairs generalizing options with
  | nil => rfl
  | cons pair pairs ih =>
    simp only [map_cons, mem_cons, not_or] at hnew ⊢
    rw [renamePairs]
    cases hget : options.get? pair.2 with
    | none =>
      rw [ih hnew.2]
      split_ifs <;> grind
    | some value =>
      rw [ih hnew.2, get?_renameOne _ _ hnew.1]
      split_ifs <;> grind

def Apart (pairs : List (String × String)) : Prop :=
  ∀ a ∈ pairs, ∀ b ∈ pairs, a.1 ≠ b.2

theorem Apart.notMem (h : Apart pairs) (hold : name ∈ pairs.map (·.2)) : name ∉ pairs.map (·.1) := by
  obtain ⟨b, hb, rfl⟩ := mem_map.1 hold
  rintro hnew
  obtain ⟨a, ha, heq⟩ := mem_map.1 hnew
  exact h a ha b hb heq

theorem found_sublist (options : Options) (pairs : List (String × String)) :
    (options.renamePairs pairs).2.Sublist pairs := by
  induction pairs generalizing options with
  | nil => exact .slnil
  | cons pair pairs ih =>
    rw [renamePairs]
    cases options.get? pair.2 with
    | none => exact (ih options).cons _
    | some value => exact (ih _).cons_cons _

theorem mem_found (h : Apart pairs) :
    ((options.renamePairs pairs).2.map (·.2)).Nodup ∧
    ∀ old, old ∈ (options.renamePairs pairs).2.map (·.2) ↔
      old ∈ pairs.map (·.2) ∧ (options.get? old).isSome = true := by
  induction pairs generalizing options with
  | nil => exact ⟨nodup_nil, fun old => by simp [renamePairs]⟩
  | cons pair pairs ih =>
    have hrest : Apart pairs := fun a ha b hb => h a (mem_cons_of_mem _ ha) b (mem_cons_of_mem _ hb)
    rw [renamePairs]
    cases hget : options.get? pair.2 with
    | none =>
      refine ⟨(ih hrest).1, fun old => ?_⟩
      rw [(ih hrest).2 old, map_cons, mem_cons]
      refine and_congr_left fun hsome => (or_iff_right fun heq => ?_).symm
      rw [heq, hget] at hsome
      cases hsome
    | some value =>
      have hstep (old : String) (hold : old ∈ pairs.map (·.2)) :
          (options.renameOne pair value).get? old = if old = pair.2 then none else options.get? old :=
        get?_renameOne _ _ fun heq => h.notMem (mem_cons_of_mem _ hold) (heq ▸ mem_cons_self)
      obtain ⟨hnodup, hmem⟩ := @ih (options.renameOne pair value) hrest
      refine ⟨nodup_cons.2 ⟨fun hfound => ?_, hnodup⟩, fun old => ?_⟩
      · obtain ⟨hold, hsome⟩ := (hmem _).1 hfound
        rw [hstep _ hold, if_pos rfl] at hsome
        cases hsome
      · rw [map_cons, map_cons, mem_cons, mem_cons, hmem old]
        by_cases heq : old = pair.2
        · simp [heq, hget]
        · simp only [heq, false_or]
          refine and_congr_right fun hold => ?_
          rw [hstep old hold, if_neg heq]

theorem renamePairs_of_none (h : ∀ old ∈ pairs.map (·.2), options.get? old = none) :
    options.renamePairs pairs = (options, []) := by
  induction pairs with
  | nil => rfl
  | cons pair pairs ih =>
    rw [renamePairs, h _ mem_cons_self]
    exact ih fun old hold => h old (mem_cons_of_mem _ hold)

end Options

/-! ## Registries -/

namespace Registry

variable {r : Registry} {p : Plugin}

/-- Whether a registry comes about by loading plugins. -/
inductive Filled : Registry → Prop
  | empty : Filled {}
  | load {r : Registry} (h : Filled r) (entries : List Entry) (enabled : Option (List String)) :
    Filled (r.load entries enabled).1

def Leads (r : Registry) : Prop :=
  ∀ old p, r.byOldKind.lookup old = some p → (r.find? p.kind).isSome = true

theorem Leads.put (h : r.Leads) (name : String) (p : Plugin) : (r.put name p).Leads := by
  intro old q hq
  rw [Registry.put, lookup_foldl_assign] at hq
  rw [find?_put]
  by_cases hkind : q.kind = p.kind
  · rw [if_pos hkind]
    rfl
  · rw [if_neg hkind]
    split_ifs at hq
    · cases hq
      exact absurd rfl hkind
    · exact h old q hq

theorem Leads.register (h : r.Leads) (e : Entry) : (r.register e).1.Leads := by
  rw [Registry.register]
  cases e.offer with
  | failing reason => exact h
  | incomplete missing => exact h
  | plugin p =>
    dsimp only
    cases r.find? p.kind with
    | some other => exact h
    | none => exact h.put p.name p

theorem Leads.loadOne {at_ : Registry × List Rejection} (h : at_.1.Leads) (enabled : Option (List String))
    (e : Entry) : (loadOne enabled at_ e).1.Leads := by
  have hrec : Leads { at_.1 with discovered := at_.1.discovered ++ [(e.name, e.module)] } := h
  rw [Registry.loadOne]
  split_ifs
  · exact hrec
  · exact hrec.register e

theorem Leads.foldl (entries : List Entry) (enabled : Option (List String)) {at_ : Registry × List Rejection}
    (h : at_.1.Leads) : (entries.foldl (Registry.loadOne enabled) at_).1.Leads := by
  induction entries generalizing at_ with
  | nil => exact h
  | cons e entries ih => exact ih (h.loadOne enabled e)

theorem Filled.leads (h : r.Filled) : r.Leads := by
  induction h with
  | empty => exact fun _ _ hlookup => by cases hlookup
  | load _ entries enabled ih => exact Leads.foldl (firstOfModules [] entries) enabled ih

theorem Leads.resolve_resolve (h : r.Leads) (kind : String) : r.resolve (r.resolve kind).1 = ((r.resolve kind).1, false) := by
  have hserved {kind : String} (hfind : (r.find? kind).isSome = true) : r.resolve kind = (kind, false) := by
    rw [resolve, if_pos hfind]
  by_cases hfind : (r.find? kind).isSome = true
  · rw [hserved hfind, hserved hfind]
  · cases hold : r.byOldKind.lookup kind with
    | some p =>
      have hres : r.resolve kind = (p.kind, true) := by rw [resolve, if_neg hfind, hold]
      rw [hres, hserved (h kind p hold)]
    | none =>
      have hres : r.resolve kind = (kind, false) := by rw [resolve, if_neg hfind, hold]
      rw [hres, hres]

/-! ## Directives -/

/-- Whether a directive is another one in present names, with the warnings for the older names that this one has. -/
structure Renewal (r : Registry) (d d' : Directive) (warnings : List Status) : Prop where
  kind : d'.kind = (r.resolve d.kind).1
  rest : d'.source = d.source ∧ d'.baseDir = d.baseDir
  present : (r.resolve d'.kind).2 = false
  renamed : ∀ p, r.find? d'.kind = some p → ∀ e ∈ p.oldOptions, ∀ old ∈ e.2, d'.options.get? old = none
  kept : ∀ name, (∀ p, r.find? d'.kind = some p → ∀ e ∈ p.oldOptions, name ≠ e.1 ∧ name ∉ e.2) →
    d'.options.get? name = d.options.get? name
  warned : ∃ found : List (String × String), (found.map (·.2)).Nodup ∧
    (∀ pair ∈ found, ∃ p, r.find? d'.kind = some p ∧ ∃ e ∈ p.oldOptions, pair.1 = e.1 ∧ pair.2 ∈ e.2) ∧
    (∀ old, old ∈ found.map (·.2) ↔ (d.options.get? old).isSome = true ∧
      ∃ p, r.find? d'.kind = some p ∧ ∃ e ∈ p.oldOptions, old ∈ e.2) ∧
    warnings = (if (r.resolve d.kind).2 then [oldKindWarning d.kind d'.kind] else []) ++
      found.map Options.oldNameWarning

/-- Whether no plugin has one name both as a present and as an older one. -/
def KeepsApart (r : Registry) : Prop :=
  ∀ kind p, r.find? kind = some p → ∀ e ∈ p.oldOptions, ∀ e' ∈ p.oldOptions, e.1 ∉ e'.2

theorem mem_pairsOf {table : List (String × List String)} {pair : String × String} :
    pair ∈ Options.pairsOf table ↔ ∃ e ∈ table, pair.1 = e.1 ∧ pair.2 ∈ e.2 := by
  obtain ⟨new, old⟩ := pair
  simp [Options.pairsOf, eq_comm, and_comm]

theorem old_mem_pairsOf {table : List (String × List String)} {old : String} :
    old ∈ (Options.pairsOf table).map (·.2) ↔ ∃ e ∈ table, old ∈ e.2 := by
  simp [Options.pairsOf]

theorem KeepsApart.apart (h : r.KeepsApart) {kind : String} (hp : r.find? kind = some p) :
    Options.Apart (Options.pairsOf p.oldOptions) := by
  intro a ha b hb heq
  obtain ⟨e, he, hnew, -⟩ := mem_pairsOf.1 ha
  obtain ⟨e', he', -, hold⟩ := mem_pairsOf.1 hb
  exact h kind p hp e he e' he' (hnew ▸ heq ▸ hold)

theorem modernize_of_find? {d : Directive} (hp : r.find? (r.resolve d.kind).1 = some p) :
    r.modernize d = ({ d with kind := (r.resolve d.kind).1,
                              options := (d.options.renamePairs (Options.pairsOf p.oldOptions)).1 },
      (if (r.resolve d.kind).2 then [oldKindWarning d.kind (r.resolve d.kind).1] else []) ++
        (d.options.renamePairs (Options.pairsOf p.oldOptions)).2.map Options.oldNameWarning) := by
  rw [modernize]
  dsimp only
  rw [hp]
  dsimp only [Plugin.renameOptions]
  rw [Options.renameOld_eq]

theorem modernize_of_none {d : Directive} (hp : r.find? (r.resolve d.kind).1 = none) :
    r.modernize d = ({ d with kind := (r.resolve d.kind).1 },
      if (r.resolve d.kind).2 then [oldKindWarning d.kind (r.resolve d.kind).1] else []) := by
  rw [modernize]
  dsimp only
  rw [hp]

theorem renewal_modernize (hleads : r.Leads) (hapart : r.KeepsApart) (d : Directive) :
    Renewal r d (r.modernize d).1 (r.modernize d).2 := by
  have hpresent : (r.resolve (r.resolve d.kind).1).2 = false := by rw [hleads.resolve_resolve]
  cases hp : r.find? (r.resolve d.kind).1 with
  | none =>
    rw [modernize_of_none hp]
    exact {
      kind := rfl
      rest := ⟨rfl, rfl⟩
      present := hpresent
      renamed := by simp [hp]
      kept := fun _ _ => rfl
      warned := ⟨[], nodup_nil, by simp, by simp [hp], (append_nil _).symm⟩ }
  | some p =>
    have hpairs := hapart.apart hp
    rw [modernize_of_find? hp]
    refine ⟨rfl, ⟨rfl, rfl⟩, hpresent, ?_, fun name hname => ?_, ⟨_, (Options.mem_found hpairs).1, ?_, ?_, rfl⟩⟩
    · intro q hq e he old hold
      obtain rfl : p = q := Option.some.inj (hp.symm.trans hq)
      have hmem := old_mem_pairsOf.2 ⟨e, he, hold⟩
      exact (Options.get?_renamePairs (hpairs.notMem hmem)).trans (if_pos hmem)
    · refine (Options.get?_renamePairs fun hnew => ?_).trans (if_neg fun hold => ?_)
      · obtain ⟨pair, hpair, rfl⟩ := mem_map.1 hnew
        obtain ⟨e, he, heq, -⟩ := mem_pairsOf.1 hpair
        exact (hname p hp e he).1 heq
      · obtain ⟨e, he, hmem⟩ := old_mem_pairsOf.1 hold
        exact (hname p hp e he).2 hmem
    · intro pair hpair
      exact ⟨p, hp, mem_pairsOf.1 ((Options.found_sublist _ _).subset hpair)⟩
    · intro old
      rw [(Options.mem_found hpairs).2 old, old_mem_pairsOf, and_comm]
      simp [hp]

theorem modernize_modernize (hleads : r.Leads) (hapart : r.KeepsApart) (d : Directive) :
    r.modernize (r.modernize d).1 = ((r.modernize d).1, []) := by
  have hrenewal := renewal_modernize hleads hapart d
  have hres := hleads.resolve_resolve d.kind
  rw [← hrenewal.kind] at hres
  generalize (r.modernize d).1 = d' at *
  cases hp : r.find? d'.kind with
  | none => simp [modernize_of_none (d := d') (by rwa [hres]), hres]
  | some p =>
    have hnone : d'.options.renamePairs (Options.pairsOf p.oldOptions) = (d'.options, []) := by
      refine Options.renamePairs_of_none fun old hold => ?_
      obtain ⟨e, he, hmem⟩ := old_mem_pairsOf.1 hold
      exact hrenewal.renamed p hp e he old hmem
    simp [modernize_of_find? (d := d') (by rwa [hres]), hres, hnone]

end Registry

/-! ## Documents -/

namespace Plan

open Registry

variable {r : Registry}

/-- Whether fragments are others with all directives in present names; the warnings are those of the directives, in
their order. -/
inductive Renewed (r : Registry) : List Fragment → List Fragment → List Status → Prop
  | nil : Renewed r [] [] []
  | text (s : String) {rest rest' : List Fragment} {warnings : List Status} (h : Renewed r rest rest' warnings) :
    Renewed r (.text s :: rest) (.text s :: rest') warnings
  | span (s : Span) {rest rest' : List Fragment} {warnings : List Status} (h : Renewed r rest rest' warnings) :
    Renewed r (.span s :: rest) (.span s :: rest') warnings
  | directive {d d' : Directive} {rest rest' : List Fragment} {own warnings : List Status}
    (hd : Renewal r d d' own) (h : Renewed r rest rest' warnings) :
    Renewed r (.directive d :: rest) (.directive d' :: rest') (own ++ warnings)

theorem renewed_modernizeAll (hleads : r.Leads) (hapart : r.KeepsApart) (fragments : List Fragment) :
    Renewed r fragments (modernizeAll r fragments).1 (modernizeAll r fragments).2 := by
  induction fragments with
  | nil => exact .nil
  | cons f rest ih =>
    cases f with
    | text s => exact .text s ih
    | span s => exact .span s ih
    | directive d => exact .directive (renewal_modernize hleads hapart d) ih

/-- All older names of a document are replaced by the present ones and warned of once; to do so again changes nothing. -/
theorem modernizeAll_complete_idempotent (hfilled : r.Filled) (hapart : r.KeepsApart) (fragments : List Fragment) :
    Renewed r fragments (modernizeAll r fragments).1 (modernizeAll r fragments).2 ∧
    modernizeAll r (modernizeAll r fragments).1 = ((modernizeAll r fragments).1, []) := by
  refine ⟨renewed_modernizeAll hfilled.leads hapart fragments, ?_⟩
  induction fragments with
  | nil => rfl
  | cons f rest ih =>
    cases f with
    | text s => simp only [modernizeAll, ih]
    | span s => simp only [modernizeAll, ih]
    | directive d => simp only [modernizeAll, modernize_modernize hfilled.leads hapart, ih, nil_append]

theorem modernizeAll_of_standard :
    let r := (load {} Entry.standard none).1
    let d : Directive := { kind := "file", source := "a.md", options := [("link", "True")], baseDir := "" }
    Renewed r [.directive d] (modernizeAll r [.directive d]).1 (modernizeAll r [.directive d]).2 ∧
    modernizeAll r (modernizeAll r [.directive d]).1 = ((modernizeAll r [.directive d]).1, []) ∧
    (modernizeAll r [.directive d]).2 = [Options.oldNameWarning ("show_link", "link")] := by
  have hapart : KeepsApart (load {} Entry.standard none).1 := by
    intro kind p hp
    have hall : ∀ e ∈ (load {} Entry.standard none).1.byKind, ∀ a ∈ e.2.oldOptions, ∀ b ∈ e.2.oldOptions, a.1 ∉ b.2 := by
      decide
    exact hall (kind, p) (mem_of_lookup hp)
  obtain ⟨hrenewed, hagain⟩ := modernizeAll_complete_idempotent (.load .empty Entry.standard none) hapart
    [.directive { kind := "file", source := "a.md", options := [("link", "True")], baseDir := "" }]
  exact ⟨hrenewed, hagain, by decide⟩

end Plan

end Transclude
