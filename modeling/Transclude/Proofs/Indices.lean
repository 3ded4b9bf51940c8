import Mathlib.Data.List.Nodup
import Transclude.Proofs.Writing

/-!
# The indices of a registry

A registry keeps its plugins by name, with indices by kind and by older kind. A plugin in whose place another one is
put stays in the indices, so these mirror the table exactly if every change of the table is harmless
(`mirrors_all_along_iff`).
-/

namespace Transclude.Registry

open List

/-! ## Tables -/

section Tables

variable {α : Type} {table : List (String × α)} {key : String} {value v : α}

theorem lookup_assign (table : List (String × α)) (key : String) (value : α) (k : String) :
    (assign table key value).lookup k = if k = key then some value else table.lookup k := by
  rw [show assign table key value = assigned table key value from rfl, lookup_assigned]
  simp only [beq_iff_eq]

theorem lookup_remove (table : List (String × α)) (key k : String) :
    (remove table key).lookup k = if k = key then none else table.lookup k := by
  induction table with
  | nil => simp [remove]
  | cons e table ih =>
    rw [remove] at ih
    by_cases he : e.1 = key
    · rw [remove, filter_cons_of_neg (by simpa using he), ih, lookup_cons]
      by_cases hk : k = key
      · rw [if_pos hk, if_pos hk]
      · rw [if_neg hk, if_neg hk, beq_false_of_ne (he ▸ hk)]
    · rw [remove, filter_cons_of_pos (by simpa using he), lookup_cons, lookup_cons, ih]
      by_cases hk : k = key
      · rw [if_pos hk, if_pos hk, beq_false_of_ne (hk ▸ Ne.symm he)]
      · rw [if_neg hk, if_neg hk]

theorem lookup_foldl_assign (keys : List String) (value : α) (table : List (String × α)) (k : String) :
    (keys.foldl (fun t key => assign t key value) table).lookup k =
      if k ∈ keys then some value else table.lookup k := by
  induction keys generalizing table with
  | nil => simp
  | cons key keys ih =>
    rw [foldl_cons, ih, lookup_assign]
    by_cases hk : k = key <;> simp [hk]

theorem lookup_foldl_remove (keys : List String) (table : List (String × α)) (k : String) :
    (keys.foldl remove table).lookup k = if k ∈ keys then none else table.lookup k := by
  induction keys generalizing table with
  | nil => simp
  | cons key keys ih =>
    rw [foldl_cons, ih, lookup_remove]
    by_cases hk : k = key <;> simp [hk]

def Elsewhere (table : List (String × α)) (key : String) (v : α) : Prop := ∃ e ∈ table, e.1 ≠ key ∧ e.2 = v

theorem mem_values_assign : v ∈ (assign table key value).map (·.2) ↔ v = value ∨ Elsewhere table key v := by
  have hany : table.any (·.1 == key) = true ↔ key ∈ table.map (·.1) := by simp
  rw [assign]
  split_ifs with hmem <;> rw [hany] at hmem
  · rw [map_map, mem_map]
    constructor
    · rintro ⟨e, he, rfl⟩
      by_cases hkey : e.1 = key
      · exact .inl (by simp [hkey])
      · exact .inr ⟨e, he, hkey, by simp [hkey]⟩
    · rintro (rfl | ⟨e, he, hkey, rfl⟩)
      · obtain ⟨e, he, hkey⟩ := mem_map.1 hmem
        exact ⟨e, he, by simp [hkey]⟩
      · exact ⟨e, he, by simp [hkey]⟩
  · rw [map_append, mem_append, map_singleton, mem_singleton, or_comm]
    refine or_congr_right ⟨fun h => ?_, fun h => ?_⟩
    · obtain ⟨e, he, rfl⟩ := mem_map.1 h
      refine ⟨e, he, ?_, rfl⟩
      rintro rfl
      exact hmem (mem_map_of_mem he)
    · obtain ⟨e, he, -, rfl⟩ := h
      exact mem_map_of_mem he

theorem mem_values_remove : v ∈ (remove table key).map (·.2) ↔ Elsewhere table key v := by
  simp only [remove, mem_map, mem_filter, bne_iff_ne, and_assoc, Elsewhere]

theorem mem_values_iff (h : (table.map (·.1)).Nodup) :
    v ∈ table.map (·.2) ↔ table.lookup key = some v ∨ Elsewhere table key v := by
  constructor
  · intro hv
    obtain ⟨e, he, rfl⟩ := mem_map.1 hv
    by_cases hkey : e.1 = key
    · exact .inl (lookup_eq_some_of_mem h (hkey ▸ he))
    · exact .inr ⟨e, he, hkey, rfl⟩
  · rintro (hl | ⟨e, he, -, rfl⟩)
    · exact mem_map_of_mem (mem_of_lookup hl)
    · exact mem_map_of_mem he

end Tables

/-! ## Mirrors -/

variable {r : Registry} {name kind : String} {p q : Plugin}

/-- Whether the indices lead to the plugins of the table: by a kind to exactly those of it, by an older kind to no
others. -/
structure Mirrors (r : Registry) : Prop where
  find?_iff : ∀ kind p, r.find? kind = some p ↔ p ∈ r.plugins.map (·.2) ∧ p.kind = kind
  mem_of_old : ∀ old p, r.byOldKind.lookup old = some p → p ∈ r.plugins.map (·.2)

structure Sound (r : Registry) : Prop where
  nodup : (r.plugins.map (·.1)).Nodup
  kind : ∀ kind p, r.find? kind = some p → p.kind = kind
  old : ∀ old p, r.byOldKind.lookup old = some p → old ∈ p.oldKinds

theorem Mirrors.resolve (h : r.Mirrors) (hs : r.Sound) {old : String} (hr : r.resolve old = (kind, true)) :
    ∃ p ∈ r.plugins.map (·.2), p.kind = kind ∧ old ∈ p.oldKinds := by
  rw [Registry.resolve] at hr
  split_ifs at hr
  · cases hr
  · split at hr
    · rename_i p hp
      cases hr
      exact ⟨p, h.mem_of_old old p hp, rfl, hs.old old p hp⟩
    · cases hr

/-! ## Changes -/

inductive Change where
  | put (name : String) (p : Plugin)
  | erase (name : String)

def Change.after (r : Registry) : Change → Registry
  | .put name p => r.put name p
  | .erase name => (r.erase? name).getD r

/-- No other name has another plugin of the kind, and no index leads to the plugin that had the name, unless another
name has it. -/
structure Fits (r : Registry) (name : String) (p : Plugin) : Prop where
  alone : ∀ q, Elsewhere r.plugins name q → q.kind = p.kind → q = p
  kind : ∀ q, r.get? name = some q → q.kind = p.kind ∨ Elsewhere r.plugins name q
  old : ∀ q old, r.get? name = some q → r.byOldKind.lookup old = some q → old ∈ p.oldKinds ∨ Elsewhere r.plugins name q

def Change.Harmless (r : Registry) : Change → Prop
  | .put name p => r.Fits name p
  | .erase name => ∀ p, r.get? name = some p → ¬ Elsewhere r.plugins name p

theorem get?_put (r : Registry) (name : String) (p : Plugin) (other : String) :
    (r.put name p).get? other = if other = name then some p else r.get? other :=
  lookup_assign r.plugins name p other

theorem find?_put (r : Registry) (name : String) (p : Plugin) (kind : String) :
    (r.put name p).find? kind = if kind = p.kind then some p else r.find? kind :=
  lookup_assign r.byKind p.kind p kind

theorem lookup_old_put (r : Registry) (name : String) (p : Plugin) (old : String) :
    (r.put name p).byOldKind.lookup old = if old ∈ p.oldKinds then some p else r.byOldKind.lookup old :=
  lookup_foldl_assign p.oldKinds p r.byOldKind old

theorem mem_values_put : q ∈ (r.put name p).plugins.map (·.2) ↔ q = p ∨ Elsewhere r.plugins name q := mem_values_assign

theorem Sound.put (h : r.Sound) (name : String) (p : Plugin) : (r.put name p).Sound where
  nodup := nodup_keys_assigned h.nodup name p
  kind kind q hq := by
    rw [find?_put] at hq
    split_ifs at hq with hkind
    · cases hq
      exact hkind.symm
    · exact h.kind kind q hq
  old old q hq := by
    rw [lookup_old_put] at hq
    split_ifs at hq with hold
    · cases hq
      exact hold
    · exact h.old old q hq

theorem Fits.mirrors_put (hf : r.Fits name p) (hs : r.Sound) (hm : r.Mirrors) : (r.put name p).Mirrors where
  find?_iff kind q := by
    rw [find?_put, mem_values_put]
    split_ifs with hkind
    · subst hkind
      constructor
      · intro hq
        cases hq
        exact ⟨.inl rfl, rfl⟩
      · rintro ⟨rfl | helse, hq⟩
        · rfl
        · rw [hf.alone q helse hq]
    · rw [hm.find?_iff, mem_values_iff hs.nodup]
      constructor
      · rintro ⟨hname | helse, rfl⟩
        · exact ⟨.inr ((hf.kind q hname).resolve_left hkind), rfl⟩
        · exact ⟨.inr helse, rfl⟩
      · rintro ⟨rfl | helse, rfl⟩
        · exact absurd rfl hkind
        · exact ⟨.inr helse, rfl⟩
  mem_of_old old q hq := by
    rw [lookup_old_put] at hq
    rw [mem_values_put]
    split_ifs at hq with hold
    · cases hq
      exact .inl rfl
    · rcases (mem_values_iff hs.nodup).1 (hm.mem_of_old old q hq) with hname | helse
      · exact .inr ((hf.old q old hname hq).resolve_left hold)
      · exact .inr helse

theorem fits_of_mirrors_put (h : (r.put name p).Mirrors) (hs : r.Sound) (hm : r.Mirrors) : r.Fits name p where
  alone q helse hkind := by
    have hq := (h.find?_iff p.kind q).2 ⟨mem_values_put.2 (.inr helse), hkind⟩
    rw [find?_put, if_pos rfl] at hq
    exact (Option.some.inj hq).symm
  kind q hname := by
    refine or_iff_not_imp_left.2 fun hkind => ?_
    have hq := (hm.find?_iff q.kind q).2 ⟨(mem_values_iff hs.nodup).2 (.inl hname), rfl⟩
    have hput : (r.put name p).find? q.kind = some q := by rw [find?_put, if_neg hkind, hq]
    refine (mem_values_put.1 ((h.find?_iff q.kind q).1 hput).1).resolve_left ?_
    rintro rfl
    exact hkind rfl
  old q old hname hold := by
    refine or_iff_not_imp_left.2 fun hnew => ?_
    have hput : (r.put name p).byOldKind.lookup old = some q := by rw [lookup_old_put, if_neg hnew, hold]
    refine (mem_values_put.1 (h.mem_of_old old q hput)).resolve_left ?_
    rintro rfl
    exact hnew (hs.old old q hold)

theorem after_erase_of_none (h : r.get? name = none) : Change.after r (.erase name) = r := by
  rw [Change.after, erase?, show r.plugins.lookup name = none from h]
  rfl

theorem after_erase_of_some (h : r.get? name = some p) : Change.after r (.erase name) = { r with
      plugins := remove r.plugins name
      byKind := remove r.byKind p.kind
      byOldKind := p.oldKinds.foldl remove r.byOldKind } := by
  rw [Change.after, erase?, show r.plugins.lookup name = some p from h]
  rfl

theorem Sound.erase (h : r.Sound) (name : String) : (Change.after r (.erase name)).Sound := by
  cases hname : r.get? name with
  | none =>
    rw [after_erase_of_none hname]
    exact h
  | some p =>
    rw [after_erase_of_some hname]
    refine ⟨h.nodup.sublist (filter_sublist.map _), fun kind q hq => ?_, fun old q hq => ?_⟩
    · rw [find?, lookup_remove] at hq
      split_ifs at hq
      exact h.kind kind q hq
    · rw [lookup_foldl_remove] at hq
      split_ifs at hq
      exact h.old old q hq

theorem mirrors_erase_iff (hs : r.Sound) (hm : r.Mirrors) (hname : r.get? name = some p) :
    (Change.after r (.erase name)).Mirrors ↔ ¬ Elsewhere r.plugins name p := by
  have hval : ∀ q, q ∈ r.plugins.map (·.2) ↔ q = p ∨ Elsewhere r.plugins name q := by
    intro q
    rw [mem_values_iff hs.nodup, show r.plugins.lookup name = some p from hname, Option.some.injEq, eq_comm]
  rw [after_erase_of_some hname]
  constructor
  · rintro h helse
    have hfound := (h.find?_iff p.kind p).2 ⟨mem_values_remove.2 helse, rfl⟩
    rw [find?, lookup_remove, if_pos rfl] at hfound
    cases hfound
  · intro helse
    refine ⟨fun kind q => ?_, fun old q hq => mem_values_remove.2 ?_⟩
    · rw [find?, lookup_remove, mem_values_remove]
      split_ifs with hkind
      · refine ⟨fun h => (by cases h), ?_⟩
        rintro ⟨hq, hqkind⟩
        -- both have the kind, and there is one plugin of each kind
        have hfound := (hm.find?_iff kind q).2 ⟨(hval q).2 (.inr hq), hqkind⟩
        rw [(hm.find?_iff kind p).2 ⟨(hval p).2 (.inl rfl), hkind.symm⟩] at hfound
        cases hfound
        exact absurd hq helse
      · rw [show r.byKind.lookup kind = r.find? kind from rfl, hm.find?_iff, hval]
        refine and_congr_left fun hq => or_iff_right ?_
        rintro rfl
        exact hkind hq.symm
    · rw [lookup_foldl_remove] at hq
      split_ifs at hq with hold
      refine ((hval q).1 (hm.mem_of_old old q hq)).resolve_left ?_
      rintro rfl
      exact hold (hs.old old q hq)

theorem Sound.after (h : r.Sound) (change : Change) : (change.after r).Sound := by
  cases change with
  | put name p => exact h.put name p
  | erase name => exact h.erase name

theorem mirrors_after_iff (hs : r.Sound) (hm : r.Mirrors) (change : Change) :
    (change.after r).Mirrors ↔ change.Harmless r := by
  cases change with
  | put name p => exact ⟨fun h => fits_of_mirrors_put h hs hm, fun hf => hf.mirrors_put hs hm⟩
  | erase name =>
    cases hname : r.get? name with
    | none =>
      rw [after_erase_of_none hname]
      refine iff_of_true hm fun p hp => ?_
      cases hname.symm.trans hp
    | some p =>
      rw [mirrors_erase_iff hs hm hname]
      refine ⟨fun h q hq => ?_, fun h => h p hname⟩
      cases hname.symm.trans hq
      exact h

/-! ## Histories -/

def Orderly (r : Registry) : List Change → Prop
  | [] => True
  | change :: rest => change.Harmless r ∧ Orderly (change.after r) rest

theorem mirrors_take_iff (hs : r.Sound) (hm : r.Mirrors) (changes : List Change) :
    (∀ n, ((changes.take n).foldl Change.after r).Mirrors) ↔ r.Orderly changes := by
  induction changes generalizing r with
  | nil => simp [Orderly, hm]
  | cons change changes ih =>
    constructor
    · intro h
      have hnext : (change.after r).Mirrors := h 1
      exact ⟨(mirrors_after_iff hs hm change).1 hnext, (ih (hs.after change) hnext).1 fun n => h (n + 1)⟩
    · rintro ⟨hharmless, horderly⟩ n
      have hnext := (mirrors_after_iff hs hm change).2 hharmless
      cases n with
      | zero => exact hm
      | succ n => exact (ih (hs.after change) hnext).2 horderly n

/-! ## Operations -/

inductive Operation where
  | load (entries : List Entry) (enabled : Option (List String))
  | put (name : String) (p : Plugin)
  | erase (name : String)

def Operation.after (r : Registry) : Operation → Registry
  | .load entries enabled => (r.load entries enabled).1
  | .put name p => Change.after r (.put name p)
  | .erase name => Change.after r (.erase name)

/-- The plugin that is taken from an entry: its module is enabled, and its kind is new. -/
def taken (r : Registry) (enabled : Option (List String)) (e : Entry) : Option Plugin :=
  if enabled.any (!·.contains e.module) then none
  else
    match e.offer with
    | .plugin p => if (r.find? p.kind).isSome then none else some p
    | .failing _ => none
    | .incomplete _ => none

def loadChanges (enabled : Option (List String)) (r : Registry) : List Entry → List Change
  | [] => []
  | e :: rest =>
    match r.taken enabled e with
    | none => loadChanges enabled r rest
    | some p => .put p.name p :: loadChanges enabled (r.put p.name p) rest

def Operation.changes (r : Registry) : Operation → List Change
  | .load entries enabled => loadChanges enabled r (firstOfModules [] entries)
  | .put name p => [.put name p]
  | .erase name => [.erase name]

def changes (r : Registry) : List Operation → List Change
  | [] => []
  | operation :: rest => operation.changes r ++ changes (operation.after r) rest

def tables (r : Registry) : Registry := { r with discovered := [], skipped := [] }

theorem mirrors_tables : r.tables.Mirrors ↔ r.Mirrors :=
  ⟨fun h => ⟨h.find?_iff, h.mem_of_old⟩, fun h => ⟨h.find?_iff, h.mem_of_old⟩⟩

theorem sound_tables : r.tables.Sound ↔ r.Sound :=
  ⟨fun h => ⟨h.nodup, h.kind, h.old⟩, fun h => ⟨h.nodup, h.kind, h.old⟩⟩

theorem tables_after (r : Registry) (change : Change) : (change.after r).tables = change.after r.tables := by
  cases change with
  | put name p => rfl
  | erase name =>
    cases hname : r.get? name with
    | none =>
      have hname' : r.tables.get? name = none := hname
      rw [after_erase_of_none hname, after_erase_of_none hname']
    | some p =>
      have hname' : r.tables.get? name = some p := hname
      rw [after_erase_of_some hname, after_erase_of_some hname']
      rfl

theorem tables_foldl_after (r : Registry) (changes : List Change) :
    (changes.foldl Change.after r).tables = changes.foldl Change.after r.tables := by
  induction changes generalizing r with
  | nil => rfl
  | cons change changes ih => rw [foldl_cons, ih, tables_after, foldl_cons]

theorem tables_loadOne (enabled : Option (List String)) (r : Registry) (rejections : List Rejection) (e : Entry) :
    (loadOne enabled (r, rejections) e).1.tables =
      (r.taken enabled e).elim r.tables fun p => r.tables.put p.name p := by
  rw [loadOne, taken]
  split_ifs with henabled
  · rfl
  · rw [register]
    cases e.offer with
    | failing reason => rfl
    | incomplete missing => rfl
    | plugin p =>
      have hkind : Registry.find? { r with discovered := r.discovered ++ [(e.name, e.module)] } p.kind =
          r.find? p.kind := rfl
      dsimp only
      rw [hkind]
      cases r.find? p.kind with
      | none => rfl
      | some other => rfl

theorem tables_foldl_loadOne (enabled : Option (List String)) {r r' : Registry} (h : r'.tables = r.tables)
    (rejections : List Rejection) (entries : List Entry) :
    (entries.foldl (loadOne enabled) (r', rejections)).1.tables =
      ((loadChanges enabled r entries).foldl Change.after r).tables := by
  induction entries generalizing r r' rejections with
  | nil => exact h
  | cons e entries ih =>
    have htaken : r'.taken enabled e = r.taken enabled e := by
      have hindex : r'.tables.byKind = r.tables.byKind := by rw [h]
      have hfind : r'.find? = r.find? := funext fun kind => congrArg (List.lookup kind) hindex
      unfold taken
      rw [hfind]
    have hnext := tables_loadOne enabled r' rejections e
    rw [htaken, h] at hnext
    rw [loadChanges]
    cases htake : r.taken enabled e with
    | none =>
      rw [htake] at hnext
      exact ih hnext _
    | some p =>
      rw [htake] at hnext
      exact ih hnext _

theorem tables_operation (r : Registry) (operation : Operation) :
    (operation.after r).tables = ((operation.changes r).foldl Change.after r).tables := by
  cases operation with
  | load entries enabled =>
    have htables : r.tables.tables = r.tables := rfl
    exact tables_foldl_loadOne enabled htables [] (firstOfModules [] entries)
  | put name p => rfl
  | erase name => rfl

theorem tables_operations (r : Registry) (operations : List Operation) :
    (operations.foldl Operation.after r).tables = ((changes r operations).foldl Change.after r).tables := by
  induction operations generalizing r with
  | nil => rfl
  | cons operation operations ih =>
    rw [foldl_cons, ih, changes, foldl_append, tables_foldl_after, tables_operation, ← tables_foldl_after]

theorem sound_foldl_after (h : r.Sound) (changes : List Change) : (changes.foldl Change.after r).Sound := by
  induction changes generalizing r with
  | nil => exact h
  | cons change changes ih => exact ih (h.after change)

theorem sound_empty : Sound {} where
  nodup := nodup_nil
  kind kind p h := by cases h
  old old p h := by cases h

theorem mirrors_empty : Mirrors {} where
  find?_iff kind p := by simp [find?]
  mem_of_old old p h := by cases h

/-! ### New names -/

theorem fits_of_new (hm : r.Mirrors) (hname : r.get? name = none) (hkind : r.find? p.kind = none) : r.Fits name p where
  alone q helse hq := by
    obtain ⟨e, he, -, rfl⟩ := helse
    have hfound := (hm.find?_iff p.kind e.2).2 ⟨mem_map_of_mem he, hq⟩
    cases hkind.symm.trans hfound
  kind q hq := by cases hname.symm.trans hq
  old q old hq := by cases hname.symm.trans hq

def offeredName (e : Entry) : Option String :=
  match e.offer with
  | .plugin p => some p.name
  | .failing _ => none
  | .incomplete _ => none

theorem of_taken {enabled : Option (List String)} {e : Entry} (h : r.taken enabled e = some p) :
    offeredName e = some p.name ∧ r.find? p.kind = none := by
  rw [taken] at h
  split_ifs at h
  rw [offeredName]
  cases hoffer : e.offer with
  | failing reason => simp [hoffer] at h
  | incomplete missing => simp [hoffer] at h
  | plugin p' =>
    simp only [hoffer, Option.ite_none_left_eq_some, Option.some.injEq] at h
    obtain ⟨hnone, rfl⟩ := h
    exact ⟨rfl, by simpa using hnone⟩

theorem orderly_loadChanges (hs : r.Sound) (hm : r.Mirrors) (enabled : Option (List String)) {entries : List Entry}
    (hnames : (entries.filterMap offeredName).Nodup)
    (hnew : ∀ name ∈ entries.filterMap offeredName, r.get? name = none) :
    r.Orderly (loadChanges enabled r entries) := by
  induction entries generalizing r with
  | nil => trivial
  | cons e entries ih =>
    have hsub : (entries.filterMap offeredName).Sublist ((e :: entries).filterMap offeredName) :=
      (sublist_cons_self e entries).filterMap _
    rw [loadChanges]
    cases htake : r.taken enabled e with
    | none => exact ih hs hm (hnames.sublist hsub) fun name hname => hnew name (hsub.subset hname)
    | some p =>
      obtain ⟨hoffered, hkind⟩ := of_taken htake
      rw [filterMap_cons_some hoffered] at hnames hnew
      rw [nodup_cons] at hnames
      rw [forall_mem_cons] at hnew
      have hfits := fits_of_new hm hnew.1 hkind
      refine ⟨hfits, ih (hs.put p.name p) (hfits.mirrors_put hs hm) hnames.2 fun name hname => ?_⟩
      have hne : name ≠ p.name := by
        rintro rfl
        exact hnames.1 hname
      rw [Change.after, get?_put, if_neg hne]
      exact hnew.2 name hname

/-- The indices mirror the table after each change exactly if every change is harmless when it is made. Then a kind
leads to the plugins of the table that have it, and an older kind to the kind of one that had it. -/
theorem mirrors_all_along_iff (operations : List Operation) :
    ((∀ n, (((changes {} operations).take n).foldl Change.after {}).Mirrors) ↔ Orderly {} (changes {} operations)) ∧
    (Orderly {} (changes {} operations) →
      let r := operations.foldl Operation.after {}
      (∀ kind p, r.find? kind = some p ↔ p ∈ r.plugins.map (·.2) ∧ p.kind = kind) ∧
      (∀ old p, r.byOldKind.lookup old = some p → p ∈ r.plugins.map (·.2)) ∧
      ∀ old kind, r.resolve old = (kind, true) → ∃ p ∈ r.plugins.map (·.2), p.kind = kind ∧ old ∈ p.oldKinds) := by
  have hiff := mirrors_take_iff sound_empty mirrors_empty (changes {} operations)
  refine ⟨hiff, fun horderly => ?_⟩
  intro r
  have htables : r.tables = ((changes {} operations).foldl Change.after {}).tables := tables_operations {} operations
  have hsound : r.Sound := by
    rw [← sound_tables, htables, sound_tables]
    exact sound_foldl_after sound_empty _
  have hmirrors : r.Mirrors := by
    have hlast := hiff.2 horderly (changes {} operations).length
    rwa [take_length, ← mirrors_tables, ← htables, mirrors_tables] at hlast
  exact ⟨hmirrors.find?_iff, hmirrors.mem_of_old, fun old kind hr => hmirrors.resolve hsound hr⟩

/-- The standard plugins are loaded, and each kind leads to the plugin that has it. -/
theorem standard_mirrors : Orderly {} (changes {} [.load Entry.standard none]) ∧
    ∀ kind p, (load {} Entry.standard none).1.find? kind = some p ↔
      p ∈ (load {} Entry.standard none).1.plugins.map (·.2) ∧ p.kind = kind := by
  have horderly : Orderly {} (changes {} [.load Entry.standard none]) := by
    rw [changes, changes, append_nil]
    exact orderly_loadChanges sound_empty mirrors_empty none (by decide) fun _ _ => rfl
  exact ⟨horderly, ((mirrors_all_along_iff [.load Entry.standard none]).2 horderly).1⟩

namespace Namesakes

def plugin (kind : String) : Plugin where
  name := "namesake"
  kind := kind
  module := kind
  oldKinds := ["old " ++ kind]
  behaviour := .custom {}

def both : Registry :=
  (load {} (["x", "y"].map fun kind => { name := kind, module := kind, offer := .plugin (plugin kind) }) none).1

end Namesakes

/-- The plugin that lost its name is still found by its kind, but no plugin of the table has that kind. -/
theorem replaced_plugin_is_found :
    (Namesakes.both.find? "x").isSome = true ∧ Namesakes.both.resolve "old x" = ("x", true) ∧
    (∀ p ∈ Namesakes.both.plugins.map (·.2), p.kind ≠ "x") ∧ ¬ Namesakes.both.Mirrors := by
  have hfound : (Namesakes.both.find? "x").isSome = true := by decide
  have hkinds : ∀ p ∈ Namesakes.both.plugins.map (·.2), p.kind ≠ "x" := by decide
  refine ⟨hfound, by decide, hkinds, fun h => ?_⟩
  obtain ⟨p, hp⟩ := Option.isSome_iff_exists.1 hfound
  obtain ⟨hmem, hkind⟩ := (h.find?_iff "x" p).1 hp
  exact hkinds p hmem hkind

end Transclude.Registry
