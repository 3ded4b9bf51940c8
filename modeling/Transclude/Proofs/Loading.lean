import Transclude.Proofs.Indices

/-!
# Which plugins are loaded

Entries are tried one after another, the first one of each module, if its module is enabled. An entry is left out, or
rejected for one reason, or its plugin is the first one of its kind and serves that kind (`load_first_wins`).
-/

namespace Transclude

open List Entry

def Entry.isEnabled (enabled : Option (List String)) (e : Entry) : Bool := enabled.all (·.contains e.module)

def Entry.offered? (kind : String) (e : Entry) : Option Plugin :=
  match e.offer with
  | .plugin p => if p.kind = kind then some p else none
  | .failing _ => none
  | .incomplete _ => none

def Entry.record (e : Entry) : String × String := (e.name, e.module)

namespace Registry

variable {kind : String} {at_ : Registry × List Rejection}

inductive Fate where
  | skipped (record : String × String)
  | rejected (why : Rejection)
  | served (p : Plugin)

def Fate.record? : Fate → Option (String × String)
  | .skipped record => some record
  | .rejected _ => none
  | .served _ => none

def Fate.rejection? : Fate → Option Rejection
  | .skipped _ => none
  | .rejected why => some why
  | .served _ => none

def firstOffered (enabled : Option (List String)) (kind : String) (entries : List Entry) : Option Plugin :=
  (entries.filter (·.isEnabled enabled)).findSome? (·.offered? kind)

def fate (enabled : Option (List String)) (before : List Entry) (e : Entry) : Fate :=
  if e.isEnabled enabled then
    match e.offer with
    | .failing reason => .rejected (.failed e.name reason)
    | .incomplete missing => .rejected (.incomplete e.name missing)
    | .plugin p =>
      match firstOffered enabled p.kind before with
      | some other => .rejected (.duplicate p.name p.kind other.name)
      | none => .served p
  else .skipped e.record

def fates (enabled : Option (List String)) (before : List Entry) : List Entry → List Fate
  | [] => []
  | e :: rest => fate enabled before e :: fates enabled (before ++ [e]) rest

/-! ## The first entry of each module -/

theorem sublist_firstOfModules (seen : List String) (entries : List Entry) :
    (firstOfModules seen entries).Sublist entries := by
  induction entries generalizing seen with
  | nil => exact .slnil
  | cons e rest ih =>
    rw [firstOfModules]
    split
    · exact (ih seen).cons e
    · exact (ih _).cons_cons e

theorem find?_firstOfModules (seen : List String) (entries : List Entry) (module : String) :
    (firstOfModules seen entries).find? (·.module == module) =
      if module ∈ seen then none else entries.find? (·.module == module) := by
  induction entries generalizing seen with
  | nil => simp [firstOfModules]
  | cons e rest ih =>
    rw [firstOfModules]
    by_cases hseen : e.module ∈ seen
    · rw [if_pos (by simpa using hseen), ih]
      by_cases hmodule : e.module = module
      · rw [if_pos (hmodule ▸ hseen), if_pos (hmodule ▸ hseen)]
      · rw [List.find?_cons_of_neg (by simpa using hmodule)]
    · rw [if_neg (by simpa using hseen)]
      by_cases hmodule : e.module = module
      · rw [List.find?_cons_of_pos (by simpa using hmodule), List.find?_cons_of_pos (by simpa using hmodule),
          if_neg (hmodule ▸ hseen)]
      · rw [List.find?_cons_of_neg (by simpa using hmodule), List.find?_cons_of_neg (by simpa using hmodule), ih]
        simp [Ne.symm hmodule]

theorem nodup_firstOfModules (seen : List String) (entries : List Entry) :
    ((firstOfModules seen entries).map (·.module)).Nodup := by
  induction entries generalizing seen with
  | nil => exact nodup_nil
  | cons e rest ih =>
    rw [firstOfModules]
    split
    · exact ih seen
    · rw [map_cons, nodup_cons]
      refine ⟨fun hmem => ?_, ih _⟩
      -- a later entry of the module would be found, though the module was seen
      obtain ⟨e', he', hmodule⟩ := mem_map.1 hmem
      have hnone := find?_firstOfModules (e.module :: seen) rest e.module
      rw [if_pos mem_cons_self, List.find?_eq_none] at hnone
      exact hnone e' he' (by simpa using hmodule)

/-! ## One entry after another -/

variable {enabled : Option (List String)} {before : List Entry} {r : Registry} {e : Entry} {p : Plugin}

theorem firstOffered_concat (enabled : Option (List String)) (kind : String) (before : List Entry) (e : Entry) :
    firstOffered enabled kind (before ++ [e]) =
      (firstOffered enabled kind before).or (if e.isEnabled enabled then e.offered? kind else none) := by
  rw [firstOffered, firstOffered]
  by_cases he : e.isEnabled enabled = true <;> simp [he]

theorem fates_append (enabled : Option (List String)) (before first second : List Entry) :
    fates enabled before (first ++ second) = fates enabled before first ++ fates enabled (before ++ first) second := by
  induction first generalizing before with
  | nil => simp [fates]
  | cons e first ih => simp [fates, ih]

theorem length_fates (enabled : Option (List String)) (before entries : List Entry) :
    (fates enabled before entries).length = entries.length := by
  induction entries generalizing before with
  | nil => rfl
  | cons e entries ih => rw [fates, length_cons, ih, length_cons]

theorem fates_concat (enabled : Option (List String)) (before : List Entry) (e : Entry) :
    fates enabled [] (before ++ [e]) = fates enabled [] before ++ [fate enabled before e] :=
  fates_append enabled [] before [e]

def Serves (enabled : Option (List String)) (before : List Entry) (r : Registry) : Prop :=
  ∀ kind, r.find? kind = firstOffered enabled kind before

theorem Serves.concat_of_none (h : Serves enabled before r)
    (hnone : ∀ kind, e.isEnabled enabled → firstOffered enabled kind before = none → e.offered? kind = none) :
    Serves enabled (before ++ [e]) r := by
  intro kind
  rw [firstOffered_concat, h kind]
  cases hfirst : firstOffered enabled kind before with
  | some other => rfl
  | none =>
    split_ifs with he
    · exact (hnone kind he hfirst).symm
    · rfl

theorem Serves.register (h : Serves enabled before r) (he : e.isEnabled enabled) :
    Serves enabled (before ++ [e]) (r.register e).1 := by
  rw [Registry.register]
  cases hoffer : e.offer with
  | failing reason => exact h.concat_of_none fun kind _ _ => by rw [offered?, hoffer]
  | incomplete missing => exact h.concat_of_none fun kind _ _ => by rw [offered?, hoffer]
  | plugin p =>
    dsimp only
    cases hfound : r.find? p.kind with
    | some other =>
      refine h.concat_of_none fun kind _ hfirst => ?_
      have hkind : p.kind ≠ kind := by
        rintro rfl
        cases hfound.symm.trans ((h p.kind).trans hfirst)
      simp only [offered?, hoffer, if_neg hkind]
    | none =>
      intro kind
      simp only [find?_put, firstOffered_concat, if_pos he, offered?, hoffer]
      by_cases hkind : kind = p.kind
      · rw [if_pos hkind, if_pos hkind.symm, hkind, ← h p.kind, hfound, Option.none_or]
      · rw [if_neg hkind, if_neg (Ne.symm hkind), h kind, Option.or_none]

theorem register_rejections (h : Serves enabled before r) (he : e.isEnabled enabled) :
    (r.register e).2 = (fate enabled before e).rejection?.toList ∧ (fate enabled before e).record? = none := by
  rw [register, fate, if_pos he]
  cases e.offer with
  | failing reason => exact ⟨rfl, rfl⟩
  | incomplete missing => exact ⟨rfl, rfl⟩
  | plugin p =>
    simp only [← h p.kind]
    cases r.find? p.kind with
    | some other => exact ⟨rfl, rfl⟩
    | none => exact ⟨rfl, rfl⟩

theorem register_records (r : Registry) (e : Entry) :
    (r.register e).1.discovered = r.discovered ∧ (r.register e).1.skipped = r.skipped := by
  rw [register]
  cases e.offer with
  | failing reason => exact ⟨rfl, rfl⟩
  | incomplete missing => exact ⟨rfl, rfl⟩
  | plugin p =>
    dsimp only
    cases r.find? p.kind with
    | some other => exact ⟨rfl, rfl⟩
    | none => exact ⟨rfl, rfl⟩

/-- What is there after some entries: the kinds are served by their first plugins, and the records and rejections are
those of the entries' fates. -/
structure Loaded (enabled : Option (List String)) (before : List Entry) (at_ : Registry × List Rejection) : Prop where
  serves : Serves enabled before at_.1
  discovered : at_.1.discovered = before.map record
  skipped : at_.1.skipped = (fates enabled [] before).filterMap Fate.record?
  rejections : at_.2 = (fates enabled [] before).filterMap Fate.rejection?

theorem Loaded.next (h : Loaded enabled before at_) (e : Entry) :
    Loaded enabled (before ++ [e]) (loadOne enabled at_ e) := by
  obtain ⟨r, rejections⟩ := at_
  have hany : enabled.any (!·.contains e.module) = !e.isEnabled enabled := by cases enabled <;> simp [isEnabled]
  have hserves : Serves enabled before { r with discovered := r.discovered ++ [e.record] } := h.serves
  have hdisc : r.discovered ++ [e.record] = (before ++ [e]).map record := by
    rw [show r.discovered = _ from h.discovered, map_append, map_singleton]
  rw [loadOne, hany]
  by_cases he : e.isEnabled enabled = true
  · rw [he]
    obtain ⟨hrejections, hrecord⟩ := register_rejections hserves he
    obtain ⟨hdisc', hskipped'⟩ := register_records { r with discovered := r.discovered ++ [e.record] } e
    refine ⟨hserves.register he, hdisc'.trans hdisc, ?_, ?_⟩
    · rw [fates_concat, filterMap_append, filterMap_cons_none hrecord, filterMap_nil, append_nil]
      exact hskipped'.trans h.skipped
    · rw [fates_concat, filterMap_append, ← h.rejections]
      refine congrArg (rejections ++ ·) (hrejections.trans ?_)
      cases hfate : (fate enabled before e).rejection? <;> simp [hfate]
  · have hfate : fate enabled before e = .skipped e.record := if_neg he
    rw [Bool.not_eq_true] at he
    rw [he]
    refine ⟨hserves.concat_of_none fun kind he' _ => ?_, hdisc, ?_, ?_⟩
    · cases he.symm.trans he'
    · rw [fates_concat, filterMap_append, ← h.skipped, hfate]
      rfl
    · rw [fates_concat, filterMap_append, ← h.rejections, hfate]
      exact (append_nil rejections).symm

theorem Loaded.foldl (h : Loaded enabled before at_) (entries : List Entry) :
    Loaded enabled (before ++ entries) (entries.foldl (loadOne enabled) at_) := by
  induction entries generalizing before at_ with
  | nil => rwa [append_nil]
  | cons e entries ih =>
    rw [append_cons]
    exact ih (h.next e)

theorem loaded_load (entries : List Entry) (enabled : Option (List String)) :
    Loaded enabled (firstOfModules [] entries) (load {} entries enabled) := by
  have hempty : Loaded enabled [] ({}, []) := ⟨fun _ => rfl, rfl, rfl, rfl⟩
  exact hempty.foldl (firstOfModules [] entries)

/-! ## Who serves a kind -/

theorem offered?_eq_some_iff : e.offered? kind = some p ↔ e.offer = .plugin p ∧ p.kind = kind := by
  rw [offered?]
  cases e.offer with
  | failing reason => simp
  | incomplete missing => simp
  | plugin q =>
    simp only [Option.ite_none_right_eq_some, Option.some.injEq, Offer.plugin.injEq]
    exact ⟨fun h => ⟨h.2, h.2 ▸ h.1⟩, fun h => ⟨h.1 ▸ h.2, h.1⟩⟩

theorem fate_eq_served_iff : fate enabled before e = .served p ↔
    e.isEnabled enabled ∧ e.offer = .plugin p ∧ firstOffered enabled p.kind before = none := by
  rw [fate]
  split_ifs with he
  · cases e.offer with
    | failing reason => simp
    | incomplete missing => simp
    | plugin q =>
      dsimp only
      cases hfirst : firstOffered enabled q.kind before with
      | some other =>
        simp only [reduceCtorEq, Offer.plugin.injEq, false_iff]
        rintro ⟨-, rfl, hnone⟩
        cases hfirst.symm.trans hnone
      | none =>
        simp only [Fate.served.injEq, he, Offer.plugin.injEq, true_and]
        exact ⟨fun h => ⟨h, h ▸ hfirst⟩, fun h => h.1⟩
  · simp [he]

theorem firstOffered_concat_iff : firstOffered enabled kind (before ++ [e]) = some p ↔
    firstOffered enabled kind before = some p ∨ (p.kind = kind ∧ fate enabled before e = .served p) := by
  rw [firstOffered_concat, fate_eq_served_iff]
  cases hfirst : firstOffered enabled kind before with
  | some other =>
    refine (or_iff_left ?_).symm
    rintro ⟨rfl, -, -, hnone⟩
    cases hfirst.symm.trans hnone
  | none =>
    simp only [Option.none_or, Option.ite_none_right_eq_some, offered?_eq_some_iff, reduceCtorEq, false_or]
    constructor
    · rintro ⟨he, hoffer, rfl⟩
      exact ⟨rfl, he, hoffer, hfirst⟩
    · rintro ⟨hkind, he, hoffer, -⟩
      exact ⟨he, hoffer, hkind⟩

theorem firstOffered_append_iff (entries : List Entry) : firstOffered enabled kind (before ++ entries) = some p ↔
      firstOffered enabled kind before = some p ∨ (p.kind = kind ∧ .served p ∈ fates enabled before entries) := by
  induction entries generalizing before with
  | nil => simp [fates]
  | cons e entries ih =>
    rw [append_cons, ih, firstOffered_concat_iff, fates, mem_cons, or_assoc, ← and_or_left,
      eq_comm (a := Fate.served p)]

theorem firstOffered_eq_some_iff {entries : List Entry} :
    firstOffered enabled kind entries = some p ↔ p.kind = kind ∧ .served p ∈ fates enabled [] entries := by
  rw [← nil_append entries, firstOffered_append_iff]
  exact or_iff_right fun h => by cases h

/-- Loading keeps the first entry of each module, and among them those of enabled modules. A kind is served by the
first of these that offers a plugin of the kind. Every entry that is kept has one fate: it is recorded as left out, or
it has one rejection, or its plugin is the one that serves its kind. -/
theorem load_first_wins (entries : List Entry) (enabled : Option (List String)) :
    let kept := firstOfModules [] entries
    let r := (load {} entries enabled).1
    (kept.Sublist entries ∧ (kept.map (·.module)).Nodup ∧
      ∀ module, kept.find? (·.module == module) = entries.find? (·.module == module)) ∧
    (∀ kind, r.find? kind = (kept.filter (·.isEnabled enabled)).findSome? (·.offered? kind)) ∧
    r.discovered = kept.map Entry.record ∧
    (fates enabled [] kept).length = kept.length ∧
    r.skipped = (fates enabled [] kept).filterMap Fate.record? ∧
    (load {} entries enabled).2 = (fates enabled [] kept).filterMap Fate.rejection? ∧
    ∀ p, r.find? p.kind = some p ↔ .served p ∈ fates enabled [] kept := by
  have h := loaded_load entries enabled
  refine ⟨⟨sublist_firstOfModules [] entries, nodup_firstOfModules [] entries, fun module => ?_⟩, h.serves,
    h.discovered, ?_, h.skipped, h.rejections, fun p => ?_⟩
  · simpa using find?_firstOfModules [] entries module
  · exact length_fates enabled [] _
  · refine (Eq.congr_left (h.serves p.kind)).trans ?_
    rw [firstOffered_eq_some_iff, eq_self_iff_true, true_and]

end Registry

end Transclude
