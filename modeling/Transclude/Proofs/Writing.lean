import Transclude.Proofs.Ways

/-!
# What writing leaves as it is

Writing a file changes one place of a disk, and making folders only puts folders where there was nothing. So a
disk on which some files were written extends the earlier one: all folders and all other files are still there
(`Disk.Extends`), and what could be read can be read alike.
-/

namespace Transclude

open List Except

/-! ## Tables -/

section Tables

variable {α β : Type} [BEq α] [LawfulBEq α] {table : List (α × β)} {key k : α} {value : β}

theorem lookup_eq_some_of_mem (hnodup : (table.map (·.1)).Nodup) (h : (key, value) ∈ table) :
    table.lookup key = some value := by
  obtain ⟨before, rest, rfl⟩ := append_of_mem h
  refine lookup_eq_some_iff.2 ⟨before, rest, rfl, fun x hx => bne_iff_ne.2 ?_⟩
  rintro rfl
  rw [map_append, nodup_append] at hnodup
  exact hnodup.2.2 x.1 (mem_map_of_mem hx) x.1 mem_cons_self rfl

def assigned (table : List (α × β)) (key : α) (value : β) : List (α × β) :=
  if table.any (·.1 == key) then table.map fun e => if e.1 == key then (key, value) else e
  else table ++ [(key, value)]

theorem lookup_map_set : (table.map fun e => if e.1 == key then (key, value) else e).lookup k =
    if k == key then (table.lookup key).map fun _ => value else table.lookup k := by
  induction table with
  | nil => simp
  | cons e table ih =>
    obtain ⟨a, b⟩ := e
    rw [map_cons, lookup_cons, lookup_cons]
    by_cases ha : a = key
    · subst ha
      by_cases hk : k = a
      · simp [hk]
      · simp [lookup_cons, beq_false_of_ne hk, ih]
    · by_cases hk : k = key
      · subst hk
        simp [ha, beq_false_of_ne (Ne.symm ha), ih]
      · simp [lookup_cons, ha, hk, ih]

theorem lookup_assigned (table : List (α × β)) (key : α) (value : β) (k : α) :
    (assigned table key value).lookup k = if k == key then some value else table.lookup k := by
  have hkey : table.any (·.1 == key) = (table.lookup key).isSome := by
    induction table with
    | nil => rfl
    | cons e table ih =>
      rw [any_cons, ih, lookup_cons, BEq.comm]
      cases key == e.1 <;> rfl
  rw [assigned, hkey]
  cases hfound : table.lookup key with
  | some found => simp [lookup_map_set, hfound]
  | none =>
    rw [if_neg (by simp), lookup_append, lookup_cons, lookup_nil]
    by_cases hk : k = key
    · simp [hk, hfound]
    · simp [beq_false_of_ne hk]

theorem keys_assigned (table : List (α × β)) (key : α) (value : β) : (assigned table key value).map (·.1) =
    if table.any (·.1 == key) then table.map (·.1) else table.map (·.1) ++ [key] := by
  rw [assigned]
  split_ifs
  · rw [map_map]
    refine map_congr_left fun e _ => ?_
    by_cases he : e.1 = key <;> simp [he]
  · rw [map_append]
    rfl

theorem nodup_keys_assigned (h : (table.map (·.1)).Nodup) (key : α) (value : β) :
    ((assigned table key value).map (·.1)).Nodup := by
  rw [keys_assigned]
  split_ifs with hany
  · exact h
  · rw [nodup_append]
    refine ⟨h, by simp, fun k hk other hother => ?_⟩
    rw [mem_singleton.1 hother]
    exact ne_of_mem_of_not_mem hk (by simpa using hany)

end Tables

namespace Disk

variable {d d' d'' : Disk} {place q : List String} {e : Entry} {written written' : List (List String)} {path s : String}
  {p : Path}

/-! ## Putting an entry -/

def keys (d : Disk) : List (List String) := d.entries.map (·.1)

theorem put_eq (d : Disk) (place : List String) (e : Entry) :
    d.put place e = { d with entries := assigned d.entries place e } := by
  rw [put, assigned]
  split_ifs <;> rfl

theorem entry?_of_ne_nil (d : Disk) (hq : q ≠ []) : d.entry? q = d.entries.lookup q := by
  rw [ entry?, if_neg (by simpa using hq)]

theorem entry?_put (d : Disk) (hplace : place ≠ []) (e : Entry) (q : List String) :
    Disk.entry? (d.put place e) q = if q = place then some e else d.entry? q := by
  by_cases hnil : q = []
  · subst hnil
    rw [if_neg (Ne.symm hplace)]
    rfl
  · rw [entry?_of_ne_nil _ hnil, entry?_of_ne_nil _ hnil, put_eq, lookup_assigned]
    simp only [beq_iff_eq]

/-! ## Disks that hold more -/

/-- A disk has all that an earlier one has, apart from the files at some places, and no others. -/
structure Extends (written : List (List String)) (d d' : Disk) : Prop where
  folder : d'.folder = d.folder
  folders : ∀ place, d.isFolderAt place = true → d'.isFolderAt place = true
  files : ∀ place ∉ written, ∀ bytes, d.entry? place = some (.file bytes) ↔ d'.entry? place = some (.file bytes)
  keys : d.keys <+: d'.keys
  nodup : d.keys.Nodup → d'.keys.Nodup

theorem extends_refl (d : Disk) (written : List (List String)) : Extends written d d :=
  ⟨rfl, fun _ h => h, fun _ _ _ => Iff.rfl, prefix_rfl, id⟩

theorem Extends.trans (h : Extends written d d') (h' : Extends written d' d'') : Extends written d d'' where
  folder := h'.folder.trans h.folder
  folders place hplace := h'.folders place (h.folders place hplace)
  files place hplace bytes := (h.files place hplace bytes).trans (h'.files place hplace bytes)
  keys := h.keys.trans h'.keys
  nodup hnodup := h'.nodup (h.nodup hnodup)

theorem Extends.mono (h : Extends written d d') (hsub : written ⊆ written') : Extends written' d d' :=
  { h with files := fun place hplace => h.files place (mt (@hsub place) hplace) }

theorem nodup_keys_put (hnodup : d.keys.Nodup) : (d.put place e).keys.Nodup := by
  rw [put_eq]
  exact nodup_keys_assigned hnodup place e

theorem prefix_keys_put (d : Disk) (place : List String) (e : Entry) : d.keys <+: (d.put place e).keys := by
  rw [put_eq, keys, keys, keys_assigned]
  split_ifs
  · exact prefix_rfl
  · exact prefix_append _ _

theorem ne_nil_of_isFolderAt (h : d.isFolderAt place = false) : place ≠ [] := by
  rintro rfl
  cases h

theorem extends_put_file (h : d.isFolderAt place = false) (bytes : ByteArray) :
    Extends [place] d (d.put place (.file bytes)) where
  folder := by rw [put_eq]
  folders q hq := by
    have hne : q ≠ place := by
      rintro rfl
      rw [hq] at h
      cases h
    rw [isFolderAt_iff, entry?_put d (ne_nil_of_isFolderAt h), if_neg hne]
    exact isFolderAt_iff.1 hq
  files q hq found := by rw [entry?_put d (ne_nil_of_isFolderAt h), if_neg (by simpa using hq)]
  keys := prefix_keys_put ..
  nodup := nodup_keys_put

theorem extends_put_folder (h : d.entry? place = none) : Extends [] d (d.put place .folder) := by
  have hnil : place ≠ [] := by
    rintro rfl
    cases h
  refine ⟨by rw [put_eq], fun q hq => ?_, fun q _ bytes => ?_, prefix_keys_put .., nodup_keys_put⟩
  · have hne : q ≠ place := by
      rintro rfl
      rw [isFolderAt_iff, h] at hq
      cases hq
    rw [isFolderAt_iff, entry?_put d hnil, if_neg hne]
    exact isFolderAt_iff.1 hq
  · rw [entry?_put d hnil]
    split_ifs with hq
    · rw [hq, h]
      simp
    · rfl

/-! ## Writing a file and making folders -/

theorem write_ok {bytes : ByteArray} (h : d.write path bytes = .ok d') :
    ∃ place, d.locate path = .ok place ∧ d.isFolderAt place = false ∧ d' = d.put place (.file bytes) := by
  rw [write] at h
  split_ifs at h with hempty hlen hlen
  · cases h
  · cases h
  · obtain ⟨place, -, h⟩ := of_bind_eq_ok h
    cases h
  · obtain ⟨place, hloc, h⟩ := of_bind_eq_ok h
    have hsuffix : (path.toList.reverse.dropWhile (· == '/')).length = path.toList.reverse.length := by
      have hle := (dropWhile_suffix (l := path.toList.reverse) (· == '/')).length_le
      simp only [length_reverse, ← String.length_toList] at hlen hle ⊢
      omega
    rw [(dropWhile_suffix _).eq_of_length hsuffix, reverse_reverse, String.ofList_toList] at hloc
    refine ⟨place, hloc, ?_⟩
    split at h
    · cases h
    · rename_i hfree
      refine ⟨?_, (Except.ok.inj h).symm⟩
      rw [Bool.eq_false_iff, ne_eq, isFolderAt_iff]
      exact hfree

theorem extends_enter {at_ next : Disk × List String} {name : String} (h : enter path at_ name = .ok next) : Extends [] at_.1 next.1 := by
  obtain ⟨found, -, h⟩ := of_bind_eq_ok h
  split at h
  · cases h
    exact extends_refl _ _
  · rename_i hnone
    cases h
    exact extends_put_folder hnone

theorem extends_makeFolders (h : d.makeFolders p = .ok d') : Extends [] d d' := by
  have hnames : ∀ (names : List String) (at_ next : Disk × List String),
      names.foldlM (enter p.text) at_ = .ok next → Extends [] at_.1 next.1 := by
    intro names
    induction names with
    | nil =>
      intro at_ next h
      cases h
      exact extends_refl _ _
    | cons name names ih =>
      intro at_ next h
      obtain ⟨middle, henter, h⟩ := of_bind_eq_ok h
      exact (extends_enter henter).trans (ih middle next h)
  obtain ⟨⟨made, place⟩, hmade, h⟩ := of_bind_eq_ok h
  have hext := hnames _ _ _ hmade
  dsimp only at h
  split at h
  · cases h
  · cases h
    exact hext

/-! ## Reading what was not written -/

/-- Whether a disk has one entry at each of its places, which are in folders and have names that texts can write. -/
structure Tidy (d : Disk) : Prop extends Grounded d where
  names : ∀ place ∈ d.keys, ∀ name ∈ place, (Path.IsName name ∧ name ≠ "..") ∧ name.utf8ByteSize ≤ maxName
  rooted : ∀ place ∈ d.keys, d.Reached place
  nodup : d.keys.Nodup

theorem mem_keys_of_entry? (hne : place ≠ []) (h : d.entry? place = some e) : place ∈ d.keys := by
  rw [entry?_of_ne_nil d hne] at h
  exact mem_map_of_mem (mem_of_lookup h)

structure Firm (d : Disk) : Prop extends Grounded d where
  short : ∀ name ∈ d.folder.parts, name.utf8ByteSize ≤ maxName

theorem Tidy.firm (hd : d.Tidy) : d.Firm := by
  refine ⟨hd.toGrounded, fun name hname => ?_⟩
  have hkeys := mem_keys_of_entry? (ne_nil_of_mem hname) (isFolderAt_iff.1 hd.isFolder)
  exact (hd.names _ hkeys name hname).2

theorem Extends.reached (h : Extends written d d') (hplace : d.Reached place) : d'.Reached place :=
  fun n hn => h.folders _ (hplace n hn)

theorem Extends.grounded (h : Extends written d d') (hd : d.Grounded) : d'.Grounded where
  canonical := by
    rw [h.folder]
    exact hd.canonical
  reached := by
    rw [h.folder]
    exact h.reached hd.reached
  isFolder := by
    rw [h.folder]
    exact h.folders _ hd.isFolder

theorem Extends.firm (h : Extends written d d') (hd : d.Firm) : d'.Firm :=
  ⟨h.grounded hd.toGrounded, h.folder ▸ hd.short⟩

theorem Extends.locate (h : Extends written d d') (hloc : d.locate s = .ok place) : d'.locate s = .ok place :=
  locate_of_way h.folder (fun p _ => h.folders p) hloc

theorem Extends.isFile_eq (h : Extends written d d') (hd : d.Grounded) (hs : d.isFile s = true)
    (hplace : (Path.resolve d.folder (.ofText s)).parts ∉ written) :
    d'.isFile s = d.isFile s ∧ (d.isFile s = true →
      d'.bytes s = d.bytes s ∧ d'.bytes (Path.ofText s).text = d.bytes (Path.ofText s).text) := by
  obtain ⟨place, found, hloc, -⟩ := isFile_iff.1 hs
  obtain rfl := (hd.locate hloc).2
  refine isFile_congr fun q bytes => ?_
  constructor
  · rintro ⟨hq, hbytes⟩
    obtain rfl := (hd.locate hq).2
    exact ⟨h.locate hq, (h.files _ hplace bytes).1 hbytes⟩
  · rintro ⟨hq, hbytes⟩
    obtain rfl : _ = q := Except.ok.inj ((h.locate hloc).symm.trans hq)
    exact ⟨hloc, (h.files _ hplace bytes).2 hbytes⟩

theorem Extends.isFile_text (h : Extends written d d') (hd : d.Tidy) (hp : p.Canonical) (hplace : p.parts ∉ written) :
    d'.isFile p.text = d.isFile p.text ∧ (d.isFile p.text = true → d'.bytes p.text = d.bytes p.text ∧
        d'.bytes (Path.ofText p.text).text = d.bytes (Path.ofText p.text).text) := by
  have hend (e : Disk) (he : e.Grounded) {q : List String} (hloc : e.locate p.text = .ok q) : q = p.parts := by
    rw [(he.locate hloc).2, Path.ofText_text hp.clean, hp.resolve_eq]
  refine isFile_congr fun q bytes => ?_
  constructor
  · rintro ⟨hloc, hbytes⟩
    obtain rfl := hend d hd.toGrounded hloc
    exact ⟨h.locate hloc, (h.files _ hplace bytes).1 hbytes⟩
  · rintro ⟨hloc, hbytes⟩
    obtain rfl := hend d' (h.grounded hd.toGrounded) hloc
    replace hbytes := (h.files _ hplace bytes).2 hbytes
    have hne : p.parts ≠ [] := by
      intro hnil
      rw [hnil] at hbytes
      cases hbytes
    -- what the disk has is in folders, so that the path leads there without those that were made
    have hkey := mem_keys_of_entry? hne hbytes
    refine ⟨hd.locate_of_reached hp (fun name hname => (hd.names _ hkey name hname).2) ?_ (hd.rooted _ hkey), hbytes⟩
    exact utf8ByteSize_le_of_locate hloc

end Disk

end Transclude
