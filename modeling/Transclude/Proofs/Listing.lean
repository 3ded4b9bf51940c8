import Transclude.Proofs.Writing
import Mathlib.Data.List.Sort

/-!
# Listing folders

The files that a folder or a pattern stands for are the documents in its base folder, or at any depth below it: a search
goes as deep as there are entries, so that it comes to its end. They are listed in order, each once, and depend on
nothing but what is in the base folder.
-/

namespace Transclude

open List Path Text Bool

namespace Text

variable {s : String} {ss : List String}

theorem perm_insertText (s : String) (ss : List String) : (insertText s ss).Perm (s :: ss) := by
  induction ss with
  | nil => exact .refl _
  | cons t ts ih =>
    rw [insertText]
    split_ifs
    · exact .refl _
    · exact (ih.cons t).trans (.swap s t ts)

theorem perm_sortTexts (ss : List String) : (sortTexts ss).Perm ss := by
  induction ss with
  | nil => exact .refl _
  | cons s ss ih => exact (perm_insertText s _).trans (ih.cons s)

theorem lessEq_iff {t : String} : lessEq s t = true ↔ s ≤ t := by
  rw [lessEq, not_eq_true', decide_eq_false_iff_not, String.not_lt]

theorem pairwise_insertText (h : ss.Pairwise (· ≤ ·)) : (insertText s ss).Pairwise (· ≤ ·) := by
  induction ss with
  | nil => exact pairwise_singleton _ s
  | cons t ts ih =>
    obtain ⟨ht, hts⟩ := pairwise_cons.1 h
    rw [insertText]
    split_ifs with hle
    · rw [lessEq_iff] at hle
      exact pairwise_cons.2 ⟨forall_mem_cons.2 ⟨hle, fun u hu => String.le_trans hle (ht u hu)⟩, h⟩
    · refine pairwise_cons.2 ⟨fun u hu => ?_, ih hts⟩
      rcases mem_cons.1 ((perm_insertText s ts).mem_iff.1 hu) with rfl | hu
      · exact (String.le_total t u).resolve_right (mt lessEq_iff.2 hle)
      · exact ht u hu

theorem pairwise_sortTexts (ss : List String) : (sortTexts ss).Pairwise (· ≤ ·) := by
  induction ss with
  | nil => exact .nil
  | cons s ss ih => exact pairwise_insertText ih

theorem pairwise_lt_sortTexts (h : ss.Nodup) : (sortTexts ss).Pairwise (· < ·) := by
  refine (pairwise_sortTexts ss).imp₂ (fun s t hle hne => ?_) ((perm_sortTexts ss).nodup_iff.2 h)
  rw [← String.not_le]
  exact fun hge => hne (String.le_antisymm hle hge)

end Text

namespace Disk

variable {d d' : Disk} {place base files names : List String} {p q : Path} {name input s : String} {depth : Nat}
  {written : List (List String)} {foldersOnly : Bool}

/-! ## Names of entries -/

theorem mem_names : name ∈ d.names place ↔ place ++ [name] ∈ d.keys := by
  rw [Disk.names, (perm_sortTexts _).mem_iff, mem_filterMap, keys, mem_map]
  constructor
  · rintro ⟨e, he, hname⟩
    split_ifs at hname with hplace
    simp only [and_eq_true, not_eq_true', isEmpty_eq_false_iff, beq_iff_eq] at hplace
    refine ⟨e, he, ?_⟩
    rw [← hplace.2]
    exact (dropLast_append_getLast? name hname).symm
  · rintro ⟨e, he, hkey⟩
    refine ⟨e, he, ?_⟩
    rw [hkey]
    simp

theorem nodup_names (hd : d.keys.Nodup) (place : List String) : (d.names place).Nodup := by
  have hfilt : (d.keys.filterMap fun key =>
      if !key.isEmpty && key.dropLast == place then key.getLast? else none).Nodup := by
    refine hd.filterMap fun key key' last hlast hlast' => ?_
    split_ifs at hlast hlast' with hkey hkey'
    · simp only [and_eq_true, beq_iff_eq] at hkey hkey'
      rw [← dropLast_append_getLast? last hlast, ← dropLast_append_getLast? last hlast', hkey.2, hkey'.2]
    all_goals simp at hlast hlast'
  rw [Disk.names, (perm_sortTexts _).nodup_iff]
  rw [keys, filterMap_map] at hfilt
  exact hfilt

theorem mem_list (h : name ∈ d.list p.text foldersOnly) : ∃ place, d.locate p.text = .ok place ∧ place ++ [name] ∈ d.keys := by
  simp only [list, text_ne_empty, false_eq_true, if_false] at h
  split at h
  · cases h
  · rename_i place hloc
    split_ifs at h
    · exact ⟨place, hloc, mem_names.1 (mem_filter.1 h).1⟩
    · cases h

/-! ## Paths below a path -/

def Proper (name : String) : Prop := Path.IsName name ∧ name ≠ ".."

def child (p : Path) (names : List String) : Path := { p with parts := p.parts ++ names }

theorem clean_child (hp : p.Clean) (hnames : ∀ n ∈ names, Proper n) : (child p names).Clean :=
  ⟨hp.root, forall_mem_append.2 ⟨hp.names, fun n hn => (hnames n hn).1⟩⟩

theorem child_nil (p : Path) : child p [] = p := by simp [child]

theorem child_append (p : Path) (xs ys : List String) : child p (xs ++ ys) = child (child p xs) ys := by simp [child]

theorem utf8ByteSize_child_le (hp : p.Clean) (hnames : ∀ n ∈ names, Proper n) :
    p.text.utf8ByteSize ≤ (child p names).text.utf8ByteSize := by
  cases names with
  | nil => exact Nat.le_of_eq (by rw [child_nil])
  | cons n names =>
    refine utf8ByteSize_text_le hp (by simpa using text_ne_empty (child p (n :: names))) ?_
    rw [toList_text (clean_child hp hnames) (by simp [child])]
    exact (joinWith_sublist _ ((sublist_append_left ..).map _)).append_left _

/-- The place that a path leads to, if it leads anywhere. -/
def goal (d : Disk) (p : Path) : List String := p.parts.foldl after (origin d.folder p)

theorem goal_of_locate (hd : d.Grounded) (hp : p.Clean) (h : d.locate p.text = .ok place) : d.goal p = place := by
  rw [locate_text (hd.at_origin p).2 hp] at h
  split_ifs at h
  exact foldl_after_of_foldlM h

theorem goal_child (d : Disk) (p : Path) (h : ∀ n ∈ names, Proper n) : d.goal (child p names) = d.goal p ++ names := by
  induction names generalizing p with
  | nil => rw [child_nil, append_nil]
  | cons n names ih =>
    rw [forall_mem_cons] at h
    have hstep : d.goal (child p [n]) = d.goal p ++ [n] := by
      rw [goal, child, foldl_append, foldl_cons, after, if_pos h.1.1.1, if_neg h.1.2]
      rfl
    rw [← singleton_append, child_append, ih _ h.2, hstep, append_assoc]

/-- Whether a disk is tidy at least below a place. -/
structure TidyBelow (base : List String) (d : Disk) : Prop extends Grounded d where
  names : ∀ place ∈ d.keys, base <+: place → ∀ name ∈ place, Proper name ∧ name.utf8ByteSize ≤ maxName
  rooted : ∀ place ∈ d.keys, base <+: place → d.Reached place

theorem Tidy.below (hd : d.Tidy) (base : List String) : d.TidyBelow base :=
  { hd with names := fun place hplace _ => hd.names place hplace, rooted := fun place hplace _ => hd.rooted place hplace }

theorem TidyBelow.further (hd : d.TidyBelow base) (names : List String) : d.TidyBelow (base ++ names) :=
  { hd with
    names := fun place hplace h => hd.names place hplace ((prefix_append ..).trans h)
    rooted := fun place hplace h => hd.rooted place hplace ((prefix_append ..).trans h) }

section

variable {more : List String} (hd : d.TidyBelow base)
include hd

theorem TidyBelow.reached_above (hkey : base ++ names ++ more ∈ d.keys) : d.Reached (base ++ names) := by
  intro n hn
  have hat := hd.rooted _ hkey (by simp [append_assoc]) n (by rw [length_append]; omega)
  rwa [take_append_of_le_length (Nat.le_of_lt hn)] at hat

theorem TidyBelow.isFolderAt_above (hkey : base ++ names ++ name :: more ∈ d.keys) :
    d.isFolderAt (base ++ names) = true := by
  have hat := hd.rooted _ hkey (by simp [append_assoc]) (base ++ names).length (by simp)
  rwa [take_left] at hat

end

/-! ## Folders below a folder -/

def countBelow (d : Disk) (place : List String) : Nat := d.keys.countP fun key => place.isPrefixOf key && key != place

theorem countBelow_lt (h : place ++ [name] ∈ d.keys) : d.countBelow (place ++ [name]) < d.countBelow place := by
  have himp : ∀ key ∈ d.keys, ((place ++ [name]).isPrefixOf key && key != place ++ [name]) = true →
      (place.isPrefixOf key && key != place) = true := by
    simp only [and_eq_true, isPrefixOf_iff_prefix, bne_iff_ne]
    rintro key - ⟨hbelow, -⟩
    refine ⟨(prefix_append _ _).trans hbelow, ?_⟩
    rintro rfl
    have hlen := hbelow.length_le
    rw [length_append, length_singleton] at hlen
    omega
  calc d.countBelow (place ++ [name]) = (d.keys.filter fun key => place.isPrefixOf key && key != place).countP
          fun key => (place ++ [name]).isPrefixOf key && key != place ++ [name] := by
        rw [countP_filter]
        refine countP_congr fun key hkey => ?_
        rw [and_eq_true (_ && _)]
        exact ⟨fun h => ⟨h, himp key hkey h⟩, And.left⟩
    _ < (d.keys.filter fun key => place.isPrefixOf key && key != place).length := by
        rw [countP_eq_length_filter, length_filter_lt_length_iff_exists]
        exact ⟨place ++ [name], mem_filter.2 ⟨h, by simp⟩, by simp⟩
    _ = d.countBelow place := countP_eq_length_filter.symm

theorem countBelow_lt_entries (place : List String) : d.countBelow place < d.entries.length + 1 := by
  have hle : d.countBelow place ≤ d.keys.length := countP_le_length
  rw [keys, length_map] at hle
  omega

section

variable (hp : p.Clean) (hd : d.TidyBelow (d.goal p))
include hp hd

theorem of_mem_folders (h : q ∈ d.folders p depth) : ∃ names, (∀ n ∈ names, Proper n) ∧ q = child p names := by
  induction depth generalizing p with
  | zero => cases h
  | succ depth ih =>
    rcases mem_cons.1 h with rfl | h
    · exact ⟨[], forall_mem_nil _, (child_nil q).symm⟩
    · obtain ⟨n, hn, h⟩ := mem_flatMap.1 h
      obtain ⟨place, hloc, hkey⟩ := mem_list hn
      obtain rfl := goal_of_locate hd.toGrounded hp hloc
      have hname : ∀ x ∈ [n], Proper x := fun x hx => (hd.names _ hkey (prefix_append ..) x (mem_append_right _ hx)).1
      have hbelow := hd.further [n]
      rw [← goal_child d p hname] at hbelow
      obtain ⟨names, hnames, rfl⟩ := ih (clean_child hp hname) hbelow h
      exact ⟨n :: names, forall_mem_cons.2 ⟨forall_mem_singleton.1 hname, hnames⟩, (child_append p [n] names).symm⟩

variable (hloc : d.locate p.text = .ok (d.goal p))
include hloc

theorem locate_child {more : List String} (hkey : d.goal p ++ names ++ more ∈ d.keys)
    (hsize : (child p names).text.utf8ByteSize ≤ maxPath) :
    d.locate (child p names).text = .ok (d.goal p ++ names) := by
  have hnames : ∀ n ∈ names, Proper n ∧ n.utf8ByteSize ≤ maxName :=
    fun n hn => hd.names _ hkey (by simp [append_assoc]) n (by simp [hn])
  have hclean := clean_child hp fun n hn => (hnames n hn).1
  rw [locate_text (hd.at_origin p).2 hp] at hloc
  split_ifs at hloc
  have hbase := foldlM_step_filter (q := (child p names).text) hloc
  rw [filter_eq_self.2 fun n hn => (hp.names n hn).1] at hbase
  rw [locate_text (hd.at_origin _).2 hclean, if_neg (Nat.not_lt.2 hsize), child, foldlM_append]
  exact (congrArg (· >>= _) hbase).trans
    (foldlM_step_of_reached (fun n hn => (hnames n hn).1) (fun n hn => (hnames n hn).2) (hd.reached_above hkey))

theorem child_mem_folders (hdepth : d.countBelow (d.goal p) < depth) (hkey : d.goal p ++ names ++ [name] ∈ d.keys)
    (hsize : (child p names).text.utf8ByteSize ≤ maxPath) : child p names ∈ d.folders p depth := by
  induction names generalizing p depth with
  | nil =>
    obtain ⟨depth, rfl⟩ := Nat.exists_eq_add_one_of_ne_zero (Nat.ne_of_gt (Nat.zero_lt_of_lt hdepth))
    rw [child_nil]
    exact mem_cons_self
  | cons n names ih =>
    obtain ⟨depth, rfl⟩ := Nat.exists_eq_add_one_of_ne_zero (Nat.ne_of_gt (Nat.zero_lt_of_lt hdepth))
    have hproper : ∀ x ∈ n :: names, Proper x :=
      fun x hx => (hd.names _ hkey (by simp [append_assoc]) x (mem_append_left _ (mem_append_right _ hx))).1
    obtain ⟨hname, hnames⟩ := forall_mem_cons.1 hproper
    have hclean := clean_child hp (forall_mem_singleton.2 hname)
    have hgoal := goal_child d p (forall_mem_singleton.2 hname)
    rw [← singleton_append, ← append_assoc] at hkey
    rw [← singleton_append, child_append] at hsize ⊢
    have hmore : d.goal p ++ [n] ++ (names ++ [name]) ∈ d.keys := by rwa [append_assoc] at hkey
    have hplace := locate_child hp hd hloc hmore (Nat.le_trans (utf8ByteSize_child_le hclean hnames) hsize)
    have hdir : d.isFolderAt (d.goal p ++ [n]) = true := by cases names <;> exact hd.isFolderAt_above hmore
    have hmem := mem_keys_of_entry? (by simp) (isFolderAt_iff.1 hdir)
    have hbase : d.isFolderAt (d.goal p) = true := by
      have hat : d.isFolderAt (d.goal p ++ []) = true := hd.isFolderAt_above (by rwa [append_nil])
      rwa [append_nil] at hat
    have hlist : n ∈ d.list p.text true := by simp [list, text_ne_empty, hloc, hbase, mem_names.2 hmem, hdir]
    have hlt := countBelow_lt hmem
    have hbelow := hd.further [n]
    rw [← hgoal] at hkey hplace hlt hbelow
    have hless : d.countBelow (d.goal (child p [n])) < depth := by omega
    exact mem_cons_of_mem _ (mem_flatMap.2 ⟨n, hlist, ih hclean hbelow hplace hless hkey hsize⟩)

end

/-! ## Documents in folders -/

def documentPattern : String := "*.md"

def documents (d : Disk) (p : Path) : List Path :=
  ((d.list p.text false).filter (Wildcard.accepts documentPattern)).map fun name =>
    { p with parts := p.parts ++ [name] }

theorem documentPattern_isEmpty : documentPattern.isEmpty = false := by decide

theorem select_document (d : Disk) (p : Path) : d.select p [documentPattern] = d.documents p := by
  have hstars : (documentPattern == "**") = false := by decide
  have hwild : Wildcard.isWild documentPattern = true := by decide
  have hsel : d.select p [documentPattern] = (d.list p.text false).flatMap fun name =>
      if Wildcard.accepts documentPattern name then [{ p with parts := p.parts ++ [name] }] else [] := by
    simp only [select, documentPattern_isEmpty, hstars, hwild, Bool.false_eq_true, if_false, if_true, isEmpty_nil,
      Bool.not_true]
  rw [hsel, documents]
  induction d.list p.text false with
  | nil => rfl
  | cons name names ih =>
    rw [flatMap_cons, ih, filter_cons]
    split_ifs <;> rfl

theorem select_documents (d : Disk) (p : Path) : d.select p ["**", documentPattern] =
    ((d.folders p (d.entries.length + 1)).flatMap d.documents).eraseDups := by
  have hempty : "**".isEmpty = false := by decide
  rw [select]
  simp only [hempty, beq_self_eq_true, false_eq_true, if_false, if_true, select_document]

def searched (input : String) : Path :=
  if input.toList.contains '*' then (ofText input).wildcardBase else .ofText input

def found (d : Disk) (input : String) : List Path :=
  if d.isFolder (searched input).text then
    if contains ['*', '*'] input.toList then
      ((d.folders (searched input) (d.entries.length + 1)).flatMap d.documents).eraseDups
    else d.documents (searched input)
  else []

theorem listAll_eq (d : Disk) (p : Path) (deep : Bool) : d.listAll p deep documentPattern =
    .ok (if d.isFolder p.text then d.select p (if deep then ["**", documentPattern] else [documentPattern])
      else []) := by
  rw [listAll, documentPattern_isEmpty, Bool.false_and, if_neg Bool.false_ne_true]
  split_ifs <;> rfl

theorem expand_eq (d : Disk) (input : String) :
    d.expand input documentPattern = .ok (sortTexts ((d.found input).map (·.text))) := by
  have hexpand : d.expand input documentPattern = (do
      let found ← d.listAll (searched input) (contains ['*', '*'] input.toList) documentPattern
      return sortTexts (found.map (·.text))) := rfl
  rw [hexpand, listAll_eq, found]
  cases contains ['*', '*'] input.toList with
  | true => simp only [if_true, select_documents]; rfl
  | false => simp only [false_eq_true, if_false, select_document]; rfl

deriving instance ReflBEq, LawfulBEq for Path

theorem clean_searched (input : String) : (searched input).Clean := by
  have hclean := clean_ofText input
  rw [searched]
  split_ifs
  · exact ⟨hclean.root, fun name hname => hclean.names name (takeWhile_subset _ hname)⟩
  · exact hclean

theorem isFolder_iff : d.isFolder s = true ↔ ∃ place, d.locate s = .ok place ∧ d.isFolderAt place = true := by
  rw [isFolder, stat?]
  cases d.locate s with
  | error fault => simp
  | ok place => simp [isFolderAt]

/-- Whether a folder below a path has an entry that is named as a document, and the folder can be opened. -/
structure HasDocument (d : Disk) (p : Path) (names : List String) (name : String) : Prop where
  accepted : Wildcard.accepts documentPattern name = true
  entry : ∃ base, d.locate p.text = .ok base ∧ base ++ names ++ [name] ∈ d.keys
  short : (child p names).text.utf8ByteSize ≤ maxPath

theorem HasDocument.proper (h : d.HasDocument p names name)
    (hd : ∀ base, d.locate p.text = .ok base → d.TidyBelow base) : ∀ n ∈ names ++ [name], Proper n := by
  obtain ⟨base, hloc, hkey⟩ := h.entry
  rw [append_assoc] at hkey
  exact fun n hn => ((hd base hloc).names _ hkey (prefix_append ..) n (mem_append_right _ hn)).1

theorem mem_documents_iff (hp : p.Clean) (hd : d.TidyBelow (d.goal p)) (hloc : d.locate p.text = .ok (d.goal p))
    (hnames : ∀ n ∈ names, Proper n) :
    q ∈ d.documents (child p names) ↔ ∃ name, q = child p (names ++ [name]) ∧ d.HasDocument p names name := by
  simp only [documents, mem_map, mem_filter]
  constructor
  · rintro ⟨name, ⟨hname, haccepts⟩, rfl⟩
    obtain ⟨place, hplace, hkey⟩ := mem_list hname
    obtain rfl := goal_of_locate hd.toGrounded (clean_child hp hnames) hplace
    rw [goal_child d p hnames] at hkey
    exact ⟨name, (child_append ..).symm, haccepts, ⟨_, hloc, hkey⟩, utf8ByteSize_le_of_locate hplace⟩
  · rintro ⟨name, rfl, hdoc⟩
    obtain ⟨base, hbase, hkey⟩ := hdoc.entry
    obtain rfl := Except.ok.inj (hloc.symm.trans hbase)
    refine ⟨name, ⟨?_, hdoc.accepted⟩, (child_append ..).symm⟩
    simp [list, text_ne_empty, locate_child hp hd hloc hkey hdoc.short, hd.isFolderAt_above hkey, mem_names.2 hkey]

theorem mem_found_iff (hd : ∀ base, d.locate (searched input).text = .ok base → d.TidyBelow base) :
    q ∈ d.found input ↔ ∃ names name, q = child (searched input) (names ++ [name]) ∧
      d.HasDocument (searched input) names name ∧ (contains ['*', '*'] input.toList = true ∨ names = []) := by
  have hclean := clean_searched input
  constructor
  · intro hq
    rw [found] at hq
    split_ifs at hq with hdir hdeep
    · obtain ⟨base, hloc, -⟩ := isFolder_iff.1 hdir
      obtain rfl := goal_of_locate (hd _ hloc).toGrounded hclean hloc
      obtain ⟨folder, hfolder, hq⟩ := mem_flatMap.1 (mem_eraseDups.1 hq)
      obtain ⟨names, hnames, rfl⟩ := of_mem_folders hclean (hd _ hloc) hfolder
      obtain ⟨name, hname, hdoc⟩ := (mem_documents_iff hclean (hd _ hloc) hloc hnames).1 hq
      exact ⟨names, name, hname, hdoc, .inl hdeep⟩
    · obtain ⟨base, hloc, -⟩ := isFolder_iff.1 hdir
      obtain rfl := goal_of_locate (hd _ hloc).toGrounded hclean hloc
      rw [← child_nil (searched input)] at hq
      obtain ⟨name, hname, hdoc⟩ := (mem_documents_iff hclean (hd _ hloc) hloc (forall_mem_nil _)).1 hq
      exact ⟨[], name, hname, hdoc, .inr rfl⟩
    · cases hq
  · rintro ⟨names, name, rfl, hdoc, hdeep⟩
    obtain ⟨base, hloc, hkey⟩ := hdoc.entry
    have hbelow := hd base hloc
    obtain rfl := goal_of_locate hbelow.toGrounded hclean hloc
    have hmem := (mem_documents_iff hclean hbelow hloc (forall_mem_append.1 (hdoc.proper hd)).1).2 ⟨name, rfl, hdoc⟩
    have hdir : d.isFolder (searched input).text = true := by
      refine isFolder_iff.2 ⟨_, hloc, ?_⟩
      have hat := hbelow.rooted _ hkey (by simp [append_assoc]) (d.goal (searched input)).length (by simp)
      rwa [append_assoc, take_left] at hat
    rw [found, if_pos hdir]
    split_ifs with hstars
    · refine mem_eraseDups.2 (mem_flatMap.2 ⟨_, ?_, hmem⟩)
      exact child_mem_folders hclean hbelow hloc (countBelow_lt_entries _) hkey hdoc.short
    · obtain rfl := hdeep.resolve_left hstars
      rwa [child_nil] at hmem

theorem nodup_documents (hd : d.keys.Nodup) (p : Path) : (d.documents p).Nodup := by
  have hlist : (d.list p.text false).Nodup := by
    simp only [list, text_ne_empty, false_eq_true, if_false]
    split
    · exact nodup_nil
    · split_ifs
      · exact (nodup_names hd _).filter _
      · exact nodup_nil
  refine (hlist.filter _).map fun name name' h => ?_
  simpa using congrArg parts h

theorem nodup_eraseDups {α : Type} [BEq α] [LawfulBEq α] : (l : List α) → l.eraseDups.Nodup
  | [] => nodup_nil
  | a :: l => by
    rw [eraseDups_cons]
    refine nodup_cons.2 ⟨fun h => ?_, nodup_eraseDups _⟩
    simpa using mem_eraseDups.1 h
termination_by l => l.length
decreasing_by exact Nat.lt_succ_of_le (length_filter_le _ _)

theorem nodup_found (hd : d.keys.Nodup) (input : String) : (d.found input).Nodup := by
  rw [found]
  split_ifs
  · exact nodup_eraseDups _
  · exact nodup_documents hd _
  · exact nodup_nil

theorem isFolder_of_expand (h : d.expand input documentPattern = .ok files) (hne : files ≠ []) : d.isFolder (searched input).text = true := by
  rw [expand_eq, found] at h
  split_ifs at h with hdir
  · exact hdir
  · exact hdir
  · refine absurd (Except.ok.inj h).symm ?_
    simpa [sortTexts] using hne

/-- The documents in the folder that is searched, or at any depth below it, in the order of their texts. -/
theorem expand_listed (hd : ∀ base, d.locate (searched input).text = .ok base → d.TidyBelow base)
    (hkeys : d.keys.Nodup) : ∃ files, d.expand input documentPattern = .ok files ∧ files.Pairwise (· < ·) ∧
      ∀ file, file ∈ files ↔ ∃ names name, file = (child (searched input) (names ++ [name])).text ∧
        d.HasDocument (searched input) names name ∧ (contains ['*', '*'] input.toList = true ∨ names = []) := by
  have hfound : ∀ q ∈ d.found input, q.Clean := by
    intro q hq
    obtain ⟨names, name, rfl, hdoc, -⟩ := (mem_found_iff hd).1 hq
    exact clean_child (clean_searched input) (hdoc.proper hd)
  refine ⟨_, expand_eq d input, pairwise_lt_sortTexts ?_, fun file => ?_⟩
  · refine (nodup_found hkeys input).map_on fun q hq q' hq' htext => ?_
    rw [← ofText_text (hfound q hq), ← ofText_text (hfound q' hq'), htext]
  · rw [(perm_sortTexts _).mem_iff, mem_map]
    simp only [mem_found_iff hd]
    constructor
    · rintro ⟨q, ⟨names, name, rfl, hdoc⟩, rfl⟩
      exact ⟨names, name, rfl, hdoc⟩
    · rintro ⟨names, name, rfl, hdoc⟩
      exact ⟨_, ⟨names, name, rfl, hdoc⟩, rfl⟩

/-! ## Listing again -/

theorem expand_unchanged (h : Extends written d d') (hd : d.Tidy) (hdir : d.isFolder (searched input).text = true)
    (hbase : ∀ e ∈ d'.entries, (d.baseFolder input).parts <+: e.1 → e ∈ d.entries) :
    d'.expand input documentPattern = d.expand input documentPattern := by
  obtain ⟨base, hloc, -⟩ := isFolder_iff.1 hdir
  obtain rfl : base = (d.baseFolder input).parts := by
    rw [(hd.locate hloc).2, ofText_text (clean_searched input)]
    rfl
  have hloc' := h.locate hloc
  have hkeys : ∀ key, (d.baseFolder input).parts <+: key → (key ∈ d'.keys ↔ key ∈ d.keys) := by
    refine fun key hkey => ⟨fun hmem => ?_, fun hmem => h.keys.subset hmem⟩
    obtain ⟨e, he, rfl⟩ := mem_map.1 hmem
    exact mem_map_of_mem (hbase e he hkey)
  have hd' : ∀ base, d'.locate (searched input).text = .ok base → d'.TidyBelow base := by
    intro base hbase
    obtain rfl := Except.ok.inj (hloc'.symm.trans hbase)
    exact { h.grounded hd.toGrounded with
      names := fun key hmem hkey => hd.names key ((hkeys key hkey).1 hmem)
      rooted := fun key hmem hkey => h.reached (hd.rooted key ((hkeys key hkey).1 hmem)) }
  have hdoc : ∀ names name, d'.HasDocument (searched input) names name ↔ d.HasDocument (searched input) names name := by
    refine fun names name => ⟨fun hdoc => ?_, fun hdoc => ?_⟩ <;> obtain ⟨base, hbase, hkey⟩ := hdoc.entry
    · obtain rfl := Except.ok.inj (hloc'.symm.trans hbase)
      exact ⟨hdoc.accepted, ⟨_, hloc, (hkeys _ (by simp [append_assoc])).1 hkey⟩, hdoc.short⟩
    · exact ⟨hdoc.accepted, ⟨base, h.locate hbase, h.keys.subset hkey⟩, hdoc.short⟩
  obtain ⟨files, hfiles, hsorted, hmem⟩ := expand_listed (fun base _ => hd.below base) hd.nodup
  obtain ⟨files', hfiles', hsorted', hmem'⟩ := expand_listed hd' (h.nodup hd.nodup)
  rw [hfiles, hfiles']
  simp only [hdoc, ← hmem] at hmem'
  exact congrArg Except.ok (hsorted'.eq_of_mem_iff hsorted hmem')

end Disk

end Transclude
