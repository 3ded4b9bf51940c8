import Transclude.Proofs.Ancestry
import Transclude.Proofs.Dependence
import Transclude.Proofs.Ways

/-!
# What lies outside the folder

A session lets only paths be read that are resolved to the current folder or below it. On its way a path may still
leave the folder and come back by `..`, and then it matters what it passes.
-/

namespace Transclude

open List

variable {names place : List String} {plain cs : List Char} {s : String} {folder p : Path}

/-! ## The allowed paths -/

namespace Wildcard

theorem plain_of_isWild (h : isWild s = false) : ∀ c ∈ s.toList, c ≠ '*' ∧ c ≠ '?' ∧ c ≠ '[' := by
  intro c hc
  simpa [not_or, and_assoc] using any_eq_false.1 h c hc

theorem parse_append (h : ∀ c ∈ plain, c ≠ '*' ∧ c ≠ '?' ∧ c ≠ '[') (rest : List Char) (fuel : Nat) : parse (plain ++ rest) (plain.length + fuel) = plain.map .char ++ parse rest fuel := by
  induction plain with
  | nil => rw [length_nil, Nat.zero_add, nil_append, map_nil, nil_append]
  | cons c plain ih =>
    rw [forall_mem_cons] at h
    rw [cons_append, length_cons, Nat.add_right_comm, parse, ih h.2]
    · rfl
    · exact h.1.1
    · exact h.1.2.1
    · exact h.1.2.2

theorem parse_plain (h : ∀ c ∈ plain, c ≠ '*' ∧ c ≠ '?' ∧ c ≠ '[') {fuel : Nat} (hfuel : plain.length < fuel) : parse (plain ++ ['*', '*']) fuel = plain.map .char ++ [.any] := by
  obtain ⟨more, rfl⟩ := Nat.exists_eq_add_of_lt hfuel
  rw [Nat.add_assoc, parse_append h]
  cases more <;> rfl

theorem fitsAll_append_iff {ps : List Piece} :
    fitsAll (plain.map .char ++ ps) cs = true ↔ ∃ rest, cs = plain ++ rest ∧ fitsAll ps rest = true := by
  induction plain generalizing cs with
  | nil => simp
  | cons c plain ih =>
    cases cs with
    | nil => simp [fitsAll]
    | cons c' cs =>
      rw [map_cons, cons_append, fitsAll, Bool.and_eq_true, Piece.fits, beq_iff_eq, ih]
      · constructor
        · rintro ⟨rfl, rest, rfl, hrest⟩
          exact ⟨rest, rfl, hrest⟩
        · rintro ⟨rest, heq, hrest⟩
          obtain ⟨rfl, rfl⟩ := List.cons.inj heq
          exact ⟨rfl, rest, rfl, hrest⟩
      · exact fun e => by cases e

theorem anyTail_of_nil {p : List Char → Bool} (h : p [] = true) (cs : List Char) : anyTail p cs = true := by
  induction cs with
  | nil => exact h
  | cons c cs ih => rw [anyTail, ih, Bool.or_true]

theorem fitsAll_plain_iff : fitsAll (plain.map .char ++ [.any]) cs = true ↔ plain <+: cs := by
  rw [fitsAll_append_iff]
  constructor
  · rintro ⟨rest, rfl, -⟩
    exact prefix_append _ _
  · rintro ⟨rest, rfl⟩
    exact ⟨rest, rfl, anyTail_of_nil rfl rest⟩

end Wildcard

namespace Path

def slashed (names : List String) : List Char := names.flatMap fun name => name.toList ++ ['/']

theorem written_append_singleton (names : List String) (last : String) :
    written (names ++ [last]) = slashed names ++ last.toList := by
  induction names with
  | nil => rfl
  | cons name names ih =>
    have hne : (names ++ [last]).map String.toList ≠ [] := by simp
    have hcons : written (name :: (names ++ [last])) = name.toList ++ '/' :: written (names ++ [last]) := by
      rw [written, map_cons, Text.joinWith_cons hne]
      simp [written]
    rw [cons_append, hcons, ih]
    simp [slashed]

theorem slashed_append (xs ys : List String) : slashed (xs ++ ys) = slashed xs ++ slashed ys := flatMap_append

theorem slashed_prefix_written (names : List String) {rest : List String} (hrest : rest ≠ []) :
    slashed names <+: written (names ++ rest) := by
  obtain ⟨init, last, rfl⟩ := (eq_nil_or_concat' rest).resolve_left hrest
  rw [← append_assoc, written_append_singleton, slashed_append, append_assoc]
  exact prefix_append _ _

theorem not_slashed_prefix_written (hnames : names ≠ []) : ¬ slashed names <+: written names := by
  obtain ⟨init, last, rfl⟩ := (eq_nil_or_concat' names).resolve_left hnames
  intro h
  have hlen := h.length_le
  have hslash : (slashed [last]).length = last.toList.length + 1 := by simp [slashed]
  rw [written_append_singleton, slashed_append, length_append, length_append] at hlen
  omega

theorem splitAt_slashed (h : ∀ name ∈ names, IsName name) (cs : List Char) :
    Text.splitAt '/' (slashed names ++ cs) = names.map String.toList ++ Text.splitAt '/' cs := by
  induction names with
  | nil => rfl
  | cons name names ih =>
    rw [forall_mem_cons] at h
    rw [slashed, flatMap_cons, append_assoc, append_assoc, singleton_append,
      Text.splitAt_append_sep h.1.2]
    exact congrArg (name.toList :: ·) (ih h.2)

theorem prefix_of_slashed_prefix {parts : List String} (hnames : ∀ name ∈ names, IsName name)
    (hparts : ∀ name ∈ parts, IsName name) (h : slashed names <+: written parts) : names <+: parts := by
  obtain ⟨rest, hrest⟩ := h
  by_cases hnil : parts = []
  · subst hnil
    cases names with
    | nil => exact nil_prefix
    | cons name names => simp [slashed, written, Text.joinWith] at hrest
  · have hpieces : ∀ piece ∈ parts.map String.toList, '/' ∉ piece := by
      simpa using fun name hname => (hparts name hname).2
    have hsplit := splitAt_slashed hnames rest
    rw [hrest, written, Text.splitAt_joinWith (by simpa using hnil) hpieces] at hsplit
    refine ⟨(Text.splitAt '/' rest).map String.ofList, ?_⟩
    have hmap := congrArg (List.map String.ofList) hsplit
    simp only [map_append, map_map, Function.comp_def, String.ofList_toList, map_id'] at hmap
    exact hmap.symm

theorem mem_written {name : String} {c : Char} (hname : name ∈ names) (hc : c ∈ name.toList) : c ∈ written names :=
  Text.mem_joinWith_of_mem (mem_map_of_mem hname) hc

theorem isSome_below?_iff {base : Path} :
    (base.below? p).isSome = true ↔ p.root = base.root ∧ base.parts <+: p.parts := by
  rw [below?]
  split_ifs with h
  · rw [Bool.and_eq_true, beq_iff_eq, isPrefixOf_iff_prefix] at h
    exact iff_of_true rfl h
  · rw [Bool.and_eq_true, beq_iff_eq, isPrefixOf_iff_prefix] at h
    exact iff_of_false Bool.false_ne_true h

theorem Canonical.toList_text (h : p.Canonical) : p.text.toList = '/' :: written p.parts := by
  rw [Path.toList_text h.clean (by simp [h.root]), h.root]
  rfl

end Path

namespace Cache

theorem isAllowed_stars_iff (hdir : folder.Canonical) (hplain : Wildcard.isWild folder.text = false) :
    isAllowed folder ["./**"] s = true ↔
      Path.slashed folder.parts <+: Path.written (Path.resolve folder (.ofText s)).parts := by
  have hjoin : folder.join (.ofText "./**") = { root := "/", parts := folder.parts ++ ["**"] } := by
    rw [← hdir.root]
    rfl
  have hcanonicalBase : (Path.mk "/" (folder.parts ++ ["**"])).Canonical :=
    hjoin ▸ hdir.join rfl (Path.clean_ofText _).names (by decide)
  have hbase : Path.resolve folder (.ofText "./**") = { root := "/", parts := folder.parts ++ ["**"] } := by
    rw [Path.resolve, hjoin, Path.collapse_of_forall_ne [] hcanonicalBase.down]
    rfl
  have hbaseText : (Path.mk "/" (folder.parts ++ ["**"])).text.toList =
      ('/' :: Path.slashed folder.parts) ++ ['*', '*'] := by
    rw [hcanonicalBase.toList_text, Path.written_append_singleton]
    rfl
  have hchars : ∀ c ∈ '/' :: Path.slashed folder.parts, c ≠ '*' ∧ c ≠ '?' ∧ c ≠ '[' := by
    intro c hc
    have hmem : c ∈ folder.text.toList := by
      rw [hdir.toList_text]
      rcases mem_cons.1 hc with rfl | hc
      · exact mem_cons_self
      · obtain ⟨name, hname, hc⟩ := mem_flatMap.1 hc
        rcases mem_append.1 hc with hc | hc
        · exact mem_cons_of_mem _ (Path.mem_written hname hc)
        · rw [mem_singleton.1 hc]
          exact mem_cons_self
    exact Wildcard.plain_of_isWild hplain c hmem
  have hcanon := hdir.resolve (Path.clean_ofText s)
  have haccepts : Wildcard.accepts (Path.mk "/" (folder.parts ++ ["**"])).text (Path.resolve folder (.ofText s)).text =
      true ↔ Path.slashed folder.parts <+: Path.written (Path.resolve folder (.ofText s)).parts := by
    rw [Wildcard.accepts, hbaseText, hcanon.toList_text,
      Wildcard.parse_plain hchars (by rw [← String.length_toList, hbaseText]; simp), Wildcard.fitsAll_plain_iff,
      cons_prefix_cons]
    exact and_iff_right rfl
  rw [isAllowed]
  simp only [any_cons, any_nil, Bool.or_false, Bool.or_eq_true, hbase]
  rw [haccepts]
  refine or_iff_right_of_imp fun hbelow => ?_
  -- a folder whose name is two asterisks lies in the current folder too
  obtain ⟨rest, hrest⟩ := (Path.isSome_below?_iff.1 hbelow).2
  rw [← hrest, append_assoc]
  exact Path.slashed_prefix_written folder.parts (by simp)

theorem prefix_of_isAllowed (hdir : folder.Canonical) (hplain : Wildcard.isWild folder.text = false)
    (hs : (Path.ofText s).isAbsolute = true) (h : isAllowed folder ["./**"] s = true) : folder.parts <+: (Path.resolve folder (.ofText s)).parts :=
  Path.prefix_of_slashed_prefix hdir.names (Path.canonical_resolve folder (Path.clean_ofText s) hs).names
    ((isAllowed_stars_iff hdir hplain).1 h)

end Cache

/-! ## Disks that agree in the folder -/

namespace Disk

structure SameWithin (d d' : Disk) : Prop where
  folder : d'.folder = d.folder
  within : ∀ place, d.folder.parts <+: place → d'.entry? place = d.entry? place

variable {d d' : Disk} {s : String}

theorem isFolderAt_congr (h : d'.entry? place = d.entry? place) : d'.isFolderAt place = d.isFolderAt place := by
  rw [isFolderAt, isFolderAt, h]

theorem SameWithin.isFolderAt_eq (h : d.SameWithin d') (hd : d.Grounded) (hd' : d'.Grounded) {p : List String}
    (hplace : d.folder.parts <+: place) (hp : p <+: place) : d'.isFolderAt p = d.isFolderAt p := by
  rcases prefix_or_prefix_of_prefix hplace hp with hbelow | habove
  · exact isFolderAt_congr (h.within p hbelow)
  · rw [prefix_iff_eq_take] at habove
    by_cases hlen : p.length < d.folder.parts.length
    · have hdir := hd.reached _ hlen
      have hdir' := hd'.reached p.length (by rw [h.folder]; exact hlen)
      rw [h.folder, ← habove] at hdir'
      rw [← habove] at hdir
      rw [hdir, hdir']
    · rw [take_of_length_le (by omega)] at habove
      exact isFolderAt_congr (h.within p (habove ▸ prefix_rfl))

theorem SameWithin.way (h : d.SameWithin d') (hd : d.Grounded) (hd' : d'.Grounded)
    (hs : (Path.ofText s).isAbsolute = true)
    (hinside : d.folder.parts <+: (Path.resolve d.folder (.ofText s)).parts)
    (hdetour : ".." ∈ (Path.ofText s).parts → ∀ place ∈ Disk.way d.folder s, d'.isFolderAt place = d.isFolderAt place) :
    ∀ place ∈ Disk.way d.folder s, d'.isFolderAt place = d.isFolderAt place := by
  by_cases hup : ".." ∈ (Path.ofText s).parts
  · exact hdetour hup
  · intro place hplace
    have hnames : ".." ∉ Path.names s := fun hmem => hup (mem_filter.2 ⟨hmem, by decide⟩)
    have hres : (Path.resolve d.folder (.ofText s)).parts = (Path.ofText s).parts := by
      rw [Path.resolve_of_isAbsolute _ hs]
      exact Path.collapse_of_forall_ne [] fun name hname he => hup (he ▸ hname)
    rw [Disk.way, origin, if_pos hs] at hplace
    have hpre := prefix_of_mem_course hnames hplace
    refine h.isFolderAt_eq hd hd' hinside ?_
    rwa [hres]

theorem SameWithin.isFile_eq (h : d.SameWithin d') (hs : (Path.ofText s).isAbsolute = true)
    (hinside : d.folder.parts <+: (Path.resolve d.folder (.ofText s)).parts)
    (hway : ∀ place ∈ Disk.way d.folder s, d'.isFolderAt place = d.isFolderAt place) :
    d'.isFile s = d.isFile s ∧ (d.isFile s = true →
      d'.bytes s = d.bytes s ∧ d'.bytes (Path.ofText s).text = d.bytes (Path.ofText s).text) := by
  have hentry := h.within _ hinside
  refine isFile_congr fun place bytes => ?_
  constructor
  · rintro ⟨hloc, hbytes⟩
    obtain rfl := locate_eq_resolve d.folder hs hloc
    exact ⟨locate_of_way h.folder (fun p hp hdir => (hway p hp).symm ▸ hdir) hloc, hentry.trans hbytes⟩
  · rintro ⟨hloc, hbytes⟩
    obtain rfl := locate_eq_resolve d.folder hs hloc
    refine ⟨locate_of_way h.folder.symm (fun p hp hdir => ?_) hloc, hentry ▸ hbytes⟩
    rw [h.folder] at hp
    exact hway p hp ▸ hdir

end Disk

/-! ## Documents -/

namespace Plan

variable {cwd : Path} {base : Desk}

theorem folderOf_ne_empty {source : String} (h : source ≠ "") : folderOf source ≠ "" := by
  rw [folderOf, if_neg (by simpa using h), Path.text]
  split_ifs with hbody
  · decide
  · simpa using hbody

theorem isAbsolute_of_occurs {x : Directive}
    (h : Occurs cwd (fun source content => base.reads source = .ok (some content, [])) x) (hx : x.source ≠ "") :
    (Path.ofText x.source).isAbsolute = true := by
  obtain ⟨source, content, fragments, refusals, hreads, hcut, place, hmem⟩ := h
  have hne : source ≠ "" := by
    rintro rfl
    obtain ⟨place, bytes, hloc, -⟩ := Disk.isFile_iff.1 (Cache.isFile_of_direct hreads).2
    cases hloc
  obtain ⟨given, -, hgiven⟩ := Fragment.exists_gives hcut (of_mem_directivesFrom hmem).2
  simp only [Directive.resolveSource] at hgiven
  split_ifs at hgiven with hrelative
  · rw [← Except.ok.inj hgiven]
    exact Path.isAbsolute_ofText_text rfl
  · obtain rfl := Except.ok.inj hgiven
    simpa [hx, folderOf_ne_empty hne] using hrelative

end Plan

namespace Compile

open Plan

/-- Whether a disk has the same folders on the ways of all sources that are written with `..`. -/
def SameDetours (base : Desk) (disk : Disk) : Prop :=
  ∀ x, Occurs base.disk.folder (fun source content => base.reads source = .ok (some content, [])) x →
    ".." ∈ (Path.ofText x.source).parts →
      ∀ place ∈ Disk.way base.disk.folder x.source, disk.isFolderAt place = base.disk.isFolderAt place

namespace Couple

variable {folder source : String} {outside outside' : List (List String × Disk.Entry)}

theorem lookup_disk (outside : List (List String × Disk.Entry)) (hplace : place ≠ []) :
    Disk.entry? (disk folder source outside) place =
      Option.or ( Disk.entry? (disk folder source []) place) (outside.lookup place) := by
  simp only [ Disk.entry?, List.isEmpty_iff, if_neg hplace, disk, List.append_nil, List.lookup_append]

theorem sameWithin (h : ∀ e ∈ outside, ¬ [folder] <+: e.1) (h' : ∀ e ∈ outside', ¬ [folder] <+: e.1) :
    (disk folder source outside).SameWithin (disk folder source outside') where
  folder := rfl
  within place hplace := by
    have hnone : ∀ {l : List (List String × Disk.Entry)}, (∀ e ∈ l, ¬ [folder] <+: e.1) → l.lookup place = none := by
      intro l hl
      refine lookup_eq_none_iff.2 fun e he => bne_iff_ne.2 ?_
      rintro rfl
      exact hl e he hplace
    have hne : place ≠ [] := by
      rintro rfl
      cases prefix_nil.1 hplace
    rw [lookup_disk outside hne, lookup_disk outside' hne, hnone h, hnone h']

theorem grounded (hname : Path.IsName folder) (hdown : folder ≠ "..") (outside : List (List String × Disk.Entry)) :
    (disk folder source outside).Grounded where
  canonical := ⟨rfl, forall_mem_singleton.2 hname, forall_mem_singleton.2 hdown⟩
  reached k hk := by
    obtain rfl : k = 0 := Nat.lt_one_iff.1 hk
    rfl
  isFolder := by simp [Disk.isFolderAt, Disk.entry?, disk]

theorem isFolderAt_disk (h : ∀ e ∈ outside, e.2 ≠ .folder) (place : List String) :
    (disk folder source outside).isFolderAt place = (disk folder source []).isFolderAt place := by
  by_cases hplace : place = []
  · rw [hplace]
    rfl
  · rw [Disk.isFolderAt, Disk.isFolderAt, lookup_disk outside hplace]
    cases Disk.entry? (disk folder source []) place with
    | some entry => rfl
    | none =>
      cases hlookup : outside.lookup place with
      | none => rfl
      | some entry =>
        cases entry with
        | file bytes => rfl
        | folder =>
          exact absurd rfl (h (place, .folder) (mem_of_lookup hlookup))

def desk (disk : Disk) : Desk where
  disk := disk
  cache := cache 1048576 104857600

def compiled (path : String) (disk : Disk) : Option String :=
  match (product {} Sole.registry path "/p" (desk disk)).text with
  | some (.ok text) => some text
  | _ => none

end Couple

end Compile

end Transclude
