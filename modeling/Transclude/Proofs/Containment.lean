import Transclude.Proofs.Confinement

/-!
# Allowed paths by their names

Whether a path is allowed is asked of texts. Here the answer is given by names: `Path.landing` follows a text name by
name, and a session allows what lands below the current folder (`Cache.isAllowed_iff`).
-/

namespace Transclude

open List Path Wildcard

namespace Path

def enter (place : List String) (name : String) : List String :=
  if name = "" ∨ name = "." then place
  else if name = ".." then place.dropLast
  else place ++ [name]

def landing (folder : Path) (s : String) : List String :=
  (names s).foldl enter (if s.toList.head? = some '/' then [] else folder.parts)

section Landing

variable {folder : Path}

theorem enter_of_not_moves {name : String} (h : moves name = false) (place : List String) : enter place name = place := by
  refine if_pos ?_
  rw [moves, Bool.and_eq_false_iff, bne_eq_false_iff_eq, bne_eq_false_iff_eq] at h
  exact h

theorem foldl_enter_filter (names : List String) (place : List String) :
    (names.filter moves).foldl enter place = names.foldl enter place := by
  induction names generalizing place with
  | nil => rfl
  | cons name names ih =>
    cases hname : moves name with
    | true => rw [filter_cons_of_pos hname, foldl_cons, foldl_cons, ih]
    | false => rw [filter_cons_of_neg (by simp [hname]), foldl_cons, enter_of_not_moves hname, ih]

theorem collapse_eq_foldl (above : List String) {names : List String} (h : ∀ name ∈ names, moves name = true) :
    collapse above names = names.foldl enter above.reverse := by
  induction names generalizing above with
  | nil => rfl
  | cons name names ih =>
    obtain ⟨hname, hnames⟩ := forall_mem_cons.1 h
    have hstill : ¬(name = "" ∨ name = ".") := by simpa [moves] using hname
    rw [collapse_cons, foldl_cons, enter]
    split_ifs with hup
    · rw [ih _ hnames, drop_one, dropLast_reverse]
    · rw [ih _ hnames, reverse_cons]

theorem isAbsolute_ofText (s : String) : (ofText s).isAbsolute = true ↔ s.toList.head? = some '/' := by
  rcases ofText_root s with ⟨hhead, hroot⟩ | ⟨cs, hcs, hroot⟩
  · simpa [isAbsolute, hroot] using hhead
  · rw [hcs]
    rcases hroot with hroot | ⟨cs', -, hroot⟩ <;> simp [isAbsolute, hroot]

theorem resolve_parts (hdir : folder.Canonical) (s : String) :
    (resolve folder (ofText s)).parts = landing folder s := by
  have hparts : ∀ name ∈ (ofText s).parts, moves name = true := fun name hname => ((clean_ofText s).names name hname).1
  have hlanding : landing folder s =
      (ofText s).parts.foldl enter (if s.toList.head? = some '/' then [] else folder.parts) := by
    rw [landing, ofText_parts, foldl_enter_filter]
  rw [hlanding, resolve, join]
  by_cases habs : (ofText s).isAbsolute = true
  · rw [if_pos habs, if_pos ((isAbsolute_ofText s).1 habs)]
    exact collapse_eq_foldl [] hparts
  · rw [if_neg habs, if_neg (mt (isAbsolute_ofText s).2 habs)]
    rw [collapse_append, collapse_of_forall_ne [] hdir.down, collapse_eq_foldl _ hparts, reverse_reverse]
    rfl

theorem mem_landing {s name : String} (hdir : folder.Canonical) (h : name ∈ landing folder s) :
    name ∈ folder.parts ∨ name ∈ names s := by
  rw [← resolve_parts hdir] at h
  have hjoin := ((of_mem_collapse h).resolve_left not_mem_nil).1
  have hparts : (ofText s).parts ⊆ names s := filter_sublist.subset
  rw [join] at hjoin
  split_ifs at hjoin with habs
  · exact .inr (hparts hjoin)
  · exact (mem_append.1 hjoin).imp_right fun hname => hparts hname

end Landing

theorem mem_of_mem_names {s name : String} {c : Char} (hname : name ∈ names s) (hc : c ∈ name.toList) :
    c ∈ s.toList := by
  obtain ⟨piece, hpiece, rfl⟩ := mem_map.1 hname
  rw [String.toList_ofList] at hc
  exact Text.mem_of_mem_splitAt hpiece hc

theorem Canonical.eq_of_text_eq {p q : Path} (hp : p.Canonical) (hq : q.Canonical) (h : p.text = q.text) : p = q := by
  rw [← ofText_text hp.clean, h, ofText_text hq.clean]

end Path

/-! ## Wildcards without wild characters -/

namespace Wildcard

theorem accepts_iff_of_plain {wildcard text : String} (h : ∀ c ∈ wildcard.toList, c ≠ '*' ∧ c ≠ '?' ∧ c ≠ '[') :
    accepts wildcard text = true ↔ wildcard = text := by
  have hparse : parse wildcard.toList (wildcard.length + 1) = wildcard.toList.map .char ++ [] := by
    have happend := parse_append h [] 1
    rwa [append_nil] at happend
  rw [accepts, hparse, fitsAll_append_iff, ← String.toList_inj]
  constructor
  · rintro ⟨rest, htext, hrest⟩
    obtain rfl : rest = [] := isEmpty_iff.1 hrest
    rw [htext, append_nil]
  · intro heq
    exact ⟨[], by rw [heq, append_nil], rfl⟩

end Wildcard

/-! ## What is allowed -/

namespace Cache

variable {folder : Path}

theorem isAllowed_stars_iff_landing (hdir : folder.Canonical) (hroot : folder.parts ≠ [])
    (hplain : isWild folder.text = false) (s : String) :
    isAllowed folder ["./**"] s = true ↔
      folder.parts <+: landing folder s ∧ landing folder s ≠ folder.parts := by
  have hcanon := hdir.resolve (clean_ofText s)
  rw [isAllowed_stars_iff hdir hplain, ← resolve_parts hdir]
  constructor
  · intro h
    refine ⟨ prefix_of_slashed_prefix hdir.names hcanon.names h, fun heq => ?_⟩
    rw [heq] at h
    exact not_slashed_prefix_written hroot h
  · rintro ⟨⟨rest, hrest⟩, hne⟩
    rw [← hrest]
    refine slashed_prefix_written folder.parts fun hnil => hne ?_
    rw [← hrest, hnil, append_nil]

theorem plain_text_resolve (hdir : folder.Canonical) (hplain : isWild folder.text = false) {s : String}
    (hs : isWild s = false) :
    ∀ c ∈ (resolve folder (.ofText s)).text.toList, c ≠ '*' ∧ c ≠ '?' ∧ c ≠ '[' := by
  intro c hc
  rw [(hdir.resolve (clean_ofText s)).toList_text, resolve_parts hdir] at hc
  rcases mem_cons.1 hc with rfl | hc
  · decide
  · rcases Text.mem_joinWith hc with rfl | ⟨piece, hpiece, hc⟩
    · decide
    · obtain ⟨name, hname, rfl⟩ := mem_map.1 hpiece
      rcases mem_landing hdir hname with hname | hname
      · refine plain_of_isWild hplain c ?_
        rw [hdir.toList_text]
        exact mem_cons_of_mem _ (mem_written hname hc)
      · exact plain_of_isWild hs c (mem_of_mem_names hname hc)

theorem isAllowed_folders_iff (hdir : folder.Canonical) (hplain : isWild folder.text = false)
    {allowed : List String} (hallow : ∀ a ∈ allowed, isWild a = false) (s : String) :
    isAllowed folder allowed s = true ↔ ∃ a ∈ allowed, landing folder a <+: landing folder s := by
  rw [isAllowed, any_eq_true]
  refine exists_congr fun a => and_congr_right fun ha => ?_
  have hbase := hdir.resolve (clean_ofText a)
  have hcanon := hdir.resolve (clean_ofText s)
  rw [Bool.or_eq_true, isSome_below?_iff,
    accepts_iff_of_plain (plain_text_resolve hdir hplain (hallow a ha)), resolve_parts hdir,
    resolve_parts hdir, hbase.root]
  constructor
  · rintro (⟨-, hpre⟩ | htext)
    · exact hpre
    · -- Without wild characters a match is equality of texts, and these determine the parts.
      have hpath := congrArg parts (hbase.eq_of_text_eq hcanon htext)
      rw [resolve_parts hdir, resolve_parts hdir] at hpath
      exact hpath ▸ prefix_rfl
  · exact fun hpre => .inl ⟨rfl, hpre⟩

/-- In a folder that is not the root, a session allows exactly what lands below the folder; allowed folders stand for
exactly what lands at or below one of them. -/
theorem isAllowed_iff (hdir : folder.Canonical) (hroot : folder.parts ≠ [])
    (hplain : Wildcard.isWild folder.text = false) (s : String) :
    (isAllowed folder ["./**"] s = true ↔
      folder.parts <+: Path.landing folder s ∧ Path.landing folder s ≠ folder.parts) ∧
    ∀ allowed : List String, (∀ a ∈ allowed, Wildcard.isWild a = false) →
      (isAllowed folder allowed s = true ↔ ∃ a ∈ allowed, Path.landing folder a <+: Path.landing folder s) :=
  ⟨isAllowed_stars_iff_landing hdir hroot hplain s,
    fun _ hallow => isAllowed_folders_iff hdir hplain hallow s⟩

/-- A text that leaves the folder and comes back is allowed, and one that leads into a folder beside it is not. -/
theorem isAllowed_docs :
    (Path.mk "/" ["home", "docs"]).Canonical ∧ Wildcard.isWild (Path.mk "/" ["home", "docs"]).text = false ∧
    isAllowed ⟨"/", ["home", "docs"]⟩ ["./**"] "x/../../docs//./a.md" = true ∧
    isAllowed ⟨"/", ["home", "docs"]⟩ ["../docs/"] "/home/docs2/a.md" = false := by
  have hnames : ∀ name ∈ ["home", "docs"], Path.IsName name := by
    simp only [forall_mem_cons, Path.IsName]
    decide
  have hdir : (Path.mk "/" ["home", "docs"]).Canonical := ⟨rfl, hnames, by decide⟩
  have hplain : Wildcard.isWild (Path.mk "/" ["home", "docs"]).text = false := by decide
  have hback : Path.landing ⟨"/", ["home", "docs"]⟩ "x/../../docs//./a.md" = ["home", "docs", "a.md"] := by
    decide
  refine ⟨hdir, hplain, ?_, ?_⟩
  · rw [(isAllowed_iff hdir (by decide) hplain _).1, hback]
    decide
  · rw [← Bool.not_eq_true, (isAllowed_iff hdir (by decide) hplain _).2 _ (by decide)]
    decide

end Cache

end Transclude
