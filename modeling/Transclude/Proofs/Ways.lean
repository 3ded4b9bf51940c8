import Transclude.Proofs.Aliases

/-!
# The way of a text

A text is followed name by name, so where it leads depends on the disk only at the places that it passes. Two
disks on which these are alike lead a text to the same place, and so they have the same file for it if that
place is alike too.
-/

namespace Transclude

open List Disk Path Except

namespace Disk

variable {names : List String} {p : Path}

def after (place : List String) (name : String) : List String :=
  if moves name then if name = ".." then place.dropLast else place ++ [name] else place

def course (place : List String) : List String → List (List String)
  | [] => []
  | name :: rest => place :: course (after place name) rest

def way (folder : Path) (s : String) : List (List String) := course (origin folder (.ofText s)) (Path.names s)

variable {d d' : Disk} {s : String} {place next : List String} {name : String}

theorem after_eq_of_step (h : d.step s place name = .ok next) : next = after place name := by
  rw [after]
  split_ifs with hmoves hup
  · obtain ⟨-, ⟨-, h⟩ | ⟨hne, -⟩⟩ := step_cases hmoves h
    · exact h
    · exact absurd hup hne
  · obtain ⟨-, ⟨he, -⟩ | ⟨-, h⟩⟩ := step_cases hmoves h
    · exact absurd he hup
    · exact h
  · exact step_still (by simpa using hmoves) h

theorem step_congr (h : d'.entry? place = d.entry? place) : d'.step s place name = d.step s place name := by
  rw [step, step, h]

/-! ## Where texts lead on two disks -/

theorem foldlM_step_of_course (h : ∀ p ∈ course place names, d.isFolderAt p = true → d'.isFolderAt p = true)
    (hfold : names.foldlM (d.step s) place = .ok next) : names.foldlM (d'.step s) place = .ok next := by
  induction names generalizing place with
  | nil => exact hfold
  | cons name names ih =>
    rw [foldlM_cons] at hfold ⊢
    obtain ⟨middle, hstep, hfold⟩ := of_bind_eq_ok hfold
    have hdir := isFolderAt_of_step hstep
    have hentry := isFolderAt_iff.1 (h place mem_cons_self hdir)
    rw [step_congr (hentry.trans (isFolderAt_iff.1 hdir).symm), hstep]
    refine ih (fun p hp => h p (mem_cons_of_mem _ ?_)) hfold
    rwa [after_eq_of_step hstep] at hp

theorem locate_of_way (hdir : d'.folder = d.folder)
    (h : ∀ p ∈ way d.folder s, d.isFolderAt p = true → d'.isFolderAt p = true) (hloc : d.locate s = .ok place) :
    d'.locate s = .ok place := by
  rw [locate_eq_ite] at hloc ⊢
  split_ifs at hloc ⊢
  rw [hdir]
  exact foldlM_step_of_course h hloc

theorem foldl_after_of_foldlM (h : names.foldlM (d.step s) place = .ok next) : names.foldl after place = next := by
  induction names generalizing place with
  | nil => exact Except.ok.inj h
  | cons name names ih =>
    obtain ⟨middle, hstep, h⟩ := of_bind_eq_ok h
    rw [foldl_cons, ← after_eq_of_step hstep]
    exact ih h

theorem prefix_of_mem_course (hdown : ".." ∉ names) {p : List String} (hp : p ∈ course place names) : p <+: place ++ names.filter moves := by
  induction names generalizing place with
  | nil => cases hp
  | cons name names ih =>
    rw [mem_cons, not_or] at hdown
    rcases mem_cons.1 hp with rfl | hp
    · exact prefix_append _ _
    · have hpre := ih hdown.2 hp
      rw [after] at hpre
      by_cases hmoves : moves name = true
      · rw [if_pos hmoves, if_neg (Ne.symm hdown.1), append_assoc] at hpre
        rwa [filter_cons_of_pos hmoves]
      · rw [if_neg hmoves] at hpre
        rwa [filter_cons_of_neg hmoves]

/-! ## Where texts lead from a folder that is there -/

/-- Whether the current folder of a disk is there, under a path that goes straight down. -/
structure Grounded (d : Disk) : Prop where
  canonical : d.folder.Canonical
  reached : d.Reached d.folder.parts
  isFolder : d.isFolderAt d.folder.parts = true

theorem Grounded.at_origin (hd : d.Grounded) (p : Path) :
    d.Reached (origin d.folder p) ∧ d.isFolderAt (origin d.folder p) = true := by
  rw [origin]
  split_ifs
  · exact ⟨reached_nil, rfl⟩
  · exact ⟨hd.reached, hd.isFolder⟩

theorem Grounded.locate (hd : d.Grounded) (h : d.locate s = .ok place) :
    d.Reached place ∧ place = (resolve d.folder (.ofText s)).parts := by
  rw [locate_eq_ite] at h
  split_ifs at h
  have hmoves : ∀ name ∈ (Path.names s).filter Path.moves, Path.moves name = true :=
    fun name hname => (mem_filter.1 hname).2
  obtain ⟨hreach, hplace⟩ := foldlM_step_of_moves hmoves (hd.at_origin _).1 (foldlM_step_filter (q := s) h)
  refine ⟨hreach, hplace.trans ?_⟩
  rw [origin, resolve, join]
  split_ifs with habs
  · rfl
  · rw [collapse_append, collapse_of_forall_ne [] hd.canonical.down]
    rfl

theorem foldlM_step_of_reached (hnames : ∀ name ∈ names, Path.IsName name ∧ name ≠ "..")
    (hshort : ∀ name ∈ names, name.utf8ByteSize ≤ maxName) (h : d.Reached (place ++ names)) :
    names.foldlM (d.step s) place = .ok (place ++ names) := by
  induction names generalizing place with
  | nil => rw [append_nil]; rfl
  | cons name names ih =>
    rw [forall_mem_cons] at hnames hshort
    have hdir := h place.length (by simp)
    rw [take_append_of_le_length (Nat.le_refl _), take_length] at hdir
    have hstep : d.step s place name = .ok (place ++ [name]) := by
      have hmoves : ¬ (name == "" || name == ".") = true := by simpa [moves] using hnames.1.1.1
      rw [step, isFolderAt_iff.1 hdir]
      simp only [if_neg hmoves, beq_iff_eq, if_neg hnames.1.2, if_neg (Nat.not_lt.2 hshort.1)]
    have happend : place ++ name :: names = place ++ [name] ++ names := by simp
    rw [foldlM_cons, hstep, happend]
    exact ih hnames.2 hshort.2 (happend ▸ h)

theorem Grounded.locate_of_reached (hd : d.Grounded) (hp : p.Canonical)
    (hshort : ∀ name ∈ p.parts, name.utf8ByteSize ≤ maxName) (hsize : p.text.utf8ByteSize ≤ maxPath)
    (h : d.Reached p.parts) : d.locate p.text = .ok p.parts := by
  have habs : p.isAbsolute = true := by simp [isAbsolute, hp.root]
  rw [locate_text (hd.at_origin p).2 hp.clean, if_neg (Nat.not_lt.2 hsize), origin, if_pos habs]
  exact foldlM_step_of_reached (fun name hname => ⟨hp.names name hname, hp.down name hname⟩) hshort h

/-! ## Files on two disks -/

theorem bytes_of_locate {bytes : ByteArray} (h : d.locate s = .ok place)
    (hentry : d.entry? place = some (.file bytes)) :
    d.bytes s = .ok bytes ∧ d.bytes (ofText s).text = .ok bytes := by
  constructor
  · rw [Disk.bytes, h, ok_bind, hentry]
    rfl
  · rw [Disk.bytes, locate_text_ofText h, ok_bind, hentry]
    rfl

theorem isFile_congr (h : ∀ place bytes, d.locate s = .ok place ∧ d.entry? place = some (.file bytes) ↔
      d'.locate s = .ok place ∧ d'.entry? place = some (.file bytes)) :
    d'.isFile s = d.isFile s ∧ (d.isFile s = true →
      d'.bytes s = d.bytes s ∧ d'.bytes (ofText s).text = d.bytes (ofText s).text) := by
  constructor
  · rw [Bool.eq_iff_iff, isFile_iff, isFile_iff]
    simp only [h]
  · intro hfile
    obtain ⟨place, bytes, hboth⟩ := isFile_iff.1 hfile
    obtain ⟨hread, hread'⟩ := bytes_of_locate hboth.1 hboth.2
    obtain ⟨hloc, hentry⟩ := (h place bytes).1 hboth
    obtain ⟨hread₁, hread₁'⟩ := bytes_of_locate hloc hentry
    exact ⟨hread₁.trans hread.symm, hread₁'.trans hread'.symm⟩

end Disk

namespace Cache

variable {c : Cache} {d d' : Disk} {s : String}

theorem direct_congr (hdir : d'.folder = d.folder)
    (h : isAllowed d.folder c.allowed s = true → d'.isFile s = d.isFile s ∧ (d.isFile s = true →
      d'.bytes s = d.bytes s ∧ d'.bytes (ofText s).text = d.bytes (ofText s).text)) :
    c.objections d' s = c.objections d s ∧ c.direct d' s = c.direct d s := by
  have hobj : c.objections d' s = c.objections d s := by
    have hrefusal : c.refusal? d' s = c.refusal? d s := by
      simp only [refusal?, hdir]
      by_cases hallow : isAllowed d.folder c.allowed s = true
      · obtain ⟨hfile, hbytes⟩ := h hallow
        rw [hfile]
        by_cases hisFile : d.isFile s = true
        · have hsize : d'.size s = d.size s := by rw [size, size, (hbytes hisFile).1]
          rw [hsize]
        · simp [hisFile]
      · simp [hallow]
    rw [objections, objections, hrefusal]
  refine ⟨hobj, ?_⟩
  rw [direct, direct, hobj]
  cases hread : c.objections d s with
  | error crash => simp only [bind, Except.bind]
  | ok errors =>
    rw [ok_bind, ok_bind]
    cases errors with
    | cons error errors => simp only [isEmpty_cons, Bool.false_eq_true, if_false]
    | nil =>
      obtain ⟨hallow, hisFile, -⟩ := refusal?_eq_none_iff.1 (objections_eq_nil_iff.1 hread).2
      have htext : d'.text (ofText s).text = d.text (ofText s).text := by
        rw [Disk.text, Disk.text, ((h hallow).2 hisFile).2]
      rw [htext]

end Cache

end Transclude
