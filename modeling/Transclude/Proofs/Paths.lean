import Mathlib.Data.List.Basic
import Transclude.Disk.Basic

/-!
# Texts of paths

Cutting a text at its slashes and joining the names again gives the text back. So a path that is read
from a text and written again leads to the same place of a disk (`locate_text_ofText`), as long as the
text leads anywhere: what is dropped are names that stay where they are.
-/

namespace Transclude

open List Path Text

variable {cs piece : List Char} {place place' start : List String} {ps : List (List Char)} {c : Char} {name : String}

/-! ## Cutting and joining -/

namespace Text

variable {sep : Char}

theorem splitAt_ne_nil (cs : List Char) : splitAt sep cs ≠ [] := by
  cases cs with
  | nil => simp [splitAt]
  | cons c cs =>
    rw [splitAt]
    split
    · simp
    · split <;> simp

theorem splitAt_cons_sep (cs : List Char) : splitAt sep (sep :: cs) = [] :: splitAt sep cs := by simp [splitAt]

theorem joinWith_cons {s p : List Char} (h : ps ≠ []) : joinWith s (p :: ps) = p ++ s ++ joinWith s ps := by
  cases ps with
  | nil => exact absurd rfl h
  | cons q qs => rw [joinWith]

theorem joinWith_splitAt (cs : List Char) : joinWith [sep] (splitAt sep cs) = cs := by
  induction cs with
  | nil => rfl
  | cons c cs ih =>
    rw [splitAt]
    split
    · rename_i h
      rw [joinWith_cons (splitAt_ne_nil cs), ih, beq_iff_eq.1 h]
      rfl
    · split
      · rename_i h
        exact absurd h (splitAt_ne_nil cs)
      · rename_i piece pieces h
        rw [h] at ih
        cases pieces with
        | nil => simpa [joinWith] using ih
        | cons q qs => simpa [joinWith] using ih

theorem mem_joinWith (h : c ∈ joinWith [sep] ps) : c = sep ∨ ∃ p ∈ ps, c ∈ p := by
  fun_induction joinWith [sep] ps with
  | case1 => cases h
  | case2 piece => exact .inr ⟨piece, mem_singleton_self _, h⟩
  | case3 piece next pieces ih =>
    simp only [mem_append, mem_singleton] at h
    rcases h with (h | h) | h
    · exact .inr ⟨piece, mem_cons_self, h⟩
    · exact .inl h
    · rcases ih h with h | ⟨p, hp, hc⟩
      · exact .inl h
      · exact .inr ⟨p, mem_cons_of_mem _ hp, hc⟩

theorem mem_joinWith_of_mem {s p : List Char} (hp : p ∈ ps) (hc : c ∈ p) : c ∈ joinWith s ps := by
  fun_induction joinWith s ps with
  | case1 => cases hp
  | case2 piece => rwa [mem_singleton.1 hp] at hc
  | case3 piece next pieces ih =>
    rcases mem_cons.1 hp with rfl | hp
    · exact mem_append_left _ (mem_append_left _ hc)
    · exact mem_append_right _ (ih hp)

theorem mem_of_mem_splitAt (h : piece ∈ splitAt sep cs) (hc : c ∈ piece) : c ∈ cs := by
  have hmem := mem_joinWith_of_mem (s := [sep]) h hc
  rwa [joinWith_splitAt] at hmem

theorem not_mem_of_mem_splitAt (h : piece ∈ splitAt sep cs) : sep ∉ piece := by
  induction cs generalizing piece with
  | nil =>
    simp only [splitAt, mem_singleton] at h
    simp [h]
  | cons c cs ih =>
    rw [splitAt] at h
    split at h
    · rcases mem_cons.1 h with rfl | h
      · simp
      · exact ih h
    · rename_i hc
      have hc : sep ≠ c := fun e => hc (by simp [e])
      split at h
      · simpa [mem_singleton.1 h] using hc
      · rename_i first pieces hs
        rw [hs] at ih
        rcases mem_cons.1 h with rfl | h
        · simpa [hc] using ih mem_cons_self
        · exact ih (mem_cons_of_mem _ h)

theorem takeWhile_until {front rest : List Char} (h : c ∉ front) : (front ++ c :: rest).takeWhile (· != c) = front := by
  rw [takeWhile_append_of_pos fun x hx => by simpa using ne_of_mem_of_not_mem hx h]
  simp

theorem splitAt_of_not_mem (h : sep ∉ cs) : splitAt sep cs = [cs] := by
  induction cs with
  | nil => rfl
  | cons c cs ih =>
    rw [mem_cons, not_or] at h
    rw [splitAt, if_neg (by simpa using Ne.symm h.1), ih h.2]

theorem splitAt_append_sep (h : sep ∉ piece) : splitAt sep (piece ++ sep :: cs) = piece :: splitAt sep cs := by
  induction piece with
  | nil => exact splitAt_cons_sep cs
  | cons c piece ih =>
    rw [mem_cons, not_or] at h
    rw [cons_append, splitAt, if_neg (by simpa using Ne.symm h.1), ih h.2]

theorem splitAt_joinWith (hne : ps ≠ []) (h : ∀ p ∈ ps, sep ∉ p) : splitAt sep (joinWith [sep] ps) = ps := by
  induction ps with
  | nil => exact absurd rfl hne
  | cons p ps ih =>
    have hp := h p mem_cons_self
    by_cases hps : ps = []
    · subst hps
      exact splitAt_of_not_mem hp
    · rw [joinWith_cons hps, append_assoc, singleton_append, splitAt_append_sep hp,
        ih hps fun q hq => h q (mem_cons_of_mem _ hq)]

theorem joinWith_sublist (s : List Char) {qs : List (List Char)} (h : ps.Sublist qs) :
    (joinWith s ps).Sublist (joinWith s qs) := by
  induction h with
  | slnil => exact .slnil
  | @cons ps qs q h ih =>
    by_cases hqs : qs = []
    · subst hqs
      rw [eq_nil_of_sublist_nil h]
      exact nil_sublist _
    · rw [joinWith_cons hqs]
      exact ih.trans (sublist_append_right ..)
  | @cons_cons ps qs q h ih =>
    by_cases hqs : qs = []
    · subst hqs
      rw [eq_nil_of_sublist_nil h]
    · rw [joinWith_cons hqs]
      by_cases hps : ps = []
      · rw [hps]
        exact (sublist_append_left ..).trans (sublist_append_left ..)
      · rw [joinWith_cons hps]
        exact List.Sublist.append_left ih _

theorem joinWith_eq_intercalate (s : List Char) (ps : List (List Char)) : joinWith s ps = s.intercalate ps := by
  induction ps with
  | nil => rfl
  | cons p ps ih =>
    cases ps with
    | nil => simp [joinWith]
    | cons q qs => rw [joinWith, ih, intercalate_cons_cons]

end Text

/-! ## Names that move -/

theorem utf8ByteSize_le_of_sublist {s t : String} (h : s.toList.Sublist t.toList) :
    s.utf8ByteSize ≤ t.utf8ByteSize := by
  have key : ∀ {a b : List Char}, a.Sublist b → (String.ofList a).utf8ByteSize ≤ (String.ofList b).utf8ByteSize := by
    intro a b hab
    induction hab with
    | slnil => exact Nat.le_refl _
    | cons c _ ih =>
      rw [String.ofList_cons, String.utf8ByteSize_append]
      omega
    | cons_cons c _ ih =>
      rw [String.ofList_cons, String.ofList_cons, String.utf8ByteSize_append, String.utf8ByteSize_append]
      omega
  simpa only [String.ofList_toList] using key h

namespace Path

variable {s : String} {p : Path}

def names (s : String) : List String := (splitAt '/' s.toList).map String.ofList

def moves (name : String) : Bool := name != "" && name != "."

theorem names_ne_nil (s : String) : names s ≠ [] := by simpa [names] using splitAt_ne_nil s.toList

theorem ofText_parts (s : String) : (ofText s).parts = (names s).filter moves := rfl

theorem ofText_root (s : String) : (s.toList.head? ≠ some '/' ∧ (ofText s).root = "") ∨
    ∃ cs, s.toList = '/' :: cs ∧ ((ofText s).root = "/" ∨ ∃ cs', cs = '/' :: cs' ∧ (ofText s).root = "//") := by
  rw [ofText]
  rcases s.toList with _ | ⟨a, cs⟩
  · exact Or.inl ⟨by simp, rfl⟩
  · by_cases ha : a = '/'
    · subst ha
      refine Or.inr ⟨cs, rfl, ?_⟩
      rcases cs with _ | ⟨b, cs⟩
      · exact Or.inl rfl
      · by_cases hb : b = '/'
        · subst hb
          by_cases hn : (cs.takeWhile (· == '/')).length = 0
          · simp [hn]
          · simp [hn]
        · simp [hb]
    · simp [ha]

theorem text_ne_empty (p : Path) : p.text.isEmpty = false := by
  rw [text]
  split_ifs with hbody
  · decide
  · simpa using hbody

def IsName (name : String) : Prop := moves name = true ∧ '/' ∉ name.toList

structure Clean (p : Path) : Prop where
  root : p.root = "" ∨ p.root = "/" ∨ p.root = "//"
  names : ∀ name ∈ p.parts, IsName name

theorem clean_ofText (s : String) : (ofText s).Clean where
  root := by
    rcases ofText_root s with ⟨-, h⟩ | ⟨_, -, h | ⟨_, -, h⟩⟩
    · exact .inl h
    · exact .inr (.inl h)
    · exact .inr (.inr h)
  names name hname := by
    obtain ⟨hname, hmoves⟩ := mem_filter.1 hname
    obtain ⟨piece, hpiece, rfl⟩ := mem_map.1 hname
    rw [IsName, String.toList_ofList]
    exact ⟨hmoves, not_mem_of_mem_splitAt hpiece⟩

/-! ## Writing paths -/

variable {names : List String}

def written (names : List String) : List Char := joinWith ['/'] (names.map String.toList)

theorem toList_intercalate (names : List String) : ("/".intercalate names).toList = written names := by
  rw [String.toList_intercalate, written, joinWith_eq_intercalate]
  rfl

theorem written_cons (names : List String) (h : IsName name) :
    ∃ c rest, c ≠ '/' ∧ written (name :: names) = c :: rest := by
  obtain ⟨hmoves, hslash⟩ := h
  rcases hchars : name.toList with _ | ⟨c, rest⟩
  · obtain rfl : name = "" := by simpa using hchars
    cases hmoves
  · have hc : c ≠ '/' := by
      rintro rfl
      exact hslash (by simp [hchars])
    cases names with
    | nil => exact ⟨c, rest, hc, hchars⟩
    | cons next names =>
      refine ⟨c, rest ++ '/' :: written (next :: names), hc, ?_⟩
      rw [written, map_cons, map_cons, joinWith, hchars, append_assoc]
      rfl

theorem takeWhile_written (h : ∀ name ∈ names, IsName name) : (written names).takeWhile (· == '/') = [] := by
  cases names with
  | nil => rfl
  | cons name names =>
    obtain ⟨c, rest, hc, hwritten⟩ := written_cons names (h name mem_cons_self)
    rw [hwritten, takeWhile_cons_of_neg (by simpa using hc)]

theorem toList_text (h : p.Clean) (hp : ¬ (p.root = "" ∧ p.parts = [])) :
    p.text.toList = p.root.toList ++ written p.parts := by
  have hbody : (p.root ++ "/".intercalate p.parts).toList = p.root.toList ++ written p.parts := by
    rw [String.toList_append, toList_intercalate]
  have hne : ¬ (p.root ++ "/".intercalate p.parts == "") := by
    intro e
    rw [beq_iff_eq.1 e] at hbody
    obtain ⟨hroot, hwritten⟩ := append_eq_nil_iff.1 hbody.symm
    refine hp ⟨by simpa using hroot, ?_⟩
    cases hparts : p.parts with
    | nil => rfl
    | cons name names =>
      obtain ⟨c, rest, -, hcons⟩ := written_cons names (h.names name (by simp [hparts]))
      rw [hparts, hcons] at hwritten
      cases hwritten
  rw [text, if_neg hne, hbody]

theorem names_text (hp : p.Clean) :
    ∃ still, Path.names p.text = still ++ p.parts ∧ ∀ name ∈ still, name = "" ∨ name = "." := by
  obtain ⟨root, parts⟩ := p
  have hwritten : (splitAt '/' (written parts)).map String.ofList = if parts = [] then [""] else parts := by
    split_ifs with hnil
    · rw [hnil]
      rfl
    · have hpieces : ∀ piece ∈ parts.map String.toList, '/' ∉ piece := by
        simpa using fun name hname => (hp.names name hname).2
      rw [written, splitAt_joinWith (by simpa using hnil) hpieces]
      simp
  have hparts : ∃ still, (if parts = [] then [""] else parts) = still ++ parts ∧
      ∀ name ∈ still, name = "" ∨ name = "." := by
    split_ifs with hnil
    · exact ⟨[""], by simp [hnil], by simp⟩
    · exact ⟨[], rfl, by simp⟩
  obtain ⟨still, hstill, hnames⟩ := hparts
  by_cases hempty : root = "" ∧ parts = []
  · obtain ⟨rfl, rfl⟩ := hempty
    exact ⟨["."], rfl, by simp⟩
  · have htext := toList_text hp hempty
    rw [Path.names, htext]
    rcases hp.root with h | h | h <;> simp only at h <;> subst h
    · refine ⟨still, ?_, hnames⟩
      rw [← hstill, ← hwritten]
      rfl
    · refine ⟨"" :: still, ?_, forall_mem_cons.2 ⟨.inl rfl, hnames⟩⟩
      have hslash : "/".toList ++ written parts = '/' :: written parts := rfl
      rw [hslash, splitAt_cons_sep, map_cons, hwritten, hstill]
      rfl
    · refine ⟨"" :: "" :: still, ?_, by simpa using hnames⟩
      have hslash : "//".toList ++ written parts = '/' :: '/' :: written parts := rfl
      rw [hslash, splitAt_cons_sep, splitAt_cons_sep, map_cons, map_cons, hwritten, hstill]
      rfl

theorem ofText_text (h : p.Clean) : ofText p.text = p := by
  obtain ⟨root, parts⟩ := p
  by_cases hp : root = "" ∧ parts = []
  · obtain ⟨rfl, rfl⟩ := hp
    rfl
  · have htext := toList_text h hp
    have hslashes := takeWhile_written h.names
    obtain ⟨still, hnames, hstill⟩ := names_text h
    have hparts : (ofText (mk root parts).text).parts = parts := by
      rw [ofText_parts, hnames, filter_append, filter_eq_nil_iff.2 fun name hname => ?_, nil_append]
      · exact filter_eq_self.2 fun name hname => (h.names name hname).1
      · rcases hstill name hname with rfl | rfl <;> decide
    refine congr (congrArg mk ?_) hparts
    rw [htext]
    rcases h.root with hroot | hroot | hroot
    all_goals
      subst hroot
      simp [hslashes]

theorem utf8ByteSize_text_le (hp : p.Clean) (hs : s ≠ "") (h : (p.root.toList ++ written p.parts).Sublist s.toList) :
    p.text.utf8ByteSize ≤ s.utf8ByteSize := by
  by_cases hempty : p.root = "" ∧ p.parts = []
  · have htext : p.text = "." := by simp [text, hempty]
    rw [htext]
    exact Nat.pos_of_ne_zero fun h => hs (String.utf8ByteSize_eq_zero_iff.1 h)
  · refine utf8ByteSize_le_of_sublist ?_
    rwa [toList_text hp hempty]

theorem written_parts_sublist (cs : List Char) :
    (written (((splitAt '/' cs).map String.ofList).filter moves)).Sublist cs := by
  have h := joinWith_sublist ['/']
    (filter_sublist (l := splitAt '/' cs) (p := fun piece => moves (String.ofList piece)))
  rw [joinWith_splitAt] at h
  rw [written, filter_map, map_map]
  simpa [Function.comp_def] using h

theorem root_written_sublist (s : String) : ((ofText s).root.toList ++ written (ofText s).parts).Sublist s.toList := by
  rw [ofText_parts, Path.names]
  rcases ofText_root s with ⟨-, hroot⟩ | ⟨cs, hs, hroot | ⟨cs', rfl, hroot⟩⟩
  · rw [hroot]
    exact written_parts_sublist _
  · rw [hroot, hs, splitAt_cons_sep]
    exact (written_parts_sublist cs).cons_cons _
  · rw [hroot, hs, splitAt_cons_sep, splitAt_cons_sep]
    exact ((written_parts_sublist cs').cons_cons _).cons_cons _

end Path

/-! ## Following a text -/

namespace Disk

variable {d : Disk} {s q : String} {p : Path} {names : List String}

theorem step_of_ok (h : d.step s place name = .ok place') (q : String) : d.step q place name = .ok place' := by
  rw [step] at h ⊢
  split at h
  · cases h
  · cases h
  · split_ifs at h ⊢ <;> exact h

theorem step_still (hn : moves name = false) (h : d.step s place name = .ok place') : place' = place := by
  rw [step] at h
  split at h
  · cases h
  · cases h
  · have hn : (name == "" || name == ".") = true := by simpa [moves, imp_iff_not_or, Decidable.not_not] using hn
    rw [if_pos hn] at h
    exact (Except.ok.inj h).symm

theorem foldlM_step_filter (h : names.foldlM (d.step s) start = .ok place) :
    (names.filter moves).foldlM (d.step q) start = .ok place := by
  induction names generalizing start with
  | nil => exact h
  | cons name names ih =>
    rw [foldlM_cons] at h
    cases hs : d.step s start name with
    | error f =>
      rw [hs] at h
      cases h
    | ok next =>
      rw [hs] at h
      by_cases hm : moves name
      · rw [filter_cons_of_pos hm, foldlM_cons, step_of_ok hs q]
        exact ih h
      · have hm : moves name = false := by simpa using hm
        obtain rfl := step_still hm hs
        rw [filter_cons_of_neg (by simp [hm])]
        exact ih h

def origin (folder p : Path) : List String := if p.isAbsolute then [] else folder.parts

theorem locate_eq_ite (d : Disk) (s : String) : d.locate s = if s.isEmpty then .error (.missing s)
    else if s.utf8ByteSize > maxPath then .error (.tooLong s)
    else (Path.names s).foldlM (d.step s) (origin d.folder (.ofText s)) := by
  have horigin : origin d.folder (.ofText s) = if s.toList.head? = some '/' then [] else d.folder.parts := by
    rw [origin]
    rcases ofText_root s with ⟨hhead, hroot⟩ | ⟨cs, hs, hroot⟩
    · rw [if_neg hhead, if_neg (by simp [isAbsolute, hroot])]
    · rw [hs]
      rcases hroot with hroot | ⟨_, -, hroot⟩ <;> simp [isAbsolute, hroot]
  rw [horigin]
  rfl

theorem isFolderAt_iff : d.isFolderAt place = true ↔ d.entry? place = some .folder := by
  rw [isFolderAt]
  split
  · rename_i he
    simp [he]
  · rename_i hne
    simp only [Bool.false_eq_true, false_iff]
    exact hne

theorem isFolderAt_of_step (h : d.step s place name = .ok place') : d.isFolderAt place = true := by
  rw [step] at h
  split at h
  · cases h
  · cases h
  · rename_i he
    exact isFolderAt_iff.2 he

theorem foldlM_step_still {still : List String} (hstill : ∀ name ∈ still, name = "" ∨ name = ".")
    (h : d.isFolderAt place = true) : (still ++ names).foldlM (d.step s) place = names.foldlM (d.step s) place := by
  induction still with
  | nil => rfl
  | cons name still ih =>
    rw [forall_mem_cons] at hstill
    have hstep : d.step s place name = .ok place := by
      rw [step, isFolderAt_iff.1 h]
      rcases hstill.1 with rfl | rfl <;> rfl
    rw [cons_append, foldlM_cons, hstep]
    exact ih hstill.2

theorem utf8ByteSize_le_of_locate (h : d.locate s = .ok place) : s.utf8ByteSize ≤ maxPath := by
  rw [locate] at h
  split_ifs at h with _ h₂
  all_goals exact Nat.le_of_not_lt h₂

theorem locate_text (h : d.isFolderAt (origin d.folder p) = true) (hp : p.Clean) : d.locate p.text =
    if p.text.utf8ByteSize > maxPath then .error (.tooLong p.text)
    else p.parts.foldlM (d.step p.text) (origin d.folder p) := by
  obtain ⟨still, hnames, hstill⟩ := names_text hp
  have horigin := (congrArg (origin d.folder) (ofText_text hp)).symm
  rw [locate_eq_ite, if_neg (by simp [text_ne_empty]), hnames, ← horigin, foldlM_step_still hstill h]

theorem locate_text_ofText (h : d.locate s = .ok place) : d.locate (ofText s).text = .ok place := by
  have hsize := utf8ByteSize_le_of_locate h
  rw [locate_eq_ite] at h
  split_ifs at h with hne
  have hfolder : d.isFolderAt (origin d.folder (ofText s)) = true := by
    -- a text has at least one name, and the first step starts at the origin
    obtain ⟨name, names, hnames⟩ := exists_cons_of_ne_nil (names_ne_nil s)
    rw [hnames, foldlM_cons] at h
    cases hstep : d.step s (origin d.folder (ofText s)) name with
    | error fault =>
      rw [hstep] at h
      cases h
    | ok next => exact isFolderAt_of_step hstep
  have hclean := clean_ofText s
  have hshort := Nat.le_trans (utf8ByteSize_text_le hclean (by simpa using hne) (root_written_sublist s)) hsize
  rw [locate_text hfolder hclean, if_neg (Nat.not_lt.2 hshort)]
  exact foldlM_step_filter h

end Disk

end Transclude
