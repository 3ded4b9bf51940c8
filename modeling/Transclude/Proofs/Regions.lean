import Mathlib.Data.List.Forall2
import Transclude.Proofs.Blocks
import Transclude.Proofs.Clearing
import Transclude.Proofs.Letters
import Transclude.Source.Region

/-!
# Regions between markers

A marker is a comment with the words of a template in any letter case and the name of a region (`Marks`), and the lines
that are taken for markers are these (`isMarker_iff`). A region is what stands between its first start marker and the
next end marker, and there is none exactly if no start marker is followed by an end marker (`extract_marked`).
-/

namespace Transclude

open List

variable {words name line cs rest : List Char}

/-! ## Letters that are the same -/

namespace Text

theorem isBlank_eq_of_sameLetter {a b : Char} (h : sameLetter a b = true) : isBlank a = isBlank b := by
  have htwins : ∀ twins ∈ letterTwins, ∀ n ∈ twins, ∀ r ∈ blankRanges, n < r.1 ∨ r.2 < n := by decide
  rw [← isBlank_lowerChar a, ← isBlank_lowerChar b]
  simp only [sameLetter, Bool.or_eq_true, beq_iff_eq, any_eq_true, Bool.and_eq_true, contains_iff_mem] at h
  rcases h with h | ⟨twins, hmem, ha, hb⟩
  · rw [h]
  · rw [isBlank_eq_false (htwins twins hmem _ ha), isBlank_eq_false (htwins twins hmem _ hb)]

theorem afterWords?_eq_some_iff : afterWords? words cs = some rest ↔
    ∃ written, cs = written ++ rest ∧ List.Forall₂ (fun w c => sameLetter w c = true) words written := by
  induction words generalizing cs with
  | nil => simp [afterWords?, forall₂_nil_left_iff]
  | cons w words ih =>
    cases cs with
    | nil => simp [afterWords?, forall₂_nil_right_iff]
    | cons c cs =>
      rw [afterWords?]
      split_ifs with hletter <;> simp [ih, forall₂_cons_left_iff, hletter]

end Text

namespace Region

open Transclude.Text

/-! ## Markers -/

/-- A comment with the words of a template and a name, which ends the line or is followed by a blank. -/
def Marks (words name line : List Char) : Prop :=
  ∃ before gap written after tail, ∃ opener ∈ commentOpeners,
    line = before ++ (opener ++ (gap ++ (written ++ (after ++ (name ++ tail))))) ∧ allBlank before ∧ allBlank gap ∧
    allBlank after ∧ List.Forall₂ (fun w c => sameLetter w c) words written ∧ ∀ c ∈ tail.head?, isBlank c

theorem trimStart_blank {c : Char} (h : isBlank c = true) (cs : List Char) : trimStart (c :: cs) = trimStart cs :=
  dropWhile_cons_of_pos h

theorem trimStart_other {c : Char} (h : isBlank c = false) (cs : List Char) : trimStart (c :: cs) = c :: cs :=
  dropWhile_cons_of_neg (by simp [h])

theorem firstWord?_eq_some_iff : firstWord? cs = some name ↔ name ≠ [] ∧ (∀ c ∈ name, isBlank c = false) ∧
    ∃ after tail, cs = after ++ (name ++ tail) ∧ allBlank after ∧ ∀ c ∈ tail.head?, isBlank c := by
  have hsome : firstWord? cs = some name ↔ name ≠ [] ∧ (trimStart cs).takeWhile (!isBlank ·) = name := by
    rw [firstWord?]
    split
    · rename_i hnil
      rw [hnil]
      exact ⟨fun h => (by cases h), fun h => absurd h.2.symm h.1⟩
    · rename_i hne
      rw [Option.some.injEq]
      exact ⟨fun h => ⟨h ▸ hne, h⟩, fun h => h.2⟩
  rw [hsome]
  refine and_congr_right fun hne => ⟨?_, ?_⟩
  · rintro rfl
    refine ⟨fun c hc => by simpa using mem_takeWhile_imp hc, cs.takeWhile isBlank,
      (trimStart cs).dropWhile (!isBlank ·), ?_, all_takeWhile, fun c hc => ?_⟩
    · rw [takeWhile_append_dropWhile, trimStart, takeWhile_append_dropWhile]
    · have hhead := head?_dropWhile_not (!isBlank ·) (trimStart cs)
      rw [Option.mem_def.1 hc] at hhead
      simpa using hhead
  · rintro ⟨hname, after, tail, rfl, hafter, htail⟩
    obtain ⟨c, name, rfl⟩ := exists_cons_of_ne_nil hne
    have hrest : tail.takeWhile (!isBlank ·) = [] := by
      cases tail with
      | nil => rfl
      | cons d tail => rw [takeWhile_cons_of_neg (by simp [htail d rfl])]
    rw [trimStart_append hafter, cons_append, trimStart_other (hname c mem_cons_self), ← cons_append,
      takeWhile_append_of_pos (fun d hd => by simp [hname d hd]), hrest, append_nil]

/-- However the words are laid over the blanks before them, they lead to the same name. -/
theorem trimmed_of_afterWords? (h : (afterWords? words cs).bind firstWord? = some name) :
    (afterWords? (trimStart words) (trimStart cs)).bind firstWord? = some name := by
  induction words generalizing cs with
  | nil =>
    have hagain : trimStart (trimStart cs) = trimStart cs := dropWhile_idempotent _ _
    change firstWord? (trimStart cs) = some name
    rwa [firstWord?, hagain]
  | cons w words ih =>
    cases cs with
    | nil => cases h
    | cons c cs =>
      rw [afterWords?] at h
      split_ifs at h with hletter
      swap
      · cases h
      have hblank := isBlank_eq_of_sameLetter hletter
      cases hw : isBlank w with
      | true =>
        rw [trimStart_blank hw, trimStart_blank (hblank ▸ hw)]
        exact ih h
      | false =>
        rw [trimStart_other hw, trimStart_other (hblank ▸ hw), afterWords?, if_pos hletter]
        exact h

theorem trimmed_of_nameAfterWords? (h : nameAfterWords? words cs = some name) :
    (afterWords? (trimStart words) (trimStart cs)).bind firstWord? = some name := by
  induction cs with
  | nil => exact trimmed_of_afterWords? h
  | cons c cs ih =>
    rw [nameAfterWords?] at h
    split_ifs at h with hc
    · rcases Option.or_eq_some_iff.1 h with h | ⟨-, h⟩
      · rw [trimStart_blank hc]
        exact ih h
      · exact trimmed_of_afterWords? h
    · exact trimmed_of_afterWords? h

theorem nameAfterWords?_eq_some_iff : nameAfterWords? words cs = some name ↔
    ∃ gap rest, cs = gap ++ rest ∧ allBlank gap ∧ (afterWords? words rest).bind firstWord? = some name := by
  constructor
  · intro h
    induction cs with
    | nil => exact ⟨[], [], rfl, rfl, h⟩
    | cons c cs ih =>
      rw [nameAfterWords?] at h
      split_ifs at h with hc
      · rcases Option.or_eq_some_iff.1 h with h | ⟨-, h⟩
        · obtain ⟨gap, rest, rfl, hgap, h⟩ := ih h
          exact ⟨c :: gap, rest, rfl, by simp_all [allBlank], h⟩
        · exact ⟨[], _, rfl, rfl, h⟩
      · exact ⟨[], _, rfl, rfl, h⟩
  · rintro ⟨gap, rest, rfl, hgap, h⟩
    have hsome : (nameAfterWords? words (gap ++ rest)).isSome = true := by
      induction gap with
      | nil =>
        cases rest with
        | nil => rw [nil_append, nameAfterWords?, h]; rfl
        | cons c rest =>
          rw [nil_append, nameAfterWords?, h]
          split_ifs <;> simp
      | cons c gap ih =>
        rw [allBlank, all_cons, Bool.and_eq_true] at hgap
        rw [cons_append, nameAfterWords?, if_pos hgap.1]
        simp [ih hgap.2]
    obtain ⟨found, hfound⟩ := Option.isSome_iff_exists.1 hsome
    have hname := trimmed_of_nameAfterWords? hfound
    rw [trimStart_append hgap, trimmed_of_afterWords? h] at hname
    rw [hfound, hname]

theorem of_mem_openers {opener : List Char} (h : opener ∈ commentOpeners) (rest : List Char) :
    afterOpener? (opener ++ rest) = some rest ∧ trimStart (opener ++ rest) = opener ++ rest := by
  simp only [commentOpeners, mem_cons, not_mem_nil, or_false] at h
  rcases h with rfl | rfl | rfl | rfl <;> exact ⟨rfl, rfl⟩

theorem isMarker_iff (hne : name ≠ []) (hname : ∀ c ∈ name, isBlank c = false) (template line : List Char) :
    isMarker template name line = true ↔ Marks (upTo tagMark template) name line := by
  rw [isMarker, beq_iff_eq, markerName?]
  simp only [Option.bind_eq_some_iff, nameAfterWords?_eq_some_iff, afterWords?_eq_some_iff, firstWord?_eq_some_iff]
  constructor
  · rintro ⟨_, hopened, gap, _, rfl, hgap, _, ⟨written, rfl, hwords⟩, -, -, after, tail, rfl, hafter, htail⟩
    obtain ⟨opener, hopener, hline⟩ := exists_of_findSome?_eq_some hopened
    refine ⟨line.takeWhile isBlank, gap, written, after, tail, opener, hopener, ?_, all_takeWhile, hgap, hafter, hwords,
      htail⟩
    rw [← Block.after?_eq_some_iff.1 hline, trimStart, takeWhile_append_dropWhile]
  · rintro ⟨before, gap, written, after, tail, opener, hopener, rfl, hbefore, hgap, hafter, hwords, htail⟩
    obtain ⟨hopened, hstart⟩ := of_mem_openers hopener (gap ++ (written ++ (after ++ (name ++ tail))))
    rw [trimStart_append hbefore, hstart]
    exact ⟨_, hopened, gap, _, rfl, hgap, _, ⟨written, rfl, hwords⟩, hne, hname, after, tail, rfl, hafter, htail⟩

/-! ## What stands between them -/

theorem linesBefore?_eq {template : List Char} {body after : List (List Char)} {last : List Char}
    (hbody : ∀ l ∈ body, isMarker template name l = false) (hlast : isMarker template name last = true) :
    linesBefore? template name (body ++ last :: after) = some body := by
  induction body with
  | nil => rw [nil_append, linesBefore?, if_pos hlast]
  | cons l body ih =>
    rw [forall_mem_cons] at hbody
    rw [cons_append, linesBefore?, if_neg (by simp [hbody.1]), ih hbody.2]
    rfl

theorem linesBefore?_eq_none_iff {template : List Char} {ls : List (List Char)} :
    linesBefore? template name ls = none ↔ ∀ last ∈ ls, ¬isMarker template name last = true := by
  induction ls with
  | nil => simp [linesBefore?]
  | cons l ls ih =>
    rw [linesBefore?, forall_mem_cons, ← ih]
    split_ifs with hl <;> simp [hl]

theorem extractLines_eq_none_iff {start stop : List Char} {ls : List (List Char)} :
    extractLines start stop name ls = none ↔ ∀ first last, [first, last] <+ ls → isMarker start name first = true →
      ¬isMarker stop name last = true := by
  induction ls with
  | nil => simp [extractLines]
  | cons l ls ih =>
    cases hl : isMarker start name l with
    | true =>
      have hfirst : extractLines start stop name (l :: ls) = linesBefore? stop name ls := by simp [extractLines, hl]
      rw [hfirst, linesBefore?_eq_none_iff]
      constructor
      · intro h first last hsub _
        exact h last (singleton_sublist.1 hsub.tail)
      · exact fun h last hlast => h l last ((singleton_sublist.2 hlast).cons_cons l) hl
    | false =>
      have hrest : extractLines start stop name (l :: ls) = extractLines start stop name ls := by simp [extractLines, hl]
      rw [hrest, ih]
      refine ⟨fun h first last hsub hfirst => ?_, fun h first last hsub => h first last (hsub.cons l)⟩
      rcases sublist_cons_iff.1 hsub with hsub | ⟨_, heq, -⟩
      · exact h first last hsub hfirst
      · obtain ⟨rfl, -⟩ := List.cons.inj heq
        simp [hl] at hfirst

/-- Of lines that are joined by line feeds, with or without carriage returns, a region has what stands between its
first start marker and the next end marker. There is none exactly if no start marker is followed by an end marker. -/
theorem extract_marked {start stop name : String} {sep : List Char} {ls : List (List Char)} (hne : name.toList ≠ [])
    (hname : ∀ c ∈ name.toList, isBlank c = false) (hsep : sep = ['\n'] ∨ sep = ['\r', '\n']) (hls : ls ≠ [])
    (hlines : ∀ line ∈ ls, Unbroken line) :
    let Starts := Marks (upTo tagMark start.toList) name.toList
    let Ends := Marks (upTo tagMark stop.toList) name.toList
    (∀ before first body last after, ls = before ++ first :: (body ++ last :: after) → (∀ line ∈ before, ¬Starts line) →
      Starts first → (∀ line ∈ body, ¬Ends line) → Ends last →
      extract start stop name (joinWith sep ls) = some body) ∧
    (extract start stop name (joinWith sep ls) = none ↔
      ∀ first last, [first, last] <+ ls → Starts first → ¬Ends last) := by
  intro Starts Ends
  have hmarks := isMarker_iff hne hname
  rw [extract, lines_joinWith hsep hls hlines, trim_token hname, extractLines_eq_none_iff]
  constructor
  · rintro before first body last after rfl hbefore hfirst hbody hlast
    have hskip : ∀ line ∈ before, (!isMarker start.toList name.toList line) = true := fun line hline => by
      simpa [Starts, ← hmarks] using hbefore line hline
    rw [extractLines, dropWhile_append_of_pos hskip, dropWhile_cons_of_neg (by simpa [hmarks] using hfirst)]
    refine linesBefore?_eq (fun line hline => ?_) ((hmarks _ _).2 hlast)
    simpa [Ends, ← hmarks] using hbody line hline
  · simp only [Starts, Ends, hmarks]

/-- A marker with a longer name, and a second start marker within the region. -/
theorem extract_marked_twice : extract defaultStart defaultEnd "r"
    "a\r\n// MD.start: r2\r\n  # md.Start:r\r\nb\r\n<!-- md.start:r -->\r\n/*MD.END: r */\r\nc".toList =
      some ["b".toList, "<!-- md.start:r -->".toList] := by
  have hname : ∀ c ∈ ['r'], isBlank c = false := forall_mem_singleton.2 rfl
  have hmarks := isMarker_iff (show "r".toList ≠ [] by decide) hname
  refine (@extract_marked defaultStart defaultEnd "r" ['\r', '\n'] ["a".toList, "// MD.start: r2".toList,
    "  # md.Start:r".toList, "b".toList, "<!-- md.start:r -->".toList, "/*MD.END: r */".toList, "c".toList] (by decide)
    hname (.inr rfl) (cons_ne_nil _ _) (by decide)).1 ["a".toList, "// MD.start: r2".toList] _ _ _ ["c".toList] rfl
    ?_ ?_ ?_ ?_
  all_goals
    simp only [← hmarks]
    decide

end Region

end Transclude
