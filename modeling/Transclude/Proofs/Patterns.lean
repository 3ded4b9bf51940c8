import Mathlib.Data.List.Infix
import Transclude.Proofs.Listing

/-!
# What patterns select

A pattern is cut at its first name with a star. What is before it is the folder that is searched, and of what follows
only one thing matters: whether there are two stars in it (`expand_selects`). So `docs/**` and `docs/*.md` select what
they say, but `docs/*/intro.md` does not.
-/

namespace Transclude

open List Path Text

def hasStars (name : String) : Bool := contains ['*', '*'] name.toList

theorem contains_stars (cs : List Char) :
    contains ['*', '*'] cs = (splitAt '/' cs).any (contains ['*', '*'] ·) := by
  induction cs with
  | nil => rfl
  | cons c cs ih =>
    rw [Text.contains, ih]
    by_cases hc : c = '/'
    · subst hc
      rw [splitAt_cons_sep]
      rfl
    · rw [Text.splitAt, if_neg (by simpa using hc)]
      rcases cs with _ | ⟨c', cs⟩
      · simp [Text.splitAt, Text.contains]
      · by_cases hc' : c' = '/'
        · subst hc'
          simp [splitAt_cons_sep, Text.contains, isPrefixOf]
        · rw [Text.splitAt, if_neg (by simpa using hc')]
          cases Text.splitAt '/' cs <;> simp [Text.contains, isPrefixOf, Bool.or_assoc]

theorem contains_eq_false (cs : List Char) (h : '*' ∉ cs) : contains ['*', '*'] cs = false := by
  induction cs with
  | nil => rfl
  | cons c cs ih =>
    rw [mem_cons, not_or] at h
    simp [Text.contains, isPrefixOf, h.1, ih h.2]

namespace Wildcard

/-- Whether names fit the names of a pattern. Two stars stand for any number of folders, and at the end of a pattern for
what is in them. -/
def fits : List String → List String → Bool
  | [], names => names.isEmpty
  | w :: ws, names =>
    if w == "**" then if ws.isEmpty then !names.isEmpty else names.tails.any (fits ws)
    else match names with
      | [] => false
      | name :: names => accepts w name && fits ws names

theorem accepts_star (name : String) : accepts "*" name = true := by
  have htail : ∀ cs : List Char, anyTail (fitsAll []) cs = true := by
    intro cs
    induction cs with
    | nil => rfl
    | cons c cs ih => rw [anyTail, ih, Bool.or_true]
  exact htail name.toList

theorem fits_singleton {w : String} (hw : (w == "**") = false) (names : List String) (name : String) :
    fits [w] (names ++ [name]) = true ↔ names = [] ∧ accepts w name = true := by
  cases names <;> simp [fits, hw]

theorem fits_stars {w : String} (hw : (w == "**") = false) (names : List String) {name : String}
    (h : accepts w name = true) : fits ["**", w] (names ++ [name]) = true := by
  have hfits : fits ["**", w] (names ++ [name]) = (names ++ [name]).tails.any (fits [w]) := rfl
  rw [hfits, any_eq_true]
  exact ⟨[name], (mem_tails ..).2 (suffix_append ..), (fits_singleton hw [] name).2 ⟨rfl, h⟩⟩

end Wildcard

namespace Disk

variable {d : Disk} {input name file : String} {names : List String}

/-- The names of a pattern from the first with a star on. -/
def rest (input : String) : List String := (ofText input).parts.dropWhile fun part => !part.toList.contains '*'

theorem contains_stars_eq (input : String) : contains ['*', '*'] input.toList = (rest input).any hasStars := by
  have hnames : contains ['*', '*'] input.toList = (Path.names input).any hasStars := by
    rw [contains_stars, Path.names, any_map]
    simp [Function.comp_def, hasStars]
  have hparts : (ofText input).parts.any hasStars = (Path.names input).any hasStars := by
    rw [ofText_parts, any_filter]
    refine any_congr rfl fun name => ?_
    by_cases hmoves : moves name = true
    · rw [hmoves, Bool.true_and]
    · obtain rfl | rfl : name = "" ∨ name = "." := by simpa [moves, Decidable.or_iff_not_imp_left] using hmoves
      all_goals rfl
  have hfront : ((ofText input).parts.takeWhile fun part => !part.toList.contains '*').any hasStars = false := by
    refine any_eq_false.2 fun name hname hstars => ?_
    have hfree := all_eq_true.1 all_takeWhile name hname
    rw [hasStars, contains_eq_false name.toList (by simpa using hfree)] at hstars
    cases hstars
  rw [hnames, ← hparts, rest]
  nth_rewrite 1 [← takeWhile_append_dropWhile (p := fun part => !part.toList.contains '*') (l := (ofText input).parts)]
  rw [any_append, hfront, Bool.false_or]

/-- Whether a text is that of a document below the searched folder whose names fit a pattern. -/
def Selected (d : Disk) (input : String) (pattern : List String) (file : String) : Prop :=
  ∃ names name, file = (child (searched input) (names ++ [name])).text ∧ d.HasDocument (searched input) names name ∧
    Wildcard.fits pattern (names ++ [name]) = true

def simple : List (List String) := [["*"], [documentPattern], ["**"], ["**", "*"], ["**", documentPattern]]

/-- What is left of a pattern. -/
def reduced (pattern : List String) : List String :=
  if pattern.any hasStars then ["**", documentPattern] else [documentPattern]

theorem fits_simple {pattern : List String} (h : pattern ∈ simple)
    (hname : Wildcard.accepts documentPattern name = true) :
    Wildcard.fits pattern (names ++ [name]) = true ↔ pattern.any hasStars = true ∨ names = [] := by
  have hstars : (["*", documentPattern, "**"].map hasStars, ["*", documentPattern].map (· == "**")) =
      ([false, false, true], [false, false]) := by decide
  simp only [map_cons, map_nil, Prod.mk.injEq, cons.injEq, and_true] at hstars
  obtain ⟨⟨hstar, hdocument, htwo⟩, hne, hne'⟩ := hstars
  simp only [simple, mem_cons, not_mem_nil, or_false] at h
  rcases h with rfl | rfl | rfl | rfl | rfl
  · simp [Wildcard.fits_singleton hne, Wildcard.accepts_star, hstar]
  · simp [Wildcard.fits_singleton hne', hname, hdocument]
  · simp [Wildcard.fits, htwo]
  · simp [Wildcard.fits_stars hne, Wildcard.accepts_star, htwo]
  · simp [Wildcard.fits_stars hne', hname, htwo]

theorem reduced_mem_simple (pattern : List String) : reduced pattern ∈ simple := by
  rw [reduced]
  split_ifs <;> simp [simple]

theorem any_hasStars_reduced (pattern : List String) : (reduced pattern).any hasStars = pattern.any hasStars := by
  have hstars : ["**", documentPattern].any hasStars = true ∧ [documentPattern].any hasStars = false := by decide
  rw [reduced]
  split_ifs with h
  · rw [hstars.1, h]
  · rw [hstars.2, Bool.eq_false_iff.2 h]

/-- A pattern selects documents, in order and each once: all that fit what is left of it. If the pattern is simple,
these are the ones that fit the pattern. -/
theorem expand_selects (hd : d.Tidy) (input : String) :
    ∃ files, d.expand input documentPattern = .ok files ∧ files.Pairwise (· < ·) ∧
      (∀ file, file ∈ files ↔ d.Selected input (reduced (rest input)) file) ∧
      (rest input ∈ simple → ∀ file, file ∈ files ↔ d.Selected input (rest input) file) := by
  obtain ⟨files, hfiles, hsorted, hmem⟩ := expand_listed (fun base _ => hd.below base) hd.nodup
  have hselects : ∀ pattern ∈ simple, pattern.any hasStars = (rest input).any hasStars →
      ∀ file, file ∈ files ↔ d.Selected input pattern file := by
    intro pattern hpattern hstars file
    rw [hmem, Selected, contains_stars_eq, ← hstars]
    refine exists_congr fun names => exists_congr fun name => and_congr_right fun _ => and_congr_right fun hdoc => ?_
    exact (fits_simple hpattern hdoc.accepted).symm
  exact ⟨files, hfiles, hsorted, hselects _ (reduced_mem_simple _) (any_hasStars_reduced _), fun h => hselects _ h rfl⟩

/-! ### A disk with two documents -/

def guides : Disk where
  folder := { root := "/", parts := ["p"] }
  entries := [(["p"], .folder), (["p", "docs"], .folder), (["p", "docs", "a.md"], .file .empty),
    (["p", "docs", "guide"], .folder), (["p", "docs", "guide", "intro.md"], .file .empty)]

theorem tidy_guides : guides.Tidy where
  canonical := ⟨rfl, by simp only [Path.IsName]; decide, by decide⟩
  reached := by
    rw [Reached]
    decide
  isFolder := rfl
  names := by
    simp only [Path.IsName]
    decide
  rooted := by
    simp only [Reached]
    decide
  nodup := by decide

theorem expand_guides : guides.Tidy ∧ ∃ files, guides.expand "docs/**" documentPattern = .ok files ∧
    files = ["docs/a.md", "docs/guide/intro.md"] ∧ ∀ file ∈ files, guides.Selected "docs/**" ["**"] file := by
  have hfiles : (guides.expand "docs/**" documentPattern).toOption = some ["docs/a.md", "docs/guide/intro.md"] ∧
      rest "docs/**" = ["**"] ∧ rest "docs/**" ∈ simple := by decide
  obtain ⟨files, hexpand, -, -, hselects⟩ := expand_selects tidy_guides "docs/**"
  rw [hexpand] at hfiles
  refine ⟨tidy_guides, files, hexpand, Option.some.inj hfiles.1, fun file hfile => ?_⟩
  rw [← hfiles.2.1]
  exact (hselects hfiles.2.2 file).1 hfile

/-- A document that the pattern excludes is selected, and the one that it asks for is not. -/
theorem expand_past_pattern : rest "docs/*/intro.md" = ["*", "intro.md"] ∧
    (guides.expand "docs/*/intro.md" documentPattern).toOption = some ["docs/a.md"] ∧
    Wildcard.fits ["*", "intro.md"] ["a.md"] = false ∧
    Wildcard.fits ["*", "intro.md"] ["guide", "intro.md"] = true := by
  decide

end Disk

end Transclude
