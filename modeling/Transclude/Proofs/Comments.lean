import Mathlib.Data.List.Basic
import Transclude.Proofs.Codes

/-!
# Comments do not count

A search reads the code of lines from some line on as if the text began there, and takes a comment for code if that
line begins in it. Where this does not happen (`Apart`), the code of the lines alone decides on what is found
(`extract_of_codeLines_eq`).
-/

namespace Transclude.Symbol

open List

variable {membersOnly : Bool} {name : List Char} {signature : Option (List Char)} {language : Language}
  {extent : Extent}

/-! ## Where the search begins to read -/

def BeginsInCode (style : CommentStyle) (lines : List (List Char)) (k : Nat) : Prop :=
  modeAfter style .code (lines.take k) = .code

instance (style : CommentStyle) (lines : List (List Char)) (k : Nat) : Decidable (BeginsInCode style lines k) :=
  inferInstanceAs (Decidable (_ = _))

def declares (names : List (List Char)) (d : Declaration) (code : List Char) : Bool :=
  names.any fun name => Piece.fits name d.heading none code

/-- Whether comments and texts in quotes keep apart from the declarations of some names: a line in which one begins is
read as code from its start on, and so is the first line in which its members are looked for. -/
def Apart (language : Language) (names : List (List Char)) (lines : List (List Char)) : Prop :=
  ∀ k < lines.length, ∀ d ∈ language.declarations,
    declares names d ((codeLines language.comments .code lines).getD k []) = true →
      BeginsInCode language.comments lines k ∧
      ∀ j ∈ blockLine? language.comments lines d.extent k, BeginsInCode language.comments lines (j + 1)

instance (language : Language) (names lines : List (List Char)) : Decidable (Apart language names lines) :=
  inferInstanceAs (Decidable (∀ k < lines.length, ∀ d ∈ language.declarations, _ → _ ∧ ∀ j ∈ _, _))

def sought : List (List Char) → List (List Char)
  | [] => []
  | name :: rest => joins name rest ++ sought rest

structure Braced (language : Language) : Prop where
  extents : ∀ d ∈ language.declarations, d.extent ≠ .indentation
  notIndented : language.isIndented = false

theorem braced_of_mem (h : language ∈ [Language.cFamily, .csharp, .java]) : Braced language := by
  have hall : ∀ l ∈ [Language.cFamily, .csharp, .java],
      (∀ d ∈ l.declarations, d.extent ≠ .indentation) ∧ l.isIndented = false := by decide
  exact ⟨(hall language h).1, (hall language h).2⟩

/-! ## Searching the code -/

def scanOf (membersOnly : Bool) (extent : Extent) (last? : Nat → List Char → Option Nat) (depth : Int) (at_ : Nat) :
    List (List Char) → Option Located
  | [] => none
  | code :: rest =>
    ((if !membersOnly || depth == 0 then last? at_ code else none).map fun last => { first := at_, last, extent }).or
      (scanOf membersOnly extent last? (depth + braceBalance code) (at_ + 1) rest)

theorem scan_eq_scanOf {s : Search} (hs : s.language.isIndented = false) (d : Declaration) (mode : Mode) (depth : Int)
    (at_ : Nat) (range : List (List Char)) :
    s.scan d mode depth at_ range = scanOf s.membersOnly d.extent (s.lastLine? d) depth at_
      (codeLines s.language.comments mode range) := by
  induction range generalizing mode depth at_ with
  | nil => rfl
  | cons line rest ih =>
    have hadmits : s.admits depth line = (!s.membersOnly || depth == 0) := by simp [Search.admits, hs]
    simp only [Search.scan, codeLines, scanOf, hadmits, ih]
    generalize (if (!s.membersOnly || depth == 0) = true then
      s.lastLine? d at_ (codeLine s.language.comments mode line).1 else none) = found
    cases found with
    | none => rfl
    | some last => rfl

theorem scanOf_congr {f g : Nat → List Char → Option Nat} {depth : Int} {at_ : Nat} {codes : List (List Char)}
    (h : ∀ j code, codes[j]? = some code → f (at_ + j) code = g (at_ + j) code) :
    scanOf membersOnly extent f depth at_ codes = scanOf membersOnly extent g depth at_ codes := by
  induction codes generalizing depth at_ with
  | nil => rfl
  | cons code rest ih =>
    have hhere : f at_ code = g at_ code := h 0 code rfl
    have hrest : ∀ j code, rest[j]? = some code → f (at_ + 1 + j) code = g (at_ + 1 + j) code := by
      intro j code hj
      have := h (j + 1) code hj
      rwa [Nat.add_right_comm]
    simp only [scanOf, hhere, ih hrest]

/-! ## Names on the way -/

theorem sought_subset_of_suffix {left parts : List (List Char)} (h : left <:+ parts) : sought left ⊆ sought parts := by
  obtain ⟨front, rfl⟩ := h
  induction front with
  | nil => exact fun _ hn => hn
  | cons name front ih =>
    intro n hn
    exact mem_append_right _ (ih hn)

theorem findJoined_congr {lines₁ lines₂ rest : List (List Char)} {first last : Nat}
    (h : ∀ n ∈ joins name rest, ∀ signature' ∈ [none, signature],
      findName lines₁ language n signature' first last membersOnly =
        findName lines₂ language n signature' first last membersOnly) :
    findJoined lines₁ language signature first last membersOnly name rest =
      findJoined lines₂ language signature first last membersOnly name rest := by
  induction rest generalizing name with
  | nil => simp only [findJoined, h name (mem_singleton_self _) signature (by simp)]
  | cons part rest ih =>
    have hrest := ih fun n hn => h n (mem_cons_of_mem _ hn)
    simp only [findJoined, h name mem_cons_self none (by simp), hrest]

/-! ## Two texts with the same code -/

section Twins

variable {language : Language} {style : CommentStyle} {lines lines₁ lines₂ names : List (List Char)} {first last k : Nat}

theorem codeLines_drop_of_beginsInCode (h : BeginsInCode style lines k) :
    codeLines style .code (lines.drop k) = (codeLines style .code lines).drop k := by
  have hdrop := codeLines_drop style .code lines k
  rwa [show modeAfter style .code (lines.take k) = .code from h] at hdrop

theorem codeLines_linesBetween (h : BeginsInCode style lines first) :
    codeLines style .code (linesBetween lines first last) = linesBetween (codeLines style .code lines) first last := by
  unfold linesBetween
  by_cases hle : first ≤ last + 1
  · have hbegins : BeginsInCode style (lines.take (last + 1)) first := by
      unfold BeginsInCode
      rwa [take_take, Nat.min_eq_left hle]
    rw [codeLines_drop_of_beginsInCode hbegins, codeLines_take]
  · rw [drop_eq_nil_of_le (by simp; omega), drop_eq_nil_of_le (by simp; omega)]
    rfl

theorem declares_of_findName {found : Located} (hname : name ∈ names)
    (hfirst : BeginsInCode language.comments lines first)
    (h : findName lines language name signature first last membersOnly = some found) :
    found.first < lines.length ∧ ∃ d ∈ language.declarations, found.extent = d.extent ∧
      declares names d ((codeLines language.comments .code lines).getD found.first []) = true := by
  obtain ⟨d, hd, hscan⟩ := exists_of_findSome?_eq_some h
  obtain ⟨j, line, depth, code, hline, hat, -, hcode, hfits, hext, -⟩ := Search.scan_eq_some hscan
  rw [codeLines_linesBetween hfirst] at hcode
  have hline := (linesBetween_getElem? hline).1
  have hcode := (linesBetween_getElem? hcode).1
  rw [← hat] at hline hcode
  refine ⟨(List.getElem?_eq_some_iff.1 hline).1, d, hd, hext, ?_⟩
  rw [getD_eq_getElem?_getD, hcode]
  exact any_eq_true.2 ⟨name, hname, hfits⟩

variable (hcodes : codeLines style .code lines₁ = codeLines style .code lines₂)
include hcodes

theorem length_eq_of_codeLines_eq : lines₁.length = lines₂.length := by
  have := congrArg List.length hcodes
  simpa using this

theorem lastLine?_congr (h₁ : BeginsInCode style lines₁ k) (h₂ : BeginsInCode style lines₂ k)
    (hext : extent ≠ .indentation) : lastLine? lines₁ style extent k = lastLine? lines₂ style extent k := by
  cases extent with
  | braces =>
    simp only [lastLine?, closingLine?_eq, codeLines_drop_of_beginsInCode h₁, codeLines_drop_of_beginsInCode h₂, hcodes]
  | restOfFile => simp only [lastLine?, length_eq_of_codeLines_eq hcodes]
  | indentation => exact absurd rfl hext

theorem blockLine?_congr (h₁ : BeginsInCode style lines₁ k) (h₂ : BeginsInCode style lines₂ k) (extent : Extent) :
    blockLine? style lines₁ extent k = blockLine? style lines₂ extent k := by
  cases extent with
  | braces =>
    simp only [blockLine?, openingLine?_eq, codeLines_drop_of_beginsInCode h₁, codeLines_drop_of_beginsInCode h₂, hcodes]
  | restOfFile => rfl
  | indentation => rfl

theorem findName_congr (hlang : Braced language) (hstyle : language.comments = style) (hname : name ∈ names)
    (hapart₁ : Apart language names lines₁) (hapart₂ : Apart language names lines₂)
    (h₁ : BeginsInCode style lines₁ first) (h₂ : BeginsInCode style lines₂ first) :
    findName lines₁ language name none first last membersOnly =
      findName lines₂ language name none first last membersOnly := by
  subst hstyle
  unfold findName
  rw [← List.head?_filterMap, ← List.head?_filterMap]
  refine congrArg List.head? (filterMap_congr fun d hd => ?_)
  rw [scan_eq_scanOf hlang.notIndented, scan_eq_scanOf hlang.notIndented]
  rw [codeLines_linesBetween h₁, codeLines_linesBetween h₂, hcodes]
  apply scanOf_congr
  intro j code hj
  obtain ⟨hcode, -⟩ := linesBetween_getElem? hj
  unfold Search.lastLine?
  by_cases hfits : Piece.fits name d.heading none code = true
  · -- a declaration may begin here, so that the line begins in code in both texts
    have hlt := (List.getElem?_eq_some_iff.1 hcode).1
    have hdecl₂ : declares names d ((codeLines language.comments .code lines₂).getD (first + j) []) = true := by
      rw [getD_eq_getElem?_getD, hcode]
      exact any_eq_true.2 ⟨name, hname, hfits⟩
    have hdecl₁ := hdecl₂
    rw [← hcodes] at hdecl₁
    rw [length_codeLines] at hlt
    have hbegins₂ := (hapart₂ _ hlt d hd hdecl₂).1
    have hbegins₁ := (hapart₁ _ (by rwa [length_eq_of_codeLines_eq hcodes]) d hd hdecl₁).1
    rw [if_pos hfits, if_pos hfits]
    exact lastLine?_congr hcodes hbegins₁ hbegins₂ (hlang.extents d hd)
  · rw [if_neg hfits, if_neg hfits]

theorem locateFrom_congr {parts : List (List Char)} {fuel : Nat} (hlang : Braced language)
    (hstyle : language.comments = style) (hparts : sought parts ⊆ names) (hapart₁ : Apart language names lines₁)
    (hapart₂ : Apart language names lines₂) (h₁ : BeginsInCode style lines₁ first)
    (h₂ : BeginsInCode style lines₂ first) :
    locateFrom lines₁ language none first last membersOnly parts fuel =
      locateFrom lines₂ language none first last membersOnly parts fuel := by
  -- one name after the other; the members of what is found are looked for from a line that begins in code
  induction fuel generalizing parts membersOnly first last with
  | zero => rfl
  | succ fuel ih =>
    cases parts with
    | nil => rfl
    | cons name rest =>
      have hname : ∀ n ∈ joins name rest, n ∈ names := fun n hn => hparts (mem_append_left _ hn)
      have hjoined : findJoined lines₁ language none first last membersOnly name rest =
          findJoined lines₂ language none first last membersOnly name rest := by
        apply findJoined_congr
        intro n hn signature' hsignature
        obtain rfl : signature' = none := by simpa using hsignature
        exact findName_congr hcodes hlang hstyle (hname n hn) hapart₁ hapart₂ h₁ h₂
      rw [locateFrom_succ, locateFrom_succ, hjoined]
      rcases hfound : findJoined lines₂ language none first last membersOnly name rest with _ | ⟨found, left⟩
      · rfl
      · obtain ⟨hleft, n, hn, signature', hfind⟩ := findJoined_eq_some hfound
        subst hstyle
        obtain ⟨hlt, d, hd, hext, hdecl₂⟩ := declares_of_findName (hname n hn) h₂ hfind
        have hdecl₁ := hdecl₂
        rw [← hcodes] at hdecl₁
        obtain ⟨hbegins₁, hblock₁⟩ := hapart₁ _ (by rwa [length_eq_of_codeLines_eq hcodes]) d hd hdecl₁
        obtain ⟨hbegins₂, hblock₂⟩ := hapart₂ _ hlt d hd hdecl₂
        have hblock := blockLine?_congr hcodes hbegins₁ hbegins₂ d.extent
        simp only [Option.bind_some, goOn, hext, hblock]
        split
        · rfl
        · cases hline : blockLine? language.comments lines₂ d.extent found.first with
          | none => rfl
          | some line =>
            refine ih (fun m hm => hparts ?_) (hblock₁ line (hblock.trans hline)) (hblock₂ line hline)
            exact mem_append_right _ (sought_subset_of_suffix hleft hm)

end Twins

/-- Two texts with the same code in each line, in which comments and texts in quotes keep apart from the declarations
that are looked for: a symbol is found in the same lines of both, or in neither. -/
theorem extract_of_codeLines_eq {language : Language} {symbol content₁ content₂ : List Char}
    (hlang : language ∈ [Language.cFamily, .csharp, .java]) (hsymbol : (SymbolSpec.parse symbol).signature = none)
    (hcodes : codeLines language.comments .code (Text.lines content₁) =
      codeLines language.comments .code (Text.lines content₂))
    (hapart₁ : Apart language (sought (SymbolSpec.parse symbol).parts) (Text.lines content₁))
    (hapart₂ : Apart language (sought (SymbolSpec.parse symbol).parts) (Text.lines content₂)) :
    (extract language symbol content₁ = none ∧ extract language symbol content₂ = none) ∨
    ∃ found, locate language (.parse symbol) (Text.lines content₁) = some found ∧
      locate language (.parse symbol) (Text.lines content₂) = some found ∧
      extract language symbol content₁ = some (linesBetween (Text.lines content₁) found.first found.last) ∧
      extract language symbol content₂ = some (linesBetween (Text.lines content₂) found.first found.last) := by
  have hloc : locate language (.parse symbol) (Text.lines content₁) =
      locate language (.parse symbol) (Text.lines content₂) := by
    unfold locate
    rw [hsymbol, length_eq_of_codeLines_eq hcodes]
    exact locateFrom_congr hcodes (braced_of_mem hlang) rfl (List.Subset.refl _) hapart₁ hapart₂ rfl rfl
  unfold extract
  cases hfound : locate language (.parse symbol) (Text.lines content₂) with
  | none =>
    rw [hfound] at hloc
    exact .inl ⟨by simp [hloc], by simp [hfound]⟩
  | some found =>
    rw [hfound] at hloc
    exact .inr ⟨found, hloc, rfl, by simp [hloc], by simp [hfound]⟩

/-! ### Comments around a heading

A member is looked for in a class in which it stands in a comment first. The text without the comment, and with
another text in quotes, gives the same lines.
-/

namespace Commented

def noted : List Char := "class A \x7b\n  /* void f() \x7b\n  \x7d */\n  void f() \x7b s = \"\x7d\"; \x7d\n\x7d".toList

def plain : List Char := "class A \x7b\n  // f\n\n  void f() \x7b s = 'x'; \x7d// f\n\x7d".toList

def entangled : List Char := "/*\n\x7b */ class Foo \x7b\n\x7d\n".toList

def cleared : List Char := "\n class Foo \x7b\n\x7d\n".toList

end Commented

theorem extract_beside_comments : (codeLines CommentStyle.slashes .code (Text.lines Commented.noted) =
      codeLines CommentStyle.slashes .code (Text.lines Commented.plain) ∧
    Apart .java (sought (SymbolSpec.parse "A.f".toList).parts) (Text.lines Commented.noted) ∧
    Apart .java (sought (SymbolSpec.parse "A.f".toList).parts) (Text.lines Commented.plain)) ∧
    ∃ found, found.first = 3 ∧ found.last = 3 ∧
      locate .java (.parse "A.f".toList) (Text.lines Commented.noted) = some found ∧
      locate .java (.parse "A.f".toList) (Text.lines Commented.plain) = some found := by
  have hfacts : (codeLines Language.java.comments .code (Text.lines Commented.noted) =
      codeLines Language.java.comments .code (Text.lines Commented.plain) ∧
      Apart .java (sought (SymbolSpec.parse "A.f".toList).parts) (Text.lines Commented.noted) ∧
      Apart .java (sought (SymbolSpec.parse "A.f".toList).parts) (Text.lines Commented.plain)) ∧
      locate .java (.parse "A.f".toList) (Text.lines Commented.noted) = some ⟨3, 3, .braces⟩ := by
    decide
  obtain ⟨⟨hcodes, hapart₁, hapart₂⟩, hplace⟩ := hfacts
  refine ⟨⟨hcodes, hapart₁, hapart₂⟩, ?_⟩
  rcases extract_of_codeLines_eq (by simp) (by decide) hcodes hapart₁ hapart₂ with
    ⟨hnone, -⟩ | ⟨found, hfound₁, hfound₂, -⟩
  · rw [extract, hplace] at hnone
    cases hnone
  · obtain rfl := Option.some.inj (hplace.symm.trans hfound₁)
    exact ⟨_, rfl, rfl, hfound₁, hfound₂⟩

/-- A comment that ends in the line of a heading decides on whether the declaration is found: its brace is counted. -/
theorem extract_after_comment : codeLines Language.csharp.comments .code (Text.lines Commented.entangled) =
      codeLines Language.csharp.comments .code (Text.lines Commented.cleared) ∧
    (SymbolSpec.parse "Foo".toList).signature = none ∧
    extract .csharp "Foo".toList Commented.entangled = none ∧
    extract .csharp "Foo".toList Commented.cleared = some [" class Foo \x7b".toList, "\x7d".toList] := by
  decide

end Transclude.Symbol
