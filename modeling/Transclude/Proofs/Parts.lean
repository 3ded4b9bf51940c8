import Transclude.Proofs.Codes

/-!
# The parts of lines

Every character of a line stands in code, in a comment or in a text in quotes (`partsFrom`). The two ways to go
through a line keep the characters of some parts (`codeFrom_eq`, `textFrom_eq`), so they agree line after line
(`scans_agree`).
-/

namespace Transclude

variable {style : CommentStyle} {cs : List Char} {c : Char}

/-! ## Parts -/

inductive Part where
  | code
  | comment
  | quoted
deriving Repr, DecidableEq

namespace Part

def chars (parts : List (Char × Part)) : List Char := parts.map (·.1)

def shown (parts : List (Char × Part)) : List (Char × Part) := parts.filter (·.2 ≠ .comment)

def unquoted (parts : List (Char × Part)) : List (Char × Part) := parts.filter (·.2 ≠ .quoted)

variable {c : Char} {part : Part} {parts : List (Char × Part)}

@[simp] theorem chars_nil : chars [] = [] := rfl

@[simp] theorem chars_cons : chars ((c, part) :: parts) = c :: chars parts := rfl

@[simp] theorem shown_nil : shown [] = [] := rfl

@[simp] theorem shown_comment : shown ((c, .comment) :: parts) = shown parts := rfl

theorem shown_cons (h : part ≠ .comment) : shown ((c, part) :: parts) = (c, part) :: shown parts :=
  List.filter_cons_of_pos (by simpa using h)

@[simp] theorem unquoted_nil : unquoted [] = [] := rfl

@[simp] theorem unquoted_quoted : unquoted ((c, .quoted) :: parts) = unquoted parts := rfl

theorem unquoted_cons (h : part ≠ .quoted) : unquoted ((c, part) :: parts) = (c, part) :: unquoted parts :=
  List.filter_cons_of_pos (by simpa using h)

end Part

/-! ## Steps -/

namespace Mode

def passing : Mode → Part
  | .quoted _ => .quoted
  | _ => .comment

structure Step where
  part : Part
  mode : Mode
  skip : Nat
deriving Repr, DecidableEq

def step (style : CommentStyle) (mode : Mode) (c : Char) (cs : List Char) : Step :=
  match mode with
  | .comment =>
    match CommentStyle.markLength? style.blockEnd (c :: cs) with
    | some n => ⟨.comment, .code, n - 1⟩
    | none => ⟨.comment, .comment, 0⟩
  | .quoted q => if c == '\\' then ⟨.quoted, .quoted q, 1⟩ else ⟨.quoted, if c == q then .code else .quoted q, 0⟩
  | .code =>
    if (CommentStyle.markLength? style.line (c :: cs)).isSome then ⟨.comment, .code, cs.length⟩
    else
      match CommentStyle.markLength? style.blockStart (c :: cs) with
      | some n => ⟨.comment, .comment, n - 1⟩
      | none => if style.isQuote c then ⟨.quoted, .quoted c, 0⟩ else ⟨.code, .code, 0⟩

end Mode

abbrev Parted := List (Char × Part) × Mode

def Parted.cons (c : Char) (part : Part) (rest : Parted) : Parted := ((c, part) :: rest.1, rest.2)

@[simp] theorem Parted.cons_fst (c : Char) (part : Part) (rest : Parted) : (rest.cons c part).1 = (c, part) :: rest.1 :=
  rfl

@[simp] theorem Parted.cons_snd (c : Char) (part : Part) (rest : Parted) : (rest.cons c part).2 = rest.2 := rfl

def partsFrom (style : CommentStyle) : Mode → Nat → List Char → Parted
  | mode, _, [] => ([], mode)
  | mode, skip + 1, c :: cs => (partsFrom style mode skip cs).cons c mode.passing
  | mode, 0, c :: cs =>
    let s := mode.step style c cs
    (partsFrom style s.mode s.skip cs).cons c s.part

section Parts

variable (style : CommentStyle) (mode : Mode)

@[simp] theorem partsFrom_nil (skip : Nat) : partsFrom style mode skip [] = ([], mode) := by
  rw [partsFrom]

@[simp] theorem partsFrom_succ (skip : Nat) (c : Char) (cs : List Char) :
    partsFrom style mode (skip + 1) (c :: cs) = (partsFrom style mode skip cs).cons c mode.passing := by
  rw [partsFrom]

theorem partsFrom_zero (c : Char) (cs : List Char) : partsFrom style mode 0 (c :: cs) =
      (partsFrom style (mode.step style c cs).mode (mode.step style c cs).skip cs).cons c
        (mode.step style c cs).part := by
  rw [partsFrom]

theorem chars_partsFrom (skip : Nat) (cs : List Char) : Part.chars (partsFrom style mode skip cs).1 = cs := by
  induction cs generalizing mode skip with
  | nil => simp
  | cons c cs ih =>
    cases skip with
    | zero => simp [partsFrom_zero, ih]
    | succ skip => simp [ih]

theorem partsFrom_rest {skip : Nat} (h : cs.length ≤ skip) :
    partsFrom style mode skip cs = (cs.map (·, mode.passing), mode) := by
  induction cs generalizing skip with
  | nil => simp
  | cons c cs ih =>
    cases skip with
    | zero => simp at h
    | succ skip => simp [ih (Nat.le_of_succ_le_succ h), Parted.cons]

theorem shown_rest (cs : List Char) : Part.shown (cs.map (·, Part.comment)) = [] := by simp [Part.shown]

theorem codeFrom_eq (skip : Nat) (cs : List Char) : codeFrom style mode skip cs =
      (Part.chars (Part.unquoted (Part.shown (partsFrom style mode skip cs).1)), (partsFrom style mode skip cs).2) := by
  induction cs generalizing mode skip with
  | nil => simp [codeFrom]
  | cons c cs ih =>
    cases skip with
    | succ skip =>
      rw [codeFrom, ih]
      cases mode with
      | code => simp [Mode.passing]
      | comment => simp [Mode.passing]
      | quoted q => simp [Mode.passing, Part.shown_cons]
    | zero =>
      rw [partsFrom_zero]
      cases mode with
      | comment =>
        rw [codeFrom, Mode.step]
        cases CommentStyle.markLength? style.blockEnd (c :: cs) <;> simp [ih]
      | quoted q =>
        rw [codeFrom, Mode.step]
        split <;> simp [ih, Part.shown_cons]
      | code =>
        rw [codeFrom, Mode.step]
        split
        · simp [partsFrom_rest, shown_rest, Mode.passing]
        · cases CommentStyle.markLength? style.blockStart (c :: cs) with
          | some n => simp [ih]
          | none =>
            dsimp only
            split <;> simp [ih, Part.shown_cons, Part.unquoted_cons]

theorem textFrom_eq (skip : Nat) (cs : List Char) (h : mode.passing = .quoted → skip = 0) :
    textFrom style mode skip cs =
      (Part.chars (Part.shown (partsFrom style mode skip cs).1), (partsFrom style mode skip cs).2) := by
  fun_induction textFrom style mode skip cs with
  | case1 => simp
  | case2 mode skip c cs ih =>
    cases mode with
    | quoted q => cases h rfl
    | code => simp [ih (by simp [Mode.passing]), Mode.passing]
    | comment => simp [ih (by simp [Mode.passing]), Mode.passing]
  | case3 c cs n hend ih => simp [ih (by simp [Mode.passing]), partsFrom_zero, Mode.step, hend]
  | case4 c cs hend ih => simp [ih (by simp [Mode.passing]), partsFrom_zero, Mode.step, hend]
  | case5 q c cs kept after hrest ih =>
    rw [ih fun _ => rfl] at hrest
    obtain ⟨rfl, rfl⟩ := Prod.mk.inj hrest
    simp [partsFrom_zero, Mode.step, Mode.passing, Part.shown_cons]
  | case6 q c cs hc kept after hrest ih =>
    rw [ih fun _ => rfl] at hrest
    obtain ⟨rfl, rfl⟩ := Prod.mk.inj hrest
    by_cases hescape : c = '\\'
    · -- an escape at the end of the line has nothing to pass over
      have hcs : cs = [] := by
        cases cs with
        | nil => rfl
        | cons d ds => cases hc d ds hescape rfl
      simp [hcs, hescape, partsFrom_zero, Mode.step, Part.shown_cons]
    · simp [hescape, partsFrom_zero, Mode.step, Part.shown_cons]
  | case7 c cs hline => simp [partsFrom_zero, Mode.step, hline, partsFrom_rest, shown_rest, Mode.passing]
  | case8 c cs hline n hstart ih => simp [ih (by simp [Mode.passing]), partsFrom_zero, Mode.step, hline, hstart]
  | case9 c cs hline hstart kept after hrest ih =>
    rw [ih fun _ => rfl] at hrest
    obtain ⟨rfl, rfl⟩ := Prod.mk.inj hrest
    by_cases hquote : style.isQuote c = true
    · simp [hquote, partsFrom_zero, Mode.step, hline, hstart, Part.shown_cons]
    · simp [hquote, partsFrom_zero, Mode.step, hline, hstart, Part.shown_cons]

end Parts

/-! ## Blank lines -/

namespace CommentStyle

def isVisible (mark : String) : Bool := mark.toList.head?.all (!Text.isBlank ·)

structure Visible (style : CommentStyle) : Prop where
  line : style.line.all isVisible = true
  blockStart : style.blockStart.all isVisible = true
  quotes : style.quotes.all isVisible = true

instance (style : CommentStyle) : Decidable style.Visible :=
  decidable_of_iff (_ ∧ _ ∧ _) ⟨fun h => ⟨h.1, h.2.1, h.2.2⟩, fun h => ⟨h.line, h.blockStart, h.quotes⟩⟩

theorem markLength?_of_blank {mark : Option String} (h : mark.all isVisible = true) (hc : Text.isBlank c = true)
    (cs : List Char) : markLength? mark (c :: cs) = none := by
  cases mark with
  | none => rfl
  | some m =>
    have hnot : m.toList.isPrefixOf (c :: cs) = true → m = "" := by
      intro hpre
      cases hm : m.toList with
      | nil => exact String.toList_eq_nil_iff.1 hm
      | cons d ds =>
        rw [hm, List.isPrefixOf_cons_cons, Bool.and_eq_true, beq_iff_eq] at hpre
        simp [isVisible, hm, hpre.1, hc] at h
    rw [markLength?, if_neg]
    intro hmark
    rw [Bool.and_eq_true, bne_iff_ne] at hmark
    exact hmark.1 (hnot hmark.2)

theorem Visible.isBlank_of_isQuote (h : style.Visible) (hc : style.isQuote c = true) : Text.isBlank c = false := by
  have := List.all_eq_true.1 h.quotes _ (List.contains_iff_mem.1 hc)
  simpa [isVisible] using this

end CommentStyle

namespace Mode

def Visible (mode : Mode) : Prop := ∀ q, mode = .quoted q → Text.isBlank q = false

def part : Mode → Part
  | .code => .code
  | .comment => .comment
  | .quoted _ => .quoted

variable {style : CommentStyle} {mode : Mode} {c : Char} {cs : List Char}

theorem visible_code : Visible .code := fun _ h => by cases h

theorem visible_comment : Visible .comment := fun _ h => by cases h

theorem Visible.step (hstyle : style.Visible) (hmode : mode.Visible) : (mode.step style c cs).mode.Visible := by
  cases mode with
  | comment =>
    rw [Mode.step]
    split
    · exact visible_code
    · exact visible_comment
  | quoted q =>
    rw [Mode.step]
    split
    · exact hmode
    · split
      · exact visible_code
      · exact hmode
  | code =>
    rw [Mode.step]
    split
    · exact visible_code
    · split
      · exact visible_comment
      · split
        · rename_i hquote
          rintro q ⟨⟩
          exact hstyle.isBlank_of_isQuote hquote
        · exact visible_code

theorem step_of_blank (hstyle : style.Visible) (hmode : mode.Visible) (hcom : mode ≠ .comment)
    (hc : Text.isBlank c = true) : mode.step style c cs = ⟨mode.part, mode, 0⟩ := by
  cases mode with
  | comment => exact absurd rfl hcom
  | quoted q =>
    have hescape : c ≠ '\\' := by
      rintro rfl
      exact absurd hc (by decide)
    have hquote : c ≠ q := by
      rintro rfl
      rw [hmode _ rfl] at hc
      cases hc
    simp [step, part, hescape, hquote]
  | code =>
    have hquote : style.isQuote c = false := by
      by_contra h
      rw [Bool.not_eq_false] at h
      rw [hstyle.isBlank_of_isQuote h] at hc
      cases hc
    simp [step, part, CommentStyle.markLength?_of_blank hstyle.line hc,
      CommentStyle.markLength?_of_blank hstyle.blockStart hc, hquote]

end Mode

def keptParts (style : CommentStyle) (mode : Mode) (line : List Char) : List (Char × Part) :=
  Part.shown (partsFrom style mode 0 line).1

section Blank

variable {style : CommentStyle} {mode : Mode} {line : List Char}

theorem visible_partsFrom (hstyle : style.Visible) (hmode : mode.Visible) (skip : Nat) (cs : List Char) :
    (partsFrom style mode skip cs).2.Visible := by
  induction cs generalizing mode skip with
  | nil => simpa using hmode
  | cons c cs ih =>
    cases skip with
    | zero => simpa [partsFrom_zero] using ih (hmode.step hstyle) _
    | succ skip => simpa using ih hmode skip

theorem mode_partsFrom_of_blank (hstyle : style.Visible) (hmode : mode.Visible) (hcom : mode ≠ .comment)
    (skip : Nat) (h : Text.allBlank cs = true) : (partsFrom style mode skip cs).2 = mode := by
  induction cs generalizing skip with
  | nil => simp
  | cons c cs ih =>
    rw [Text.allBlank, List.all_cons, Bool.and_eq_true] at h
    cases skip with
    | zero => simpa [partsFrom_zero, Mode.step_of_blank hstyle hmode hcom h.1] using ih 0 h.2
    | succ skip => simpa using ih skip h.2

theorem codeLine_eq (line : List Char) : codeLine style mode line =
      (Part.chars (Part.unquoted (keptParts style mode line)), (partsFrom style mode 0 line).2) :=
  codeFrom_eq style mode 0 line

theorem withoutComment_of_not_blank (h : mode = .comment ∨ Text.allBlank line = false) :
    withoutComment style mode line = (if Text.allBlank (Part.chars (keptParts style mode line)) then none
        else some (Text.trimEnd (Part.chars (keptParts style mode line))), (partsFrom style mode 0 line).2) := by
  have hnot : ¬(decide (mode ≠ .comment) && Text.allBlank line) = true := by rcases h with h | h <;> simp [h]
  rw [withoutComment, if_neg hnot, textFrom_eq style mode 0 line fun _ => rfl]
  rfl

theorem withoutComment_of_blank (hmode : mode ≠ .comment) (h : Text.allBlank line = true) :
    withoutComment style mode line = (some line, mode) := by
  simp [withoutComment, hmode, h]

theorem mode_withoutComment (hstyle : style.Visible) (hmode : mode.Visible) (line : List Char) :
    (withoutComment style mode line).2 = (partsFrom style mode 0 line).2 := by
  by_cases hcom : mode = .comment
  · rw [withoutComment_of_not_blank (.inl hcom)]
  · cases hblank : Text.allBlank line with
    | false => rw [withoutComment_of_not_blank (.inr hblank)]
    | true => rw [withoutComment_of_blank hcom hblank, mode_partsFrom_of_blank hstyle hmode hcom 0 hblank]

end Blank

/-! ## One line after the other -/

def modes {α : Type} (scan : Mode → List Char → α × Mode) (mode : Mode) (lines : List (List Char)) : List Mode :=
  lines.scanl (fun mode line => (scan mode line).2) mode

theorem modes_eq (hstyle : style.Visible) {mode : Mode} (hmode : mode.Visible) (lines : List (List Char)) : modes (codeLine style) mode lines = modes (withoutComment style) mode lines := by
  induction lines generalizing mode with
  | nil => rfl
  | cons line rest ih =>
    have hnext := ih (visible_partsFrom hstyle hmode 0 line)
    simp only [modes, List.scanl_cons, codeLine_eq, mode_withoutComment hstyle hmode] at hnext ⊢
    rw [hnext]

/-- The two ways through a text are in the same mode after every line. Of a line that is not blank the one keeps what
the other keeps of it before trimming, without the characters of texts in quotes. -/
theorem scans_agree {style : CommentStyle} (hstyle : style.Visible) (lines : List (List Char)) :
    modes (codeLine style) .code lines = modes (withoutComment style) .code lines ∧
    ∀ mode line, (mode, line) ∈ (modes (withoutComment style) .code lines).zip lines → Text.allBlank line = false →
      (textFrom style mode 0 line).1 = Part.chars (keptParts style mode line) ∧
      withoutComment style mode line = (if Text.allBlank (Part.chars (keptParts style mode line)) then none
          else some (Text.trimEnd (Part.chars (keptParts style mode line))), (codeLine style mode line).2) ∧
      (codeLine style mode line).1 = Part.chars (Part.unquoted (keptParts style mode line)) := by
  refine ⟨modes_eq hstyle Mode.visible_code lines, fun mode line _ hblank => ⟨?_, ?_, ?_⟩⟩
  · rw [textFrom_eq style mode 0 line fun _ => rfl]
    rfl
  · rw [withoutComment_of_not_blank (.inr hblank), codeLine_eq]
  · rw [codeLine_eq]

def Part.crossing : List (List Char) :=
  ["x = \"a /* b\\".toList, " ".toList, "c\" /* d".toList, "e */ f + \"//\" // g".toList]

theorem scans_agree_across_lines : CommentStyle.slashes.Visible ∧
    modes (withoutComment .slashes) .code Part.crossing = [.code, .quoted '"', .quoted '"', .comment, .code] ∧
    modes (codeLine .slashes) .code Part.crossing = [.code, .quoted '"', .quoted '"', .comment, .code] ∧
    (codeLine .slashes .comment "e */ f + \"//\" // g".toList).1 =
      Part.chars (Part.unquoted (keptParts .slashes .comment "e */ f + \"//\" // g".toList)) ∧
    Part.chars (keptParts .slashes .comment "e */ f + \"//\" // g".toList) = " f + \"//\" ".toList := by
  have hfacts : CommentStyle.slashes.Visible ∧
      modes (withoutComment .slashes) .code Part.crossing = [.code, .quoted '"', .quoted '"', .comment, .code] ∧
      Part.chars (keptParts .slashes .comment "e */ f + \"//\" // g".toList) = " f + \"//\" ".toList := by
    decide
  obtain ⟨hstyle, hmodes, hkept⟩ := hfacts
  obtain ⟨hsame, hlines⟩ := scans_agree hstyle Part.crossing
  have hbegins : (.comment, "e */ f + \"//\" // g".toList) ∈
      (modes (withoutComment .slashes) .code Part.crossing).zip Part.crossing := by
    rw [hmodes]
    exact List.mem_iff_getElem?.2 ⟨3, rfl⟩
  have hlast := hlines _ _ hbegins (by decide)
  exact ⟨hstyle, hmodes, hsame.trans hmodes, hlast.2.2, hkept⟩

end Transclude
