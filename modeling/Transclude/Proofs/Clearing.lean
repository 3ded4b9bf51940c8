import Mathlib.Data.List.DropRight
import Transclude.Proofs.Parts
import Transclude.Proofs.Scanning

/-!
# Comments are removed at once

Taking out a comment puts together what stood around it. That opens no comment if the style keeps its marks apart
(`CommentStyle.Separate`), as the styles of the known languages do. So removing comments once more changes nothing
(`removeComments_idempotent`).
-/

namespace Transclude

open List Mode Part Text Bool Option

variable {style : CommentStyle} {cs ds : List Char}

/-! ## Steps without comments -/

namespace Mode

def settled : Mode → Mode
  | .comment => .code
  | mode => mode

def carried (mode : Mode) (skip : Nat) : Nat :=
  match mode with
  | .quoted _ => skip
  | _ => 0

end Mode

namespace CommentStyle

def opens (style : CommentStyle) (cs : List Char) : Bool :=
  (markLength? style.line cs).isSome || (markLength? style.blockStart cs).isSome

theorem isSome_markLength?_append {mark : Option String} (h : (markLength? mark cs).isSome = true) (ds : List Char) : (markLength? mark (cs ++ ds)).isSome = true := by
  cases mark with
  | none => cases h
  | some m =>
    rw [markLength?] at h ⊢
    split at h
    · rename_i hmark
      rw [and_eq_true, isPrefixOf_iff_prefix] at hmark
      rw [if_pos]
      · rfl
      · rw [and_eq_true, isPrefixOf_iff_prefix]
        exact ⟨hmark.1, hmark.2.trans (prefix_append cs ds)⟩
    · cases h

theorem opens_of_append (h : style.opens (cs ++ ds) = false) : style.opens cs = false := by
  by_contra hopens
  rw [not_eq_false, opens, or_eq_true] at hopens
  rw [opens, or_eq_false_iff] at h
  rcases hopens with hopens | hopens
  · exact absurd (isSome_markLength?_append hopens ds) (by simp [h.1])
  · exact absurd (isSome_markLength?_append hopens ds) (by simp [h.2])

end CommentStyle

namespace Mode

variable {style : CommentStyle} {mode : Mode} {c : Char} {cs : List Char}

theorem settled_ne_comment : mode.settled ≠ .comment := by cases mode <;> simp [settled]

theorem settled_visible (h : mode.Visible) : mode.settled.Visible := by
  cases mode with
  | comment => exact visible_code
  | code => exact h
  | quoted q => exact h

@[simp] theorem carried_zero : mode.carried 0 = 0 := by
  cases mode <;> rfl

theorem carried_of_settled (h : mode.settled = .code) (skip : Nat) : mode.carried skip = 0 := by
  cases mode with
  | quoted q => cases h
  | code => rfl
  | comment => rfl

theorem step_of_opens (h : style.opens (c :: cs) = false) :
    step style .code c cs = if style.isQuote c then ⟨.quoted, .quoted c, 0⟩ else ⟨.code, .code, 0⟩ := by
  rw [CommentStyle.opens, or_eq_false_iff, isSome_eq_false_iff, isSome_eq_false_iff,
    isNone_iff_eq_none, isNone_iff_eq_none] at h
  simp [step, h.1, h.2]

theorem opens_of_step (h : (step style .code c cs).part ≠ .comment) : style.opens (c :: cs) = false := by
  rw [step] at h
  split at h
  · exact absurd rfl h
  · rename_i hline
    split at h
    · exact absurd rfl h
    · rename_i hstart
      simp [CommentStyle.opens, hline, hstart]

theorem step_of_comment (h : (mode.step style c cs).part = .comment) :
    mode.settled = .code ∧ (mode.step style c cs).mode.settled = .code := by
  cases mode with
  | comment =>
    refine ⟨rfl, ?_⟩
    rw [step]
    split <;> rfl
  | quoted q =>
    rw [step] at h
    split at h <;> cases h
  | code =>
    refine ⟨rfl, ?_⟩
    by_cases hopens : style.opens (c :: cs) = false
    · rw [step_of_opens hopens] at h
      split at h <;> cases h
    · rw [step]
      split
      · rfl
      · rename_i hline
        split
        · rfl
        · rename_i hstart
          exact absurd (by simp [CommentStyle.opens, hline, hstart]) hopens

theorem step_of_shown (h : (mode.step style c cs).part ≠ .comment) :
    mode.settled = mode ∧ (mode.step style c cs).mode.settled = (mode.step style c cs).mode ∧
      (mode.step style c cs).mode.carried (mode.step style c cs).skip = (mode.step style c cs).skip := by
  cases mode with
  | comment =>
    rw [step] at h
    split at h <;> exact absurd rfl h
  | quoted q =>
    refine ⟨rfl, ?_⟩
    rw [step]
    split
    · exact ⟨rfl, rfl⟩
    · split <;> exact ⟨rfl, rfl⟩
  | code =>
    refine ⟨rfl, ?_⟩
    rw [step_of_opens (opens_of_step h)]
    split <;> exact ⟨rfl, rfl⟩

theorem step_congr (hpart : (mode.step style c cs).part ≠ .comment)
    (h : mode = .code → style.opens (c :: ds) = false) : mode.step style c ds = mode.step style c cs := by
  cases mode with
  | comment =>
    rw [step] at hpart
    split at hpart <;> exact absurd rfl hpart
  | quoted q => rfl
  | code => rw [step_of_opens (h rfl), step_of_opens (opens_of_step hpart)]

end Mode

/-! ## What is left of a line -/

/-- Where no comment opens at a character, none opens before what is left of the text after it. -/
def CommentStyle.Separate (style : CommentStyle) : Prop :=
  ∀ c cs, style.opens (c :: cs) = false →
    style.opens (c :: chars (keptParts style (step style .code c cs).mode cs)) = false

section Line

variable {style : CommentStyle} {mode : Mode}

theorem partsFrom_shown (hstyle : style.Separate) (skip : Nat) (cs : List Char) :
    partsFrom style mode.settled (mode.carried skip) (chars (shown (partsFrom style mode skip cs).1)) =
      (shown (partsFrom style mode skip cs).1, (partsFrom style mode skip cs).2.settled) := by
  induction cs generalizing mode skip with
  | nil => simp
  | cons c cs ih =>
    cases skip with
    | succ skip =>
      have hrest := @ih mode skip
      cases mode with
      | quoted q =>
        exact (partsFrom_succ ..).trans (congrArg (Parted.cons c .quoted) hrest)
      | code => exact hrest
      | comment => exact hrest
    | zero =>
      have hrest := @ih (mode.step style c cs).mode (mode.step style c cs).skip
      rw [partsFrom_zero, carried_zero, Parted.cons_fst, Parted.cons_snd]
      by_cases hpart : (mode.step style c cs).part = .comment
      · -- the character goes, and what is left goes on in code before and after it
        obtain ⟨hmode, hnext⟩ := step_of_comment hpart
        rw [hnext, carried_of_settled hnext] at hrest
        rw [hpart, shown_comment, hmode, hrest]
      · obtain ⟨hmode, hnext, hskip⟩ := step_of_shown hpart
        rw [hnext, hskip] at hrest
        have hstep : mode.step style c
            (chars (shown (partsFrom style (mode.step style c cs).mode (mode.step style c cs).skip cs).1)) =
            mode.step style c cs := by
          refine step_congr hpart ?_
          rintro rfl
          have hopens := opens_of_step hpart
          have hzero : (step style .code c cs).skip = 0 := by
            rw [step_of_opens hopens]
            split <;> rfl
          rw [hzero]
          exact hstyle c cs hopens
        rw [shown_cons hpart, chars_cons, hmode, partsFrom_zero, hstep, hrest]
        rfl

theorem partsFrom_keptParts (hstyle : style.Separate) (line : List Char) :
    partsFrom style mode.settled 0 (chars (keptParts style mode line)) =
      (keptParts style mode line, (partsFrom style mode 0 line).2.settled) := by
  have := @partsFrom_shown style mode hstyle 0 line
  rwa [carried_zero] at this

theorem partsFrom_cut (hstyle : style.Visible) (hmode : mode.Visible) (hcom : mode ≠ .comment) {skip : Nat}
    (hskip : mode.carried skip = skip) {blanks : List Char} (hblanks : allBlank blanks = true)
    (hshown : ∀ x ∈ (partsFrom style mode skip (cs ++ blanks)).1, x.2 ≠ .comment) :
    partsFrom style mode skip cs =
      ((partsFrom style mode skip (cs ++ blanks)).1.take cs.length, (partsFrom style mode skip (cs ++ blanks)).2) := by
  induction cs generalizing mode skip with
  | nil => simp [mode_partsFrom_of_blank hstyle hmode hcom skip hblanks]
  | cons c cs ih =>
    cases skip with
    | succ skip =>
      cases mode with
      | code => cases hskip
      | comment => cases hskip
      | quoted q =>
        rw [cons_append, partsFrom_succ] at hshown ⊢
        have hrest := @ih (.quoted q) hmode hcom skip rfl fun x hx => hshown x (mem_cons_of_mem _ hx)
        rw [hrest]
        rfl
    | zero =>
      rw [cons_append, partsFrom_zero] at hshown ⊢
      have hpart : (mode.step style c (cs ++ blanks)).part ≠ .comment := hshown _ mem_cons_self
      obtain ⟨-, hnext, hskip⟩ := step_of_shown hpart
      have hstep : mode.step style c cs = mode.step style c (cs ++ blanks) := by
        refine step_congr hpart ?_
        rintro rfl
        exact CommentStyle.opens_of_append (opens_of_step hpart)
      have hrest := ih (hmode.step hstyle) (by rw [← hnext]; exact settled_ne_comment) hskip
        fun x hx => hshown x (mem_cons_of_mem _ hx)
      rw [hstep, hrest]
      rfl

end Line

/-! ## What is left of a text -/

/-- What is left of a line without its comment, with the parts that it belonged to, and the mode after the line. -/
def leftParts (style : CommentStyle) (mode : Mode) (line : List Char) : Option (List (Char × Part)) × Mode :=
  if mode ≠ .comment && allBlank line then (some (partsFrom style mode 0 line).1, mode)
  else
    let kept := keptParts style mode line
    (if allBlank (chars kept) then none else some (kept.take (trimEnd (chars kept)).length),
      (partsFrom style mode 0 line).2)

/-- What is left of lines; see `linesWithoutComments`. -/
def leftLines (style : CommentStyle) : Mode → List (List Char) → List (List (Char × Part))
  | _, [] => []
  | mode, line :: rest => (leftParts style mode line).1.toList ++ leftLines style (leftParts style mode line).2 rest

def partLines (style : CommentStyle) : Mode → List (List Char) → List (List (Char × Part))
  | _, [] => []
  | mode, line :: rest => (partsFrom style mode 0 line).1 :: partLines style (partsFrom style mode 0 line).2 rest

section Text

variable {style : CommentStyle} {mode after : Mode} {line : List Char} {parts : List (Char × Part)}

theorem chars_take (parts : List (Char × Part)) (n : Nat) : chars (parts.take n) = (chars parts).take n :=
  map_take

theorem take_trimEnd (cs : List Char) : cs.take (trimEnd cs).length = trimEnd cs :=
  (prefix_iff_eq_take.1 (trimEnd_isPrefix cs)).symm

theorem trimEnd_trimEnd (cs : List Char) : trimEnd (trimEnd cs) = trimEnd cs :=
  rdropWhile_idempotent isBlank cs

/-- What is left of a line: all of a blank line outside comments, and else nothing, or what is kept without the blanks
at its end. -/
theorem leftParts_cases {left : Option (List (Char × Part))} (h : leftParts style mode line = (left, after)) :
    (mode ≠ .comment ∧ allBlank line = true ∧ left = some (partsFrom style mode 0 line).1 ∧ after = mode) ∨
    after = (partsFrom style mode 0 line).2 ∧
      (allBlank (chars (keptParts style mode line)) = true ∧ left = none ∨
        left = some ((keptParts style mode line).take
          (trimEnd (chars (keptParts style mode line))).length)) := by
  rw [leftParts] at h
  split at h
  · rename_i hline
    obtain ⟨rfl, rfl⟩ := Prod.mk.inj h
    rw [and_eq_true, decide_eq_true_iff] at hline
    exact .inl ⟨hline.1, hline.2, rfl, rfl⟩
  · obtain ⟨hleft, rfl⟩ := Prod.mk.inj h
    refine .inr ⟨rfl, ?_⟩
    split at hleft
    · rename_i hblank
      exact .inl ⟨hblank, hleft.symm⟩
    · exact .inr hleft.symm

theorem withoutComment_eq_leftParts (style : CommentStyle) (mode : Mode) (line : List Char) :
    withoutComment style mode line = ((leftParts style mode line).1.map chars, (leftParts style mode line).2) := by
  unfold leftParts
  split
  · rename_i h
    rw [withoutComment, if_pos h, map_some, chars_partsFrom]
  · rename_i h
    rw [and_eq_true, not_and_or] at h
    rw [withoutComment_of_not_blank (by simpa using h)]
    dsimp only
    split
    · rfl
    · rw [map_some, chars_take, take_trimEnd]

theorem visible_leftParts (hstyle : style.Visible) (hmode : mode.Visible) : (leftParts style mode line).2.Visible := by
  unfold leftParts
  split
  · exact hmode
  · exact visible_partsFrom hstyle hmode 0 line

theorem shown_keptParts (style : CommentStyle) (mode : Mode) (line : List Char) :
    ∀ x ∈ keptParts style mode line, x.2 ≠ .comment := by
  intro x hx
  simpa using (mem_filter.1 hx).2

theorem shown_of_blank (hstyle : style.Visible) (hmode : mode.Visible) (hcom : mode ≠ .comment)
    (h : allBlank line = true) : ∀ x ∈ (partsFrom style mode 0 line).1, x.2 ≠ .comment := by
  have hpart : mode.part ≠ .comment := by
    cases mode with
    | comment => exact absurd rfl hcom
    | code => simp [part]
    | quoted q => simp [part]
  induction line with
  | nil => simp
  | cons c cs ih =>
    rw [allBlank, all_cons, and_eq_true] at h
    rw [partsFrom_zero, step_of_blank hstyle hmode hcom h.1]
    intro x hx
    rcases mem_cons.1 hx with rfl | hx
    · exact hpart
    · exact ih h.2 x hx

theorem settled_of_leftParts_none (hvis : style.Visible) (hseparate : style.Separate) (hmode : mode.Visible)
    (h : leftParts style mode line = (none, after)) : after.settled = mode.settled := by
  rcases leftParts_cases h with ⟨-, -, hnone, -⟩ | ⟨rfl, ⟨hblank, -⟩ | hnone⟩
  · cases hnone
  · have hread := mode_partsFrom_of_blank hvis (settled_visible hmode) settled_ne_comment 0 hblank
    rwa [partsFrom_keptParts hseparate line] at hread
  · cases hnone

theorem partsFrom_of_leftParts (hvis : style.Visible) (hseparate : style.Separate) (hmode : mode.Visible)
    (h : leftParts style mode line = (some parts, after)) :
    partsFrom style mode.settled 0 (chars parts) = (parts, after.settled) ∧ ∀ x ∈ parts, x.2 ≠ .comment := by
  rcases leftParts_cases h with ⟨hcom, hblank, hsome, hafter⟩ | ⟨rfl, ⟨-, hsome⟩ | hsome⟩
  · cases hsome
    subst after
    have hset : mode.settled = mode := by
      cases mode with
      | comment => exact absurd rfl hcom
      | code => rfl
      | quoted q => rfl
    rw [chars_partsFrom, hset]
    refine ⟨?_, shown_of_blank hvis hmode hcom hblank⟩
    exact Prod.ext rfl (mode_partsFrom_of_blank hvis hmode hcom 0 hblank)
  · cases hsome
  · cases hsome
    have hshown := shown_keptParts style mode line
    refine ⟨?_, fun x hx => hshown x (mem_of_mem_take hx)⟩
    -- what is kept ends with blanks, which are cut off
    obtain ⟨blanks, hblanks, heq⟩ := exists_trimEnd_append (chars (keptParts style mode line))
    have hread := @partsFrom_keptParts style mode hseparate line
    rw [heq] at hread
    rw [chars_take, take_trimEnd, partsFrom_cut hvis (settled_visible hmode) settled_ne_comment
      carried_zero hblanks (by rwa [hread]), hread]

theorem trimEnd_of_leftParts (h : leftParts style mode line = (some parts, after))
    (hblank : allBlank (chars parts) = false) : trimEnd (chars parts) = chars parts := by
  rcases leftParts_cases h with ⟨-, hline, hsome, -⟩ | ⟨-, ⟨-, hsome⟩ | hsome⟩
  · cases hsome
    rw [chars_partsFrom, hline] at hblank
    cases hblank
  · cases hsome
  · cases hsome
    rw [chars_take, take_trimEnd, trimEnd_trimEnd]

theorem withoutComment_of_leftParts (hvis : style.Visible) (hseparate : style.Separate) (hmode : mode.Visible)
    (h : leftParts style mode line = (some parts, after)) :
    withoutComment style mode.settled (chars parts) = (some (chars parts), after.settled) := by
  obtain ⟨hread, hshown⟩ := partsFrom_of_leftParts hvis hseparate hmode h
  cases hblank : allBlank (chars parts) with
  | true =>
    have hsame := mode_partsFrom_of_blank hvis (settled_visible hmode) settled_ne_comment 0 hblank
    rw [hread] at hsame
    rw [withoutComment_of_blank settled_ne_comment hblank, ← hsame]
  | false =>
    have hkept : keptParts style mode.settled (chars parts) = parts := by
      rw [keptParts, hread]
      exact filter_eq_self.2 fun x hx => by simpa using hshown x hx
    rw [withoutComment_of_not_blank (.inr hblank), hkept, hblank, hread, trimEnd_of_leftParts h hblank]
    rfl

theorem linesWithoutComments_eq (style : CommentStyle) (mode : Mode) (lines : List (List Char)) :
    linesWithoutComments style mode lines = (leftLines style mode lines).map chars := by
  induction lines generalizing mode with
  | nil => rfl
  | cons line rest ih =>
    rw [linesWithoutComments, withoutComment_eq_leftParts, leftLines]
    cases (leftParts style mode line).1 with
    | none => exact ih _
    | some parts => exact congrArg (chars parts :: ·) (ih _)

/-- What holds of the lines that are left: they are read one after the other, without a comment in them, and stay as
they are. -/
theorem leftLines_induct (hvis : style.Visible) (hseparate : style.Separate) (hmode : mode.Visible)
    {P : Mode → List (List (Char × Part)) → Prop} (nil : ∀ mode, P mode [])
    (cons : ∀ mode after parts rest, partsFrom style mode 0 (chars parts) = (parts, after) →
      (∀ x ∈ parts, x.2 ≠ .comment) → withoutComment style mode (chars parts) = (some (chars parts), after) →
      P after rest → P mode (parts :: rest))
    (lines : List (List Char)) : P mode.settled (leftLines style mode lines) := by
  induction lines generalizing mode with
  | nil => exact nil _
  | cons line rest ih =>
    have hrest := ih (@visible_leftParts style mode line hvis hmode)
    rw [leftLines]
    rcases h : leftParts style mode line with ⟨_ | parts, after⟩
    · rw [h] at hrest
      rw [← settled_of_leftParts_none hvis hseparate hmode h]
      exact hrest
    · rw [h] at hrest
      obtain ⟨hread, hshown⟩ := partsFrom_of_leftParts hvis hseparate hmode h
      exact cons _ _ _ _ hread hshown (withoutComment_of_leftParts hvis hseparate hmode h) hrest

theorem partLines_linesWithoutComments (hvis : style.Visible) (hseparate : style.Separate) (hmode : mode.Visible)
    (lines : List (List Char)) :
    partLines style mode.settled (linesWithoutComments style mode lines) = leftLines style mode lines := by
  rw [linesWithoutComments_eq]
  refine leftLines_induct hvis hseparate hmode
    (P := fun mode left => partLines style mode (left.map chars) = left) (fun _ => rfl) ?_ lines
  intro mode after parts rest hread _ _ hrest
  rw [map_cons, partLines, hread, hrest]

theorem shown_leftLines (hvis : style.Visible) (hseparate : style.Separate) (hmode : mode.Visible)
    (lines : List (List Char)) : ∀ x ∈ (leftLines style mode lines).flatten, x.2 ≠ .comment := by
  refine leftLines_induct hvis hseparate hmode (P := fun _ left => ∀ x ∈ left.flatten, x.2 ≠ .comment)
    (fun _ => by simp) ?_ lines
  intro mode after parts rest _ hshown _ hrest x hx
  rcases mem_append.1 hx with hx | hx
  · exact hshown x hx
  · exact hrest x hx

theorem linesWithoutComments_idempotent (hvis : style.Visible) (hseparate : style.Separate) (hmode : mode.Visible)
    (lines : List (List Char)) :
    linesWithoutComments style mode.settled (linesWithoutComments style mode lines) =
      linesWithoutComments style mode lines := by
  rw [linesWithoutComments_eq style mode]
  refine leftLines_induct hvis hseparate hmode
    (P := fun mode left => linesWithoutComments style mode (left.map chars) = left.map chars)
    (fun _ => rfl) ?_ lines
  intro mode after parts rest _ _ hstays hrest
  rw [map_cons, linesWithoutComments, hstays]
  exact congrArg (chars parts :: ·) hrest

theorem subset_of_leftParts (h : leftParts style mode line = (some parts, after)) : chars parts ⊆ line := by
  suffices hparts : parts ⊆ (partsFrom style mode 0 line).1 by
    rw [← chars_partsFrom style mode 0 line]
    exact map_subset _ hparts
  rcases leftParts_cases h with ⟨-, -, hsome, -⟩ | ⟨-, ⟨-, hsome⟩ | hsome⟩
  · cases hsome
    exact List.Subset.refl _
  · cases hsome
  · cases hsome
    exact fun x hx => (mem_filter.1 (mem_of_mem_take hx)).1

theorem subset_of_mem_linesWithoutComments {lines : List (List Char)} {left : List Char}
    (h : left ∈ linesWithoutComments style mode lines) : ∃ line ∈ lines, left ⊆ line := by
  induction lines generalizing mode with
  | nil => cases h
  | cons line rest ih =>
    rw [linesWithoutComments_eq, leftLines, map_append, ← linesWithoutComments_eq] at h
    rcases mem_append.1 h with h | h
    · obtain ⟨parts, hparts, rfl⟩ := mem_map.1 h
      exact ⟨line, mem_cons_self, subset_of_leftParts (Prod.ext (mem_toList.1 hparts) rfl)⟩
    · obtain ⟨line', hline', hleft⟩ := ih h
      exact ⟨line', mem_cons_of_mem _ hline', hleft⟩

end Text

/-! ## Texts without carriage returns -/

namespace Text

theorem dropReturns_append (h : '\r' ∉ cs) (ds : List Char) : dropReturns (cs ++ ds) = cs ++ dropReturns ds := by
  induction cs with
  | nil => rfl
  | cons c cs ih =>
    rw [cons_append, dropReturns, ih fun hr => h (mem_cons_of_mem c hr)]
    · rfl
    · rintro _ rfl
      exact absurd mem_cons_self h

theorem dropReturns_of_not_mem (h : '\r' ∉ cs) : dropReturns cs = cs := by
  simpa [dropReturns] using dropReturns_append h []

theorem not_mem_of_mem_lines {line : List Char} (h : '\r' ∉ cs) (hline : line ∈ lines cs) :
    '\n' ∉ line ∧ '\r' ∉ line := by
  rw [lines, dropReturns_of_not_mem h] at hline
  exact ⟨not_mem_of_mem_splitAt hline, fun hreturn => h (mem_of_mem_splitAt hline hreturn)⟩

theorem lines_joinWith {sep : List Char} {ls : List (List Char)} (hsep : sep = ['\n'] ∨ sep = ['\r', '\n']) (hne : ls ≠ [])
    (h : ∀ l ∈ ls, Unbroken l) : lines (joinWith sep ls) = ls := by
  have hdrop : dropReturns (joinWith sep ls) = joinWith ['\n'] ls := by
    clear hne
    induction ls with
    | nil => rfl
    | cons l ls ih =>
      obtain ⟨hl, h⟩ := forall_mem_cons.1 h
      by_cases hls : ls = []
      · rw [hls]
        exact dropReturns_of_not_mem hl.2
      · rw [joinWith_cons hls, joinWith_cons hls, append_assoc, append_assoc, dropReturns_append hl.2, ← ih h]
        rcases hsep with rfl | rfl <;> rfl
  rw [lines, hdrop, splitAt_joinWith hne fun l hl => (h l hl).1]

end Text

theorem lines_removeComments {content : List Char} (h : '\r' ∉ content) :
    lines (removeComments style content) = linesWithoutComments style .code (lines content) ∨
      linesWithoutComments style .code (lines content) = [] ∧ removeComments style content = [] := by
  by_cases hleft : linesWithoutComments style .code (lines content) = []
  · exact .inr ⟨hleft, by rw [removeComments, hleft]; rfl⟩
  · refine .inl (lines_joinWith (.inl rfl) hleft fun left hmem => ?_)
    obtain ⟨line, hline, hsubset⟩ := subset_of_mem_linesWithoutComments hmem
    obtain ⟨hfeed, hreturn⟩ := not_mem_of_mem_lines h hline
    exact ⟨fun hc => hfeed (hsubset hc), fun hc => hreturn (hsubset hc)⟩

/-! ## The known styles -/

namespace CommentStyle

theorem isSome_markLength? (m : String) (cs : List Char) :
    (markLength? (some m) cs).isSome = (m != "" && m.toList.isPrefixOf cs) := by
  rw [markLength?]
  split
  · rename_i h
    rw [h]
    rfl
  · rename_i h
    rw [not_eq_true] at h
    rw [h]
    rfl

theorem opens_slashes (c : Char) (cs : List Char) :
    slashes.opens (c :: cs) = ('/' == c && (['/'].isPrefixOf cs || ['*'].isPrefixOf cs)) := by
  rw [opens, slashes, isSome_markLength?, isSome_markLength?, and_or_distrib_left]
  rfl

theorem opens_numberSign (c : Char) (cs : List Char) : numberSign.opens (c :: cs) = ('#' == c) := by
  rw [opens, numberSign, isSome_markLength?]
  exact (Bool.or_false _).trans (Bool.and_true _)

theorem exists_keptParts_cons {c : Char} (h : style.opens (c :: cs) = false) :
    ∃ rest, chars (keptParts style .code (c :: cs)) = c :: rest := by
  have hpart : (step style .code c cs).part ≠ .comment := by
    rw [step_of_opens h]
    split <;> simp
  rw [keptParts, partsFrom_zero, Parted.cons_fst, shown_cons hpart]
  exact ⟨_, rfl⟩

theorem separate_slashes : slashes.Separate := by
  intro c cs h
  by_cases hc : c = '/'
  · subst hc
    have hmode : (step slashes .code '/' cs).mode = .code := by
      rw [step_of_opens h]
      rfl
    rw [hmode]
    cases cs with
    | nil => rfl
    | cons d ds =>
      rw [opens_slashes] at h
      have hd : ('/' == d) = false ∧ ('*' == d) = false := by simpa [List.isPrefixOf] using h
      have hnext : slashes.opens (d :: ds) = false := by rw [opens_slashes, hd.1, Bool.false_and]
      obtain ⟨rest, hrest⟩ := exists_keptParts_cons hnext
      rw [hrest, opens_slashes]
      simp [List.isPrefixOf, hd.1, hd.2]
  · rw [opens_slashes, show ('/' == c) = false by simpa using Ne.symm hc, Bool.false_and]

theorem separate_numberSign : numberSign.Separate := by
  intro c cs h
  rwa [opens_numberSign] at h ⊢

end CommentStyle

/-- Removing comments again changes nothing, for the styles of the known languages and every text without carriage
returns. What is left has no comment in it, and every character stands in code or in quotes as before. -/
theorem removeComments_idempotent {style : CommentStyle} (hstyle : style ∈ [CommentStyle.slashes, .numberSign])
    {content : List Char} (hcont : '\r' ∉ content) :
    removeComments style (removeComments style content) = removeComments style content ∧
    (partLines style .code (Text.lines (removeComments style content))).flatten =
      (leftLines style .code (Text.lines content)).flatten ∧
    ∀ x ∈ (partLines style .code (Text.lines (removeComments style content))).flatten, x.2 ≠ .comment := by
  have hseparate : style.Separate := by
    rcases mem_pair.1 hstyle with rfl | rfl
    · exact CommentStyle.separate_slashes
    · exact CommentStyle.separate_numberSign
  have hvis : style.Visible := by rcases mem_pair.1 hstyle with rfl | rfl <;> decide
  have hparts := partLines_linesWithoutComments hvis hseparate Mode.visible_code (Text.lines content)
  have hshown := shown_leftLines hvis hseparate Mode.visible_code (Text.lines content)
  suffices hread : (partLines style .code (Text.lines (removeComments style content))).flatten =
      (leftLines style .code (Text.lines content)).flatten ∧
      removeComments style (removeComments style content) = removeComments style content from
    ⟨hread.2, hread.1, fun x hx => hshown x (hread.1 ▸ hx)⟩
  rcases @lines_removeComments style content hcont with hlines | ⟨hnone, hempty⟩
  · refine ⟨?_, ?_⟩
    · rw [hlines]
      exact congrArg List.flatten hparts
    · have hagain := linesWithoutComments_idempotent hvis hseparate Mode.visible_code (Text.lines content)
      rw [removeComments, hlines]
      exact congrArg (Text.joinWith ['\n']) hagain
  · rw [linesWithoutComments_eq, map_eq_nil_iff] at hnone
    rw [hempty, hnone]
    exact ⟨rfl, rfl⟩

def Part.entwined : List Char := "a / /* b */ / c\n\"d /* \\ \n \n// e\" // f\n/* g\n*/".toList

theorem removeComments_entwined : (CommentStyle.slashes ∈ [CommentStyle.slashes, .numberSign] ∧ '\r' ∉ Part.entwined) ∧
    removeComments .slashes Part.entwined = "a /  / c\n\"d /* \\\n \n// e\"".toList ∧
    removeComments .slashes "a /  / c\n\"d /* \\\n \n// e\"".toList = "a /  / c\n\"d /* \\\n \n// e\"".toList := by
  have hfacts : '\r' ∉ Part.entwined ∧
      removeComments .slashes Part.entwined = "a /  / c\n\"d /* \\\n \n// e\"".toList := by
    decide
  obtain ⟨hcont, honce⟩ := hfacts
  have hagain := (removeComments_idempotent mem_cons_self hcont).1
  rw [honce] at hagain
  exact ⟨⟨mem_cons_self, hcont⟩, honce, hagain⟩

end Transclude
