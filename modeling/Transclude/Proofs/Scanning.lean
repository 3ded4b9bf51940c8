import Mathlib.Data.List.TakeWhile
import Transclude.Directive.Block
import Transclude.Outline
import Transclude.Proofs.Paths

/-!
# Scanning lines for fences

`linesOf` are the lines of a text as a scan for fenced code sees them. Texts that end a line can be scanned one after
another (`Fence.after_append`), and a fence that three marks open is left by the lines that close it (`step_opened`).
-/

namespace Transclude

open Block Fence
open List hiding splitAt

variable {line a name b : List Char} {lines : List (List Char)} {c : Char}

/-! ## Lines -/

namespace Text

variable {cs : List Char}

def WholeLines (cs : List Char) : Prop := cs.getLast? = none ∨ cs.getLast? = some '\n'

instance (cs : List Char) : Decidable (WholeLines cs) := inferInstanceAs (Decidable (_ ∨ _))

def Unbroken (cs : List Char) : Prop := '\n' ∉ cs ∧ '\r' ∉ cs

instance (cs : List Char) : Decidable (Unbroken cs) := inferInstanceAs (Decidable (_ ∧ _))

theorem Unbroken.getLast? (h : Unbroken cs) : cs.getLast? ≠ some '\r' := fun hlast => h.2 (mem_of_getLast? hlast)

theorem wholeLines_iff : WholeLines cs ↔ cs = [] ∨ ∃ ds, cs = ds ++ ['\n'] := by
  rw [WholeLines, getLast?_eq_none_iff, getLast?_eq_some_iff]

theorem wholeLines_concat (cs : List Char) : WholeLines (cs ++ ['\n']) := wholeLines_iff.2 (.inr ⟨cs, rfl⟩)

theorem WholeLines.append (ha : WholeLines a) (hb : WholeLines b) : WholeLines (a ++ b) := by
  rcases wholeLines_iff.1 hb with rfl | ⟨ds, rfl⟩
  · simpa using ha
  · rw [← append_assoc]
    exact wholeLines_concat _

theorem WholeLines.right (h : WholeLines (a ++ b)) : WholeLines b := by
  cases hb : b.getLast? with
  | none => exact .inl hb
  | some c =>
    rw [WholeLines, getLast?_append, hb] at h
    exact .inr (hb.trans (h.resolve_left (by simp)))

variable {sep : Char}

theorem splitAt_append_cons (a b : List Char) : splitAt sep (a ++ sep :: b) = splitAt sep a ++ splitAt sep b := by
  induction a with
  | nil => exact splitAt_cons_sep b
  | cons c a ih =>
    by_cases hc : (c == sep) = true
    · rw [cons_append, splitAt, if_pos hc, ih, splitAt, if_pos hc, cons_append]
    · rw [cons_append, splitAt, if_neg hc, ih, splitAt, if_neg hc]
      cases h : splitAt sep a with
      | nil => exact absurd h (splitAt_ne_nil a)
      | cons piece pieces => rfl

theorem splitAt_append_of_not_mem {piece : List Char} {pieces : List (List Char)} (hline : sep ∉ line)
    (h : splitAt sep cs = piece :: pieces) : splitAt sep (line ++ cs) = (line ++ piece) :: pieces := by
  induction line with
  | nil => exact h
  | cons c line ih =>
    rw [mem_cons, not_or] at hline
    rw [cons_append, splitAt, if_neg (by simpa using Ne.symm hline.1), ih hline.2]
    rfl

def ended (lines : List (List Char)) : List Char := lines.flatMap fun line => line ++ ['\n']

theorem ended_cons (line : List Char) (lines : List (List Char)) :
    ended (line :: lines) = line ++ '\n' :: ended lines := by
  rw [ended, flatMap_cons, append_assoc]
  rfl

theorem splitAt_ended (h : ∀ line ∈ lines, '\n' ∉ line) : splitAt '\n' (ended lines) = lines ++ [[]] := by
  induction lines with
  | nil => rfl
  | cons line lines ih =>
    obtain ⟨hline, hrest⟩ := forall_mem_cons.1 h
    rw [ended_cons, splitAt_append_sep hline, ih hrest]
    rfl

theorem joinWith_append_newline (h : lines ≠ []) : joinWith ['\n'] lines ++ ['\n'] = ended lines := by
  induction lines with
  | nil => exact absurd rfl h
  | cons line lines ih =>
    rw [ended_cons]
    by_cases hlines : lines = []
    · rw [hlines]
      rfl
    · rw [joinWith_cons hlines, append_assoc, append_assoc, ih hlines]
      rfl

theorem universalNewlines_cons_of_ne (h : c ≠ '\r') (cs : List Char) :
    universalNewlines (c :: cs) = c :: universalNewlines cs := by
  rw [universalNewlines]
  · simp [h]
  · simp [h]

theorem universalNewlines_return_cons (h : c ≠ '\n') (cs : List Char) :
    universalNewlines ('\r' :: c :: cs) = '\n' :: universalNewlines (c :: cs) := by
  rw [universalNewlines]
  simp [h]

theorem universalNewlines_append (h : a.getLast? ≠ some '\r') (b : List Char) :
    universalNewlines (a ++ b) = universalNewlines a ++ universalNewlines b := by
  -- a carriage return looks at what follows it, so the last character must be another one
  fun_induction universalNewlines a with
  | case1 rest ih =>
    have hrest : rest.getLast? ≠ some '\r' := by
      cases rest with
      | nil => simp
      | cons c cs => simpa using h
    simp only [cons_append, universalNewlines, ih hrest]
  | case2 rest hne ih =>
    cases rest with
    | nil => simp at h
    | cons c cs =>
      have hc : c ≠ '\n' := fun hc => hne cs (by rw [hc])
      rw [cons_append, cons_append, universalNewlines_return_cons hc, ← cons_append,
        ih (by simpa using h)]
      rfl
  | case3 c rest hne hc ih =>
    have hrest : rest.getLast? ≠ some '\r' := by
      cases rest with
      | nil => simp
      | cons d ds => simpa using h
    rw [cons_append, universalNewlines_cons_of_ne hc, ih hrest]
    rfl
  | case4 => rfl

theorem universalNewlines_of_not_mem (h : '\r' ∉ cs) : universalNewlines cs = cs := by
  induction cs with
  | nil => rfl
  | cons c cs ih =>
    rw [mem_cons, not_or] at h
    rw [universalNewlines_cons_of_ne (Ne.symm h.1), ih h.2]

theorem length_universalNewlines_le (cs : List Char) : (universalNewlines cs).length ≤ cs.length := by
  fun_induction universalNewlines cs with
  | case1 rest ih =>
    simp only [length_cons]
    omega
  | case2 rest _ ih => simpa using ih
  | case3 c rest _ _ ih => simpa using ih
  | case4 => exact Nat.le_refl _

theorem universalNewlines_concat (cs : List Char) : ∃ ds, universalNewlines (cs ++ ['\n']) = ds ++ ['\n'] := by
  fun_induction universalNewlines cs with
  | case1 rest ih =>
    obtain ⟨ds, h⟩ := ih
    exact ⟨'\n' :: ds, congrArg ('\n' :: ·) h⟩
  | case2 rest hne ih =>
    cases rest with
    | nil => exact ⟨[], rfl⟩
    | cons c cs =>
      obtain ⟨ds, h⟩ := ih
      have hc : c ≠ '\n' := fun hc => hne cs (by rw [hc])
      exact ⟨'\n' :: ds, (universalNewlines_return_cons hc _).trans (congrArg ('\n' :: ·) h)⟩
  | case3 c rest hne hc ih =>
    obtain ⟨ds, h⟩ := ih
    exact ⟨c :: ds, (universalNewlines_cons_of_ne hc _).trans (congrArg (c :: ·) h)⟩
  | case4 => exact ⟨[], rfl⟩

theorem trimEnd_append (h : a.getLast? = some c) (hc : isBlank c = false) (b : List Char) : trimEnd (a ++ b) = a ++ trimEnd b := by
  obtain ⟨ds, rfl⟩ := getLast?_eq_some_iff.1 h
  have hkeep : (ds ++ [c]).reverse.dropWhile isBlank = (ds ++ [c]).reverse := by simp [hc]
  rw [trimEnd, reverse_append, dropWhile_append, hkeep]
  split
  · rename_i hb
    rw [reverse_reverse, trimEnd, isEmpty_iff.1 hb, reverse_nil, append_nil]
  · rw [reverse_append, reverse_reverse, trimEnd]

theorem trimEnd_isPrefix (cs : List Char) : trimEnd cs <+: cs := by
  rw [← reverse_suffix, trimEnd, reverse_reverse]
  exact dropWhile_suffix _

theorem exists_trimEnd_append (cs : List Char) : ∃ blanks, allBlank blanks = true ∧ cs = trimEnd cs ++ blanks := by
  refine ⟨(cs.reverse.takeWhile isBlank).reverse, ?_, ?_⟩
  · rw [allBlank, all_reverse]
    exact all_takeWhile
  · rw [trimEnd, ← reverse_append, takeWhile_append_dropWhile, reverse_reverse]

theorem trimEnd_of_allBlank (h : allBlank cs = true) : trimEnd cs = [] := by
  rw [allBlank] at h
  simpa [trimEnd] using h

theorem trim_of_allBlank (h : allBlank cs = true) : trim cs = [] := by
  rw [allBlank, all_eq_true] at h
  rw [trim, trimStart, dropWhile_eq_nil_iff.2 h]
  rfl

theorem mem_dropWhile {p : Char → Bool} (hc : c ∈ cs) (hp : p c = false) : c ∈ cs.dropWhile p := by
  rw [← takeWhile_append_dropWhile (p := p) (l := cs), mem_append] at hc
  refine hc.resolve_left fun hc => ?_
  rw [mem_takeWhile_imp hc] at hp
  cases hp

theorem isBlank_of_getLast?_trimEnd (h : (trimEnd cs).getLast? = some c) : isBlank c = false := by
  rw [trimEnd, getLast?_reverse] at h
  simpa [h] using head?_dropWhile_not isBlank cs.reverse

end Text

namespace Outline

open Transclude.Text

def linesOf (cs : List Char) : List (List Char) := splitAt '\n' (universalNewlines cs)

def firstLine (cs : List Char) : List Char := (linesOf cs).headD []

theorem linesOf_eq_cons (cs : List Char) : linesOf cs = firstLine cs :: (linesOf cs).tail := by
  rw [firstLine]
  cases h : linesOf cs with
  | nil => exact absurd h (splitAt_ne_nil _)
  | cons line rest => rfl

theorem linesOf_append_break {body : List Char} (h : body.getLast? ≠ some '\r') (after : List Char) :
    linesOf (body ++ '\n' :: after) = linesOf body ++ linesOf after := by
  rw [linesOf, universalNewlines_append h, universalNewlines_cons_of_ne (by decide), splitAt_append_cons]
  rfl

theorem linesOf_unbroken_append {after first : List Char} {rest : List (List Char)} (hline : Unbroken line)
    (h : linesOf after = first :: rest) : linesOf (line ++ after) = (line ++ first) :: rest := by
  rw [linesOf, universalNewlines_append hline.getLast?, universalNewlines_of_not_mem hline.2]
  exact splitAt_append_of_not_mem hline.1 h

theorem linesOf_unbroken (hline : Unbroken line) : linesOf line = [line] := by
  simpa using linesOf_unbroken_append hline (rfl : linesOf [] = [[]])

theorem linesOf_line (hline : Unbroken line) : linesOf (line ++ ['\n']) = [line, []] := by
  rw [linesOf_append_break hline.getLast?, linesOf_unbroken hline]
  rfl

theorem linesOf_append (h : WholeLines a) (b : List Char) : linesOf (a ++ b) = (linesOf a).dropLast ++ linesOf b := by
  rcases wholeLines_iff.1 h with rfl | ⟨ds, rfl⟩
  · rfl
  · obtain ⟨es, he⟩ := universalNewlines_concat ds
    have hlast : (ds ++ ['\n']).getLast? ≠ some '\r' := by simp
    have hlines : linesOf (ds ++ ['\n']) = splitAt '\n' es ++ [[]] := by
      rw [linesOf, he, splitAt_append_cons]
      rfl
    rw [hlines, dropLast_concat, linesOf, universalNewlines_append hlast, he, append_assoc,
      singleton_append, splitAt_append_cons]
    rfl

theorem linesOf_of_wholeLines (h : WholeLines a) : linesOf a = (linesOf a).dropLast ++ [[]] := by
  simpa [linesOf, splitAt, universalNewlines] using linesOf_append h []

/-! ## The state of a scan -/

def marks (line : List Char) : List Char := (trim line).takeWhile (· == grave)

def closes (line : List Char) : Bool := decide (3 ≤ (marks line).length) && allBlank (stripGraves (trim line))

namespace Fence

def opened : Fence :=
  { inside := true, marker := fence }

theorem step_of_few (h : (marks line).length < 3) (f : Fence) : f.step line = (false, f) := if_pos h

theorem step_of_many (h : 3 ≤ (marks line).length) (f : Fence) :
    f.step line = if !f.inside then (true, { inside := true, marker := marks line })
      else if f.marker.isPrefixOf (trim line) && allBlank (stripGraves (trim line))
        then (true, { f with inside := false }) else (false, f) :=
  if_neg (Nat.not_lt.2 h)

theorem fence_isPrefixOf (h : 3 ≤ (marks line).length) : fence.isPrefixOf (trim line) = true := by
  have hmarks : marks line = replicate (marks line).length grave :=
    eq_replicate_of_mem fun c hc => by simpa using mem_takeWhile_imp hc
  have hfence : fence <+: marks line := by
    rw [hmarks, ← Nat.add_sub_cancel' h, ← replicate_append_replicate]
    exact prefix_append _ _
  exact isPrefixOf_iff_prefix.2 (hfence.trans ( takeWhile_prefix _))

theorem step_opened (line : List Char) :
    opened.step line = if closes line then (true, { opened with inside := false }) else (false, opened) := by
  by_cases hfew : (marks line).length < 3
  · have hcloses : closes line = false := by rw [closes, decide_eq_false (Nat.not_le.2 hfew), Bool.false_and]
    rw [step_of_few hfew, hcloses]
    rfl
  · have hmany : 3 ≤ (marks line).length := Nat.not_lt.1 hfew
    have hcloses : closes line = allBlank (stripGraves (trim line)) := by
      rw [closes, decide_eq_true hmany, Bool.true_and]
    have hmarker : opened.marker.isPrefixOf (trim line) = true := fence_isPrefixOf hmany
    rw [step_of_many hmany, if_neg (by decide), hmarker, Bool.true_and, hcloses]

def after (f : Fence) (lines : List (List Char)) : Fence := lines.foldl (fun f line => (f.step line).2) f

def trace (f : Fence) : List (List Char) → List (Bool × Fence)
  | [] => []
  | line :: rest => f.step line :: (f.step line).2.trace rest

theorem after_append (f : Fence) (a b : List (List Char)) : f.after (a ++ b) = (f.after a).after b := foldl_append

theorem trace_append (f : Fence) (a b : List (List Char)) : f.trace (a ++ b) = f.trace a ++ (f.after a).trace b := by
  induction a generalizing f with
  | nil => rfl
  | cons line a ih =>
    rw [cons_append, trace, ih]
    rfl

theorem length_trace (f : Fence) (lines : List (List Char)) : (f.trace lines).length = lines.length := by
  induction lines generalizing f with
  | nil => rfl
  | cons line rest ih => rw [trace, length_cons, ih, length_cons]

theorem after_few (h : ∀ line ∈ lines, (marks line).length < 3) (f : Fence) : f.after lines = f := by
  induction lines with
  | nil => rfl
  | cons line rest ih =>
    rw [forall_mem_cons] at h
    show (f.step line).2.after rest = f
    rw [step_of_few h.1]
    exact ih h.2

theorem after_dropLast (h : WholeLines a) (f : Fence) : f.after (linesOf a).dropLast = f.after (linesOf a) := by
  conv_rhs => rw [linesOf_of_wholeLines h, after_append]
  rfl

def Same (f g : Fence) : Prop := f.inside = g.inside ∧ (f.inside = true → f.marker = g.marker)

theorem same_of_outside {f g : Fence} (hf : f.inside = false) (hg : g.inside = false) : Same f g :=
  ⟨hf.trans hg.symm, fun h => by simp [hf] at h⟩

theorem Same.step {f g : Fence} (h : Same f g) (line : List Char) : Same (f.step line).2 (g.step line).2 := by
  obtain ⟨inside, marker⟩ := f
  obtain ⟨inside', marker'⟩ := g
  obtain ⟨h₁, h₂⟩ := h
  simp only at h₁ h₂
  subst h₁
  cases inside with
  | true =>
    rw [h₂ rfl]
    exact ⟨rfl, fun _ => rfl⟩
  | false =>
    simp only [Fence.step]
    split
    · exact same_of_outside rfl rfl
    · exact ⟨rfl, fun _ => rfl⟩

theorem Same.after {f g : Fence} (h : Same f g) (lines : List (List Char)) : Same (f.after lines) (g.after lines) := by
  induction lines generalizing f g with
  | nil => exact h
  | cons line rest ih => exact ih (h.step line)

theorem trace_opened_iff (lines : List (List Char)) :
    opened.trace lines = replicate lines.length (false, opened) ↔ ∀ line ∈ lines, closes line = false := by
  induction lines with
  | nil => simp [trace]
  | cons line rest ih =>
    rw [trace, length_cons, replicate_succ, forall_mem_cons, step_opened]
    cases hline : closes line with
    | true => simp
    | false => simpa using ih

theorem after_opened (h : ∀ line ∈ lines, closes line = false) : opened.after lines = opened := by
  induction lines with
  | nil => rfl
  | cons line rest ih =>
    rw [forall_mem_cons] at h
    show (opened.step line).2.after rest = opened
    rw [step_opened, h.1]
    exact ih h.2

def atEnd (cs : List Char) : Fence := start.after (linesOf cs)

theorem atEnd_append (h : WholeLines a) (b : List Char) : atEnd (a ++ b) = (atEnd a).after (linesOf b) := by
  rw [atEnd, linesOf_append h, after_append, after_dropLast h]
  rfl

end Fence

/-! ## A text in a fence -/

theorem trim_fence_append (cs : List Char) : trim (fence ++ cs) = fence ++ trimEnd cs := by
  rw [trim, trimStart, show (fence ++ cs).dropWhile isBlank = fence ++ cs from rfl]
  exact trimEnd_append rfl (by decide) cs

theorem marks_fence_append (h : name.head? ≠ some grave) : marks (fence ++ name) = fence := by
  have hhead : (trimEnd name).head? ≠ some grave := by
    intro hg
    obtain ⟨cs, hcs⟩ := trimEnd_isPrefix name
    rw [← hcs, head?_append, hg] at h
    exact h rfl
  have hnone : (trimEnd name).takeWhile (· == grave) = [] := by
    cases hcs : trimEnd name with
    | nil => rfl
    | cons c cs =>
      rw [hcs] at hhead
      simpa [takeWhile_cons] using hhead
  have hfence : ∀ c ∈ fence, (c == grave) = true := by
    intro c hc
    rw [eq_of_mem_replicate hc]
    rfl
  rw [marks, trim_fence_append, takeWhile_append_of_pos hfence, hnone, append_nil]

theorem closes_fence_append {blanks : List Char} (h : allBlank blanks = true) :
    closes (fence ++ blanks) = true := by
  rw [closes, marks, trim_fence_append, trimEnd_of_allBlank h]
  decide

theorem closes_eq_false {rest : List Char} (hc : c ∈ rest) (hblank : isBlank c = false) (hgrave : c ≠ grave) : closes (fence ++ rest) = false := by
  have hgrave : (c == grave) = false := by simpa using hgrave
  have htrim : c ∈ trim (fence ++ rest) := by
    have hstart : c ∈ trimStart (fence ++ rest) := mem_dropWhile (mem_append_right _ hc) hblank
    exact mem_reverse.2 (mem_dropWhile (mem_reverse.2 hstart) hblank)
  have hstrip : c ∈ stripGraves (trim (fence ++ rest)) :=
    mem_reverse.2 (mem_dropWhile (mem_reverse.2 (mem_dropWhile htrim hgrave)) hgrave)
  have hall : allBlank (stripGraves (trim (fence ++ rest))) = false :=
    all_eq_false.2 ⟨c, hstrip, by simp [hblank]⟩
  rw [closes, hall, Bool.and_false]

theorem Fence.step_opening {f : Fence} (hf : f.inside = false) (h : name.head? ≠ some grave) : f.step (fence ++ name) = (true, opened) := by
  have hmarks := marks_fence_append h
  rw [step_of_many (by rw [hmarks]; decide), hf, hmarks]
  rfl

structure Fenced where
  top : List Char
  name : List Char
  content : List Char
deriving Repr, DecidableEq

namespace Fenced

open Outline.Fence

def body (x : Fenced) : List Char := trimEnd x.content

def text (x : Fenced) : List Char := x.top ++ (fence ++ x.name ++ '\n' :: (x.body ++ '\n' :: fence))

structure Plain (x : Fenced) : Prop where
  top_wholeLines : WholeLines x.top
  top_few : ∀ line ∈ linesOf x.top, (marks line).length < 3
  name_head : x.name.head? ≠ some grave
  name_unbroken : Unbroken x.name

def Closed (x : Fenced) : Prop := ∀ line ∈ linesOf x.body, closes line = false

theorem body_getLast? (x : Fenced) : x.body.getLast? ≠ some '\r' :=
  fun h => absurd (isBlank_of_getLast?_trimEnd h) (by decide)

theorem Plain.linesOf_text {x : Fenced} (hx : x.Plain) {before : List Char} (hbefore : WholeLines before)
    (after : List Char) :
    linesOf (before ++ x.text ++ after) = (linesOf (before ++ x.top)).dropLast ++
      (fence ++ x.name) :: (linesOf x.body ++ (fence ++ firstLine after) :: (linesOf after).tail) := by
  have hname : Unbroken (fence ++ x.name) := by
    obtain ⟨h₁, h₂⟩ := hx.name_unbroken
    simp [Unbroken, fence, h₁, h₂]
  have hclose : linesOf (fence ++ after) = (fence ++ firstLine after) :: (linesOf after).tail :=
    linesOf_unbroken_append (by decide) (linesOf_eq_cons after)
  calc linesOf (before ++ x.text ++ after) = linesOf ((before ++ x.top) ++ ((fence ++ x.name) ++
          '\n' :: (x.body ++ '\n' :: (fence ++ after)))) := by
        simp only [text, append_assoc, cons_append]
    _ = (linesOf (before ++ x.top)).dropLast ++ ([fence ++ x.name] ++
          (linesOf x.body ++ linesOf (fence ++ after))) := by
        rw [linesOf_append (hbefore.append hx.top_wholeLines), linesOf_append_break hname.getLast?,
          linesOf_append_break x.body_getLast?, linesOf_unbroken hname]
    _ = _ := by rw [hclose, singleton_append]

/-- A scan takes the opening line for a fence, stays in that fence at every line of the text, and is outside after the
line with the closing marks. -/
def Sealed (x : Fenced) (before after : List Char) : Prop :=
  let scan := Fence.start.trace (linesOf (before ++ x.text ++ after))
  let opening := (linesOf (before ++ x.top)).dropLast.length
  let size := (linesOf x.body).length
  ∃ (f : Fence) (close : Bool × Fence), f.inside = true ∧ close.2.inside = false ∧
    (scan.drop opening).take (size + 2) = (true, f) :: (replicate size (false, f) ++ [close])

section Scan

variable {x : Fenced} {before : List Char}

theorem Plain.outside_top (hx : x.Plain) (hbefore : WholeLines before) (hout : (atEnd before).inside = false) :
    (Fence.start.after (linesOf (before ++ x.top)).dropLast).inside = false := by
  rw [after_dropLast (hbefore.append hx.top_wholeLines)]
  show (atEnd (before ++ x.top)).inside = false
  rw [atEnd_append hbefore, after_few hx.top_few, hout]

theorem Plain.trace_text (hx : x.Plain) (hbefore : WholeLines before)
    (hout : (atEnd before).inside = false) (after : List Char) :
    ∃ rest, Fence.start.trace (linesOf (before ++ x.text ++ after)) =
      Fence.start.trace (linesOf (before ++ x.top)).dropLast ++ (true, opened) ::
        (opened.trace (linesOf x.body) ++
          (opened.after (linesOf x.body)).step (fence ++ firstLine after) :: rest) := by
  rw [hx.linesOf_text hbefore, trace_append, trace,
    step_opening (hx.outside_top hbefore hout) hx.name_head, trace_append]
  exact ⟨_, rfl⟩

theorem Plain.atEnd_text (hx : x.Plain) (hbefore : WholeLines before)
    (hout : (atEnd before).inside = false) (hclosed : x.Closed) (after : List Char)
    (hclose : closes (fence ++ firstLine after) = true) :
    atEnd (before ++ x.text ++ after) =
      Fence.after { opened with inside := false } (linesOf after).tail := by
  rw [atEnd, hx.linesOf_text hbefore, after_append]
  show (((Fence.start.after _).step (fence ++ x.name)).2).after (_ ++ _) = _
  rw [step_opening (hx.outside_top hbefore hout) hx.name_head, after_append, after_opened hclosed]
  show ((opened.step (fence ++ firstLine after)).2).after _ = _
  rw [step_opened, if_pos hclose]

/-- What a text in a fence needs to be sealed: that none of its lines closes the fence, and that its
closing marks do, with what follows them in their line. -/
theorem Plain.sealed_iff (hx : x.Plain) (hbefore : WholeLines before)
    (hout : (atEnd before).inside = false) (after : List Char) :
    x.Sealed before after ↔ x.Closed ∧ closes (fence ++ firstLine after) = true := by
  obtain ⟨rest, htrace⟩ := hx.trace_text hbefore hout after
  have hslice : ((Fence.start.trace (linesOf (before ++ x.text ++ after))).drop
        (linesOf (before ++ x.top)).dropLast.length).take ((linesOf x.body).length + 2) =
      (true, opened) :: (opened.trace (linesOf x.body) ++
        [(opened.after (linesOf x.body)).step (fence ++ firstLine after)]) := by
    rw [htrace, ← length_trace Fence.start (linesOf (before ++ x.top)).dropLast, drop_left,
      ← length_trace opened (linesOf x.body), take_succ_cons, take_length_add_append]
    rfl
  rw [Sealed]
  simp only [hslice]
  constructor
  · rintro ⟨f, close, hf, hclose, heq⟩
    obtain ⟨hopen, heq⟩ := cons_eq_cons.1 heq
    obtain rfl : opened = f := congrArg Prod.snd hopen
    obtain ⟨hbody, heq⟩ := append_inj' heq rfl
    have hclosed : x.Closed := (trace_opened_iff _).1 hbody
    refine ⟨hclosed, ?_⟩
    obtain rfl := singleton_inj.1 heq
    rw [after_opened hclosed, step_opened] at hclose
    by_contra hopen
    rw [if_neg hopen] at hclose
    cases hclose
  · rintro ⟨hclosed, hclose⟩
    refine ⟨opened, (true, { opened with inside := false }), rfl, rfl, ?_⟩
    rw [after_opened hclosed, step_opened, if_pos hclose, (trace_opened_iff _).2 hclosed]

end Scan

end Fenced

end Outline
end Transclude
