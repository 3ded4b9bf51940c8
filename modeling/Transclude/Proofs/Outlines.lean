import Transclude.Proofs.Anchors

/-!
# Outlines of texts in pieces

The scan for headings begins anew in each fragment of a document. Where the fragments are whole lines and leave no
fence open this makes no difference (`headings_append`, `render_join`).
-/

namespace Transclude.Outline

open List Text

section Visible

variable {f g : Fence}

theorem Fence.Same.isFence_step (h : f.Same g) (line : List Char) : (f.step line).1 = (g.step line).1 := by
  obtain ⟨inside, marker⟩ := f
  obtain ⟨inside', marker'⟩ := g
  obtain ⟨rfl, hmarker⟩ : inside = inside' ∧ (inside = true → marker = marker') := h
  cases inside with
  | true => rw [hmarker rfl]
  | false =>
    -- outside a fence the marker is not looked at
    simp only [Fence.step, Bool.not_false, if_true]
    split_ifs <;> rfl

theorem visibleLines_cons (f : Fence) (line : List Char) (rest : List (List Char)) : visibleLines f (line :: rest) =
      (if (f.step line).1 || (f.step line).2.inside then [] else [line]) ++ visibleLines (f.step line).2 rest := by
  rw [visibleLines]
  dsimp only
  split_ifs <;> rfl

theorem visibleLines_append (f : Fence) (a b : List (List Char)) :
    visibleLines f (a ++ b) = visibleLines f a ++ visibleLines (f.after a) b := by
  induction a generalizing f with
  | nil => rfl
  | cons line a ih =>
    rw [cons_append, visibleLines_cons, visibleLines_cons, ih, append_assoc]
    rfl

theorem visibleLines_of_same (h : f.Same g) (lines : List (List Char)) :
    visibleLines f lines = visibleLines g lines := by
  induction lines generalizing f g with
  | nil => rfl
  | cons line rest ih => rw [visibleLines_cons, visibleLines_cons, h.isFence_step, (h.step line).1, ih (h.step line)]

end Visible

def headingsIn (maxDepth : Int) (f : Fence) (lines : List (List Char)) : List Heading :=
  ((visibleLines f lines).filterMap Heading.parse?).filter fun h => (h.level : Int) ≤ maxDepth

section Headings

variable {maxDepth : Int} {a : List Char}

theorem headingsIn_append (f : Fence) (a b : List (List Char)) :
    headingsIn maxDepth f (a ++ b) = headingsIn maxDepth f a ++ headingsIn maxDepth (f.after a) b := by
  rw [headingsIn, visibleLines_append, filterMap_append, filter_append]
  rfl

theorem headingsIn_empty_line (f : Fence) : headingsIn maxDepth f [[]] = [] := by
  rw [headingsIn, visibleLines_cons]
  split_ifs <;> rfl

theorem headingsIn_dropLast (h : WholeLines a) (f : Fence) :
    headingsIn maxDepth f (linesOf a).dropLast = headingsIn maxDepth f (linesOf a) := by
  conv_rhs => rw [linesOf_of_wholeLines h, headingsIn_append, headingsIn_empty_line, append_nil]

theorem headings_append (h : WholeLines a) (hclosed : (Fence.atEnd a).inside = false) (b : List Char) :
    headings maxDepth (a ++ b) = headings maxDepth a ++ headings maxDepth b := by
  have hsame : (Fence.atEnd a).Same .start := Fence.same_of_outside hclosed rfl
  calc headings maxDepth (a ++ b)
      = headingsIn maxDepth .start ((linesOf a).dropLast ++ linesOf b) := by rw [← linesOf_append h]; rfl
    _ = headingsIn maxDepth .start (linesOf a) ++ headingsIn maxDepth (Fence.atEnd a) (linesOf b) := by
      rw [headingsIn_append, headingsIn_dropLast h, Fence.after_dropLast h]
      rfl
    _ = headings maxDepth a ++ headings maxDepth b := by
      rw [headingsIn, headingsIn, visibleLines_of_same hsame]
      rfl

end Headings

theorem render_of_listed {start start' maxDepth : Int} {fragments fragments' : List Fragment} (withAnchors : Bool)
    (h : listed start maxDepth fragments = listed start' maxDepth fragments') :
    render start maxDepth withAnchors fragments = render start' maxDepth withAnchors fragments' := by
  have hempty : Remembers [] [] := fun _ => rfl
  have hlines : fragmentLines withAnchors maxDepth [] (fragmentsFrom start fragments) =
      fragmentLines withAnchors maxDepth [] (fragmentsFrom start' fragments') := by
    rw [fragmentLines_eq withAnchors hempty, fragmentLines_eq withAnchors hempty, ← listed, ← listed, h]
  rw [render, hlines, render]

theorem flatMap_headingsOf {texts : List String} (hwhole : ∀ s ∈ texts, WholeLines s.toList)
    (hclosed : ∀ s ∈ texts, (Fence.atEnd s.toList).inside = false) (maxDepth : Int) :
    (texts.map Fragment.text).flatMap (headingsOf maxDepth) = headings maxDepth (String.join texts).toList := by
  induction texts with
  | nil => rfl
  | cons s texts ih =>
    obtain ⟨hs, hwhole⟩ := forall_mem_cons.1 hwhole
    obtain ⟨hs', hclosed⟩ := forall_mem_cons.1 hclosed
    rw [map_cons, flatMap_cons, ih hwhole hclosed, String.join_cons, String.toList_append, headings_append hs hs']
    rfl

/-- The outline of texts that are whole lines and leave no fence open is the outline of all of them in one. -/
theorem render_join {texts : List String} (hwhole : ∀ s ∈ texts, WholeLines s.toList)
    (hclosed : ∀ s ∈ texts, (Fence.atEnd s.toList).inside = false) (maxDepth : Int) (withAnchors : Bool) :
    render 0 maxDepth withAnchors (texts.map .text) = render 0 maxDepth withAnchors [.text (String.join texts)] := by
  refine render_of_listed withAnchors ?_
  calc listed 0 maxDepth (texts.map .text) = (texts.map Fragment.text).flatMap (headingsOf maxDepth) := rfl
    _ = headings maxDepth (String.join texts).toList := flatMap_headingsOf hwhole hclosed maxDepth
    _ = listed 0 maxDepth [.text (String.join texts)] := (append_nil _).symm

/-- Closed fences, an empty fragment, both kinds of line ends and a heading that comes up again. -/
theorem render_join_fenced : (∀ s ∈ ["# A\n```\n# B\n```\n", "", "# A\r\n## C\n"],
      WholeLines s.toList ∧ (Fence.atEnd s.toList).inside = false) ∧
    render 0 5 true (["# A\n```\n# B\n```\n", "", "# A\r\n## C\n"].map .text) =
      render 0 5 true [.text "# A\n```\n# B\n```\n# A\r\n## C\n"] := by
  have htexts : ∀ s ∈ ["# A\n```\n# B\n```\n", "", "# A\r\n## C\n"],
      WholeLines s.toList ∧ (Fence.atEnd s.toList).inside = false := by
    decide
  exact ⟨htexts, render_join (fun s hs => (htexts s hs).1) (fun s hs => (htexts s hs).2) 5 true⟩

end Transclude.Outline
