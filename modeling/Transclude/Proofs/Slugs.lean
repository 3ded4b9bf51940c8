import Transclude.Proofs.Anchors

/-!
# Slugs

A slug is made of words with hyphens between them: word characters other than the underscore, which is a gap like a
blank, and hyphens, none of them at an end. Such a text in lower case is its own slug (`slug_stable`).
-/

namespace Transclude.Outline

open List Text

variable {cs : List Char} {c : Char}

theorem hyphenate_of_gapless (h : ∀ c ∈ cs, isBlank c = false ∧ c ≠ '_') : hyphenate false cs = cs := by
  induction cs with
  | nil => rfl
  | cons c cs ih =>
    rw [forall_mem_cons] at h
    rw [hyphenate, if_neg (by simp [h.1]), ih h.2]

theorem mem_slug {text : List Char} (h : c ∈ slug text) :
    c = '-' ∨ (isWord c = true ∧ c ≠ '_') ∧ isBlank c = false ∧ lowerChar c = c := by
  rcases isSlug_slug text c h with hword | hc
  · refine (mem_hyphenate (mem_of_mem_strip h)).imp_right fun ⟨hkept, hblank, hline⟩ => ?_
    exact ⟨⟨hword, hline⟩, hblank, lowerChar_of_mem_lowerAfter (mem_of_mem_strip (mem_filter.1 hkept).1)⟩
  · exact .inl hc

theorem slug_eq_self (hends : FreeEnds (· == '-') cs) (h : ∀ c ∈ cs, c = '-' ∨ (isWord c = true ∧ c ≠ '_') ∧
    isBlank c = false ∧ lowerChar c = c) : slug cs = cs := by
  have hhyphen : isBlank '-' = false ∧ lowerChar '-' = '-' := by decide
  have hgapless : ∀ c ∈ cs, isBlank c = false ∧ c ≠ '_' := fun c hc => by
    rcases h c hc with rfl | ⟨hword, hblank, -⟩
    · exact ⟨hhyphen.1, by decide⟩
    · exact ⟨hblank, hword.2⟩
  have hlower : lowerChars cs = cs := lowerChars_eq_self fun c hc => by
    rcases h c hc with rfl | ⟨-, -, hlower⟩
    · exact hhyphen.2
    · exact hlower
  have hkept : cs.filter (fun c => isWord c || isBlank c || c == '-') = cs := filter_eq_self.2 fun c hc => by
    rcases h c hc with rfl | ⟨hword, -⟩
    · simp
    · simp [hword.1]
  rw [slug, hlower, trim_token fun c hc => (hgapless c hc).1, hkept, hyphenate_of_gapless hgapless]
  exact hends.strip_eq

theorem slug_stable (text : List Char) : (∀ c ∈ slug text, isWord c = true ∧ c ≠ '_' ∨ c = '-') ∧
    (slug text).head? ≠ some '-' ∧ (slug text).getLast? ≠ some '-' ∧ slug (slug text) = slug text := by
  have hends : FreeEnds (· == '-') (slug text) := freeEnds_strip _ _
  refine ⟨fun c hc => ?_, fun hc => ?_, fun hc => ?_, slug_eq_self hends fun _ => mem_slug⟩
  · exact (mem_slug hc).symm.imp_left And.left
  · cases hends.1 _ hc
  · cases hends.2 _ hc

end Transclude.Outline
