import Mathlib.Data.List.Nodup
import Transclude.Proofs.Letters
import Transclude.Proofs.Numerals

/-!
# Anchors of an outline

The first heading with a slug has the slug for its anchor, and each further one the slug with a number. A slug may
look like another one with a number, so the anchors of an outline differ exactly if none does (`anchors_nodup_iff`).
-/

namespace Transclude.Outline

open List Text Nat

variable {as : List (List Char)} {hs : List Heading}

/-! ## Numbered slugs -/

def numbered (base : List Char) : Nat → List Char
  | 0 => base
  | n + 1 => base ++ '-' :: (toString (n + 1)).toList

def anchorsAfter (past : List (List Char)) : List (List Char) → List (List Char)
  | [] => []
  | base :: rest => numbered base (past.count base) :: anchorsAfter (base :: past) rest

def occurrences (past : List (List Char)) : List (List Char) → List (List Char × Nat)
  | [] => []
  | base :: rest => (base, past.count base) :: occurrences (base :: past) rest

section Numbered

variable {past slugs : List (List Char)} {base other : List Char} {m n : Nat}

theorem anchorsAfter_eq (past slugs : List (List Char)) :
    anchorsAfter past slugs = (occurrences past slugs).map fun x => numbered x.1 x.2 := by
  induction slugs generalizing past with
  | nil => rfl
  | cons base rest ih => rw [anchorsAfter, occurrences, map_cons, ih]

theorem length_anchorsAfter (past slugs : List (List Char)) : (anchorsAfter past slugs).length = slugs.length := by
  induction slugs generalizing past with
  | nil => rfl
  | cons base rest ih => rw [anchorsAfter, length_cons, length_cons, ih]

theorem anchorsAfter_append (past slugs more : List (List Char)) :
    anchorsAfter past (slugs ++ more) = anchorsAfter past slugs ++ anchorsAfter (slugs.reverse ++ past) more := by
  induction slugs generalizing past with
  | nil => rfl
  | cons base rest ih =>
    rw [cons_append, anchorsAfter, anchorsAfter, ih, reverse_cons, append_assoc, cons_append, singleton_append]

theorem mem_occurrences_iff :
    (base, n) ∈ occurrences past slugs ↔ past.count base ≤ n ∧ n < past.count base + slugs.count base := by
  induction slugs generalizing past with
  | nil => simp [occurrences]
  | cons head rest ih =>
    rw [occurrences, mem_cons, ih, Prod.mk.injEq]
    by_cases hhead : base = head
    · subst hhead
      rw [count_cons_self, count_cons_self, eq_self_iff_true, true_and]
      omega
    · rw [count_cons_of_ne (Ne.symm hhead), count_cons_of_ne (Ne.symm hhead)]
      simp [hhead]

theorem nodup_occurrences (past slugs : List (List Char)) : (occurrences past slugs).Nodup := by
  induction slugs generalizing past with
  | nil => exact .nil
  | cons base rest ih =>
    refine nodup_cons.2 ⟨fun hmem => ?_, ih _⟩
    have hle := (mem_occurrences_iff.1 hmem).1
    rw [count_cons_self] at hle
    omega

theorem eq_of_append_hyphen {a b c d : List Char} (h : a ++ '-' :: b = c ++ '-' :: d) (hb : '-' ∉ b) (hd : '-' ∉ d) :
    a = c ∧ b = d := by
  rcases append_eq_append_iff.1 h with ⟨e, rfl, heq⟩ | ⟨e, rfl, heq⟩
  · cases e with
    | nil => exact ⟨(append_nil a).symm, (List.cons.inj heq).2⟩
    | cons x e => exact absurd ((List.cons.inj heq).2 ▸ mem_append_right e mem_cons_self) hb
  · cases e with
    | nil => exact ⟨append_nil c, (List.cons.inj heq).2.symm⟩
    | cons x e => exact absurd ((List.cons.inj heq).2 ▸ mem_append_right e mem_cons_self) hd

theorem numbered_succ_inj (h : numbered base (m + 1) = numbered other (n + 1)) : base = other ∧ m = n := by
  obtain ⟨hbase, hdigs⟩ := eq_of_append_hyphen h (Number.not_mem_toString (by decide) _) (Number.not_mem_toString (by decide) _)
  change (Nat.repr (m + 1)).toList = (Nat.repr (n + 1)).toList at hdigs
  rw [toList_repr, toList_repr] at hdigs
  have hnumber : m + 1 = n + 1 := by
    rw [← ofDigitChars_ten_toDigits (n := m + 1), hdigs, ofDigitChars_ten_toDigits]
  exact ⟨hbase, Nat.succ.inj hnumber⟩

theorem anchorsAfter_nodup_iff :
    (anchorsAfter [] slugs).Nodup ↔ ∀ base ∈ slugs, ∀ n, 1 ≤ n → n < slugs.count base → numbered base n ∉ slugs := by
  have hmem : ∀ base n, (base, n) ∈ occurrences [] slugs ↔ n < slugs.count base := by
    intro base n
    rw [mem_occurrences_iff, count_nil, Nat.zero_add]
    exact and_iff_right (zero_le n)
  have hpos : ∀ {base n}, n < slugs.count base → base ∈ slugs := fun hn => count_pos_iff.1 (zero_lt_of_lt hn)
  rw [anchorsAfter_eq, nodup_map_iff_inj_on (nodup_occurrences [] slugs)]
  constructor
  · intro hinj base hbase n hn hcount hslug
    have hpair := hinj (numbered base n, 0) ((hmem _ _).2 (count_pos_iff.2 hslug)) (base, n) ((hmem _ _).2 hcount) rfl
    have hzero := congrArg Prod.snd hpair
    omega
  · rintro hdiffer ⟨base, m⟩ hbase ⟨other, n⟩ hother heq
    rw [hmem] at hbase hother
    cases m with
    | zero =>
      cases n with
      | zero => exact congrArg (·, 0) heq
      | succ n => exact absurd (heq ▸ hpos hbase) (hdiffer other (hpos hother) (n + 1) (le_add_left 1 n) hother)
    | succ m =>
      cases n with
      | zero => exact absurd (heq ▸ hpos hother) (hdiffer base (hpos hbase) (m + 1) (le_add_left 1 m) hbase)
      | succ n =>
        obtain ⟨rfl, rfl⟩ := numbered_succ_inj heq
        rfl

end Numbered

/-! ## Headings -/

def headingsOf (maxDepth : Int) : Fragment → List Heading
  | .text s => headings maxDepth s.toList
  | _ => []

def listed (start maxDepth : Int) (fragments : List Fragment) : List Heading :=
  (fragmentsFrom start fragments).flatMap (headingsOf maxDepth)

def Remembers (seen : Seen) (past : List (List Char)) : Prop :=
  ∀ base, seen.lookup base = if past.count base = 0 then none else some (past.count base - 1)

section Headings

variable {seen : Seen} {past : List (List Char)} (withAnchors : Bool)

theorem anchor_eq (h : Remembers seen past) (text : List Char) :
    (anchor seen text).1 = numbered (slug text) (past.count (slug text)) ∧
      Remembers (anchor seen text).2 (slug text :: past) := by
  have hbase := h (slug text)
  -- the entry in front hides the one that was remembered before
  have hcons : ∀ n, n = past.count (slug text) → Remembers ((slug text, n) :: seen) (slug text :: past) := by
    intro n hn base
    by_cases hsame : base = slug text
    · rw [hsame, lookup_cons_self, count_cons_self, if_neg (Nat.succ_ne_zero _), hn, Nat.add_sub_cancel]
    · rw [lookup_cons, beq_eq_false_iff_ne.2 hsame, count_cons_of_ne (Ne.symm hsame)]
      exact h base
  unfold anchor
  by_cases hcount : past.count (slug text) = 0
  · rw [if_pos hcount] at hbase
    simp only [hbase]
    exact ⟨by rw [hcount, numbered], hcons 0 hcount.symm⟩
  · rw [if_neg hcount] at hbase
    obtain ⟨n, hn⟩ := exists_eq_succ_of_ne_zero hcount
    simp only [hbase]
    exact ⟨by rw [hn, numbered, succ_sub_one], hcons _ (by omega)⟩

theorem outlineLines_eq (h : Remembers seen past) (hs : List Heading) : (outlineLines withAnchors seen hs).1 =
        List.zipWith (outlineLine withAnchors) hs (anchorsAfter past (hs.map fun h => slug h.text)) ∧
      Remembers (outlineLines withAnchors seen hs).2 ((hs.map fun h => slug h.text).reverse ++ past) := by
  induction hs generalizing seen past with
  | nil => exact ⟨rfl, h⟩
  | cons heading hs ih =>
    obtain ⟨hanchor, hseen⟩ := anchor_eq h heading.text
    obtain ⟨hlines, hrest⟩ := ih hseen
    rw [map_cons, anchorsAfter, zipWith_cons_cons, ← hanchor, ← hlines, reverse_cons,
      append_assoc]
    exact ⟨rfl, hrest⟩

theorem fragmentLines_eq (h : Remembers seen past) (maxDepth : Int) (fragments : List Fragment) :
    fragmentLines withAnchors maxDepth seen fragments =
      List.zipWith (outlineLine withAnchors) (fragments.flatMap (headingsOf maxDepth))
        (anchorsAfter past ((fragments.flatMap (headingsOf maxDepth)).map fun h => slug h.text)) := by
  induction fragments generalizing seen past with
  | nil => rfl
  | cons fragment rest ih =>
    rw [flatMap_cons]
    cases fragment with
    | text s =>
      obtain ⟨hlines, hseen⟩ := outlineLines_eq withAnchors h (headings maxDepth s.toList)
      have hlen : (headings maxDepth s.toList).length =
          (anchorsAfter past ((headings maxDepth s.toList).map fun h => slug h.text)).length := by
        rw [length_anchorsAfter, length_map]
      rw [fragmentLines, headingsOf, map_append, anchorsAfter_append, zipWith_append hlen, ← hlines, ← ih hseen]
    | span x => exact ih h
    | directive d => exact ih h

end Headings

/-! ## Reading anchors -/

def anchorIn? (line : List Char) : Option (List Char) :=
  if line.getLast? = some ')' ∧ '#' ∈ line then some (line.dropLast.reverse.takeWhile (· != '#')).reverse else none

def anchorsIn (text : String) : List (List Char) := (splitAt '\n' text.toList).filterMap anchorIn?

def IsSlug (cs : List Char) : Prop := ∀ c ∈ cs, isWord c = true ∨ c = '-'

section Reading

variable {cs line a : List Char} {h : Heading} {c : Char}

theorem IsSlug.not_mem (hslug : IsSlug cs) (hword : isWord c = false) (hne : c ≠ '-') : c ∉ cs := by
  intro hmem
  rcases hslug c hmem with hc | hc
  · rw [hword] at hc
    cases hc
  · exact hne hc

theorem mem_hyphenate {gap : Bool} (hmem : c ∈ hyphenate gap cs) : c = '-' ∨ c ∈ cs ∧ isBlank c = false ∧ c ≠ '_' := by
  fun_induction hyphenate gap cs with
  | case1 => cases hmem
  | case2 d ds hblank ih => exact (ih hmem).imp_right fun hc => ⟨mem_cons_of_mem _ hc.1, hc.2⟩
  | case3 gap d ds hblank hgap ih =>
    rcases mem_cons.1 hmem with hc | hmem
    · exact .inl hc
    · exact (ih hmem).imp_right fun hc => ⟨mem_cons_of_mem _ hc.1, hc.2⟩
  | case4 gap d ds hblank ih =>
    rcases mem_cons.1 hmem with rfl | hmem
    · rw [Bool.not_eq_true, Bool.or_eq_false_iff] at hblank
      exact .inr ⟨mem_cons_self, hblank.1, by simpa using hblank.2⟩
    · exact (ih hmem).imp_right fun hc => ⟨mem_cons_of_mem _ hc.1, hc.2⟩

theorem isSlug_slug (text : List Char) : IsSlug (slug text) := by
  intro c hmem
  rcases mem_hyphenate (mem_of_mem_strip hmem) with hc | ⟨hkept, hblank, -⟩
  · exact .inr hc
  · have hkind := (mem_filter.1 hkept).2
    simpa [hblank] using hkind

theorem isWord_of_isDigit (hc : c.isDigit = true) : isWord c = true := by
  have hsmall : c.toNat < 0x80 := by
    have hle : c.toNat ≤ 57 := (Char.isDigit_iff_toNat.1 hc).2
    omega
  rw [isWord, isLetterOrNumeral, if_pos hsmall, Char.isAlphanum, hc, Bool.or_true, Bool.or_true]

theorem isSlug_numbered (hslug : IsSlug cs) (n : Nat) : IsSlug (numbered cs n) := by
  cases n with
  | zero => exact hslug
  | succ n =>
    intro c hmem
    rcases mem_append.1 hmem with hmem | hmem
    · exact hslug c hmem
    · rcases mem_cons.1 hmem with hc | hmem
      · exact .inr hc
      · exact .inl (isWord_of_isDigit (Number.isDigit_of_mem_toString hmem))

theorem isSlug_of_mem_anchorsAfter {past slugs : List (List Char)} (hslugs : ∀ cs ∈ slugs, IsSlug cs)
    (hmem : a ∈ anchorsAfter past slugs) : IsSlug a := by
  induction slugs generalizing past with
  | nil => cases hmem
  | cons base rest ih =>
    obtain ⟨hbase, hrest⟩ := forall_mem_cons.1 hslugs
    rcases mem_cons.1 hmem with rfl | hmem
    · exact isSlug_numbered hbase _
    · exact ih hrest hmem

theorem anchorIn?_outlineLine (h : Heading) (ha : IsSlug a) : anchorIn? (outlineLine true h a) = some a := by
  have hsign : '#' ∉ a := ha.not_mem (by decide) (by decide)
  obtain ⟨front, hline⟩ : ∃ front, outlineLine true h a = (front ++ '#' :: a) ++ [')'] :=
    ⟨List.replicate (2 * (h.level - 1)) ' ' ++ "- [".toList ++ h.text ++ "](".toList, by simp [outlineLine]⟩
  have htake : (a.reverse ++ '#' :: front.reverse).takeWhile (· != '#') = a.reverse :=
    takeWhile_until (mt mem_reverse.1 hsign)
  have hreverse : (front ++ '#' :: a).reverse = a.reverse ++ '#' :: front.reverse := by simp
  rw [anchorIn?, hline, if_pos ⟨List.getLast?_concat, by simp⟩, dropLast_concat, hreverse, htake, reverse_reverse]

theorem newline_not_mem_outlineLine (hh : '\n' ∉ h.text) (ha : IsSlug a) : '\n' ∉ outlineLine true h a := by
  have hanchor : '\n' ∉ a := ha.not_mem (by decide) (by decide)
  simp [outlineLine, hh, hanchor]

theorem visibleLines_subset (f : Fence) (lines : List (List Char)) : visibleLines f lines ⊆ lines := by
  fun_induction visibleLines f lines with
  | case1 f => exact List.Subset.refl _
  | case2 f line rest isFence f' hstep hhidden ih => exact subset_cons_of_subset _ ih
  | case3 f line rest isFence f' hstep hhidden ih => exact cons_subset_cons _ ih

theorem newline_not_mem_of_mem_headings {maxDepth : Int} (hmem : h ∈ headings maxDepth cs) : '\n' ∉ h.text := by
  obtain ⟨line, hline, hparse⟩ := mem_filterMap.1 (mem_filter.1 hmem).1
  have hnone : '\n' ∉ line := not_mem_of_mem_splitAt (visibleLines_subset _ _ hline)
  unfold Heading.parse? at hparse
  dsimp only at hparse
  split at hparse
  · obtain rfl := Option.some.inj hparse
    intro hnewline
    have hrest := (dropWhile_suffix _).subset ((trimEnd_isPrefix _).subset hnewline)
    exact hnone (mem_of_mem_drop hrest)
  · cases hparse

end Reading

theorem filterMap_anchorIn? (hlen : hs.length = as.length) (has : ∀ a ∈ as, IsSlug a) : (List.zipWith (outlineLine true) hs as).filterMap anchorIn? = as := by
  induction hs generalizing as with
  | nil => exact (length_eq_zero_iff.1 hlen.symm).symm
  | cons h hs ih =>
    cases as with
    | nil => cases hlen
    | cons a as =>
      obtain ⟨ha, has⟩ := forall_mem_cons.1 has
      rw [zipWith_cons_cons, filterMap_cons_some (anchorIn?_outlineLine h ha), ih (Nat.succ.inj hlen) has]

theorem newline_not_mem_zipWith (hhs : ∀ h ∈ hs, '\n' ∉ h.text) (has : ∀ a ∈ as, IsSlug a) : ∀ line ∈ List.zipWith (outlineLine true) hs as, '\n' ∉ line := by
  intro line hline
  rw [← map_uncurry_zip_eq_zipWith] at hline
  obtain ⟨⟨h, a⟩, hpair, rfl⟩ := mem_map.1 hline
  obtain ⟨hh, ha⟩ := of_mem_zip hpair
  exact newline_not_mem_outlineLine (hhs h hh) (has a ha)

theorem anchorsIn_render (start maxDepth : Int) (fragments : List Fragment) :
    anchorsIn (render start maxDepth true fragments) =
      anchorsAfter [] ((listed start maxDepth fragments).map fun h => slug h.text) := by
  have hempty : Remembers [] [] := fun _ => rfl
  have hlines := fragmentLines_eq true hempty maxDepth (fragmentsFrom start fragments)
  rw [← listed] at hlines
  have hslugs : ∀ a ∈ anchorsAfter [] ((listed start maxDepth fragments).map fun h => slug h.text), IsSlug a :=
    fun a => isSlug_of_mem_anchorsAfter (forall_mem_map.2 fun h _ => isSlug_slug h.text)
  have htexts : ∀ h ∈ listed start maxDepth fragments, '\n' ∉ h.text := by
    intro h hmem
    obtain ⟨fragment, -, hmem⟩ := mem_flatMap.1 hmem
    cases fragment with
    | text s => exact newline_not_mem_of_mem_headings hmem
    | span x => cases hmem
    | directive d => cases hmem
  have hlen : (listed start maxDepth fragments).length =
      (anchorsAfter [] ((listed start maxDepth fragments).map fun h => slug h.text)).length := by
    rw [length_anchorsAfter, length_map]
  have hanchors := filterMap_anchorIn? hlen hslugs
  have hnone := newline_not_mem_zipWith htexts hslugs
  rw [← hlines] at hanchors hnone
  unfold render
  cases hfrags : fragmentLines true maxDepth [] (fragmentsFrom start fragments) with
  | nil =>
    rw [hfrags] at hanchors
    rw [← hanchors]
    decide
  | cons line lines =>
    rw [hfrags] at hanchors hnone
    have htext : (String.ofList (joinWith ['\n'] (line :: lines)) ++ "\n").toList = ended (line :: lines) := by
      rw [← joinWith_append_newline (cons_ne_nil _ _), String.toList_append, String.toList_ofList]
      rfl
    rw [anchorsIn, htext, splitAt_ended hnone, filterMap_append, hanchors]
    exact append_nil _

/-- The anchors in an outline differ exactly if no slug is the slug of a repeated heading with one of its numbers. -/
theorem anchors_nodup_iff (start maxDepth : Int) (fragments : List Fragment) :
    (anchorsIn (render start maxDepth true fragments)).Nodup ↔
      ∀ base ∈ (listed start maxDepth fragments).map fun h => slug h.text, ∀ n, 1 ≤ n →
        n < ((listed start maxDepth fragments).map fun h => slug h.text).count base →
        numbered base n ∉ (listed start maxDepth fragments).map fun h => slug h.text := by
  rw [anchorsIn_render, anchorsAfter_nodup_iff]

/-- A heading whose slug is the numbered one of a repeated heading gets the same anchor. -/
theorem anchors_collide :
    anchorsIn (render 0 5 true [.text "# A\n# A\n# A-1\n"]) = ["a".toList, "a-1".toList, "a-1".toList] ∧
    ¬(anchorsIn (render 0 5 true [.text "# A\n# A\n# A-1\n"])).Nodup := by
  have hanchors : anchorsIn (render 0 5 true [.text "# A\n# A\n# A-1\n"]) =
      ["a".toList, "a-1".toList, "a-1".toList] := by
    decide
  rw [hanchors]
  decide

end Transclude.Outline
