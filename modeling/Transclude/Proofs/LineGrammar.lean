import Transclude.Proofs.Blocks

/-!
# Blocks line by line

A line opens a block, blank lines may follow it, and the block lasts until a line that closes it. `Block.linewise`
scans the lines of a text in this way, and `Block.all`, which looks for fences, comes to the same (`all_eq_linewise`).
-/

namespace Transclude

open List

variable {rest ls later : List (List Char)} {line head cs after closing body t next : List Char}

/-! ## Lines with their ends -/

namespace Text

def linesWithEnds : List Char → List (List Char)
  | [] => []
  | c :: cs =>
    if c == '\n' then [c] :: linesWithEnds cs
    else
      match linesWithEnds cs with
      | [] => [[c]]
      | line :: rest => (c :: line) :: rest

inductive AreLines : List (List Char) → Prop where
  | nil : AreLines []
  | last {body : List Char} : body ≠ [] → '\n' ∉ body → AreLines [body]
  | line {body : List Char} {rest : List (List Char)} : '\n' ∉ body → AreLines rest →
      AreLines ((body ++ ['\n']) :: rest)

theorem flatten_linesWithEnds (cs : List Char) : (linesWithEnds cs).flatten = cs := by
  fun_induction linesWithEnds cs with
  | case1 => rfl
  | case2 c cs _ ih => rw [flatten_cons, ih, singleton_append]
  | case3 c cs _ hnil ih =>
    rw [hnil] at ih
    rw [← ih]
    rfl
  | case4 c cs _ line rest hcons ih =>
    rw [hcons] at ih
    rw [← ih]
    rfl

theorem areLines_linesWithEnds (cs : List Char) : AreLines (linesWithEnds cs) := by
  fun_induction linesWithEnds cs with
  | case1 => exact .nil
  | case2 c cs hc ih =>
    rw [eq_of_beq hc]
    exact @AreLines.line [] _ not_mem_nil ih
  | case3 c cs hc hnil ih =>
    have hc : c ≠ '\n' := by simpa using hc
    exact .last (by simp) (by simpa using hc.symm)
  | case4 c cs hc line rest hcons ih =>
    have hc : c ≠ '\n' := by simpa using hc
    rw [hcons] at ih
    cases ih with
    | last hne hbody => exact .last (by simp) (by simp [hc.symm, hbody])
    | line hbody hrest => exact @AreLines.line (c :: _) _ (by simp [hc.symm, hbody]) hrest

theorem AreLines.tail (h : AreLines (line :: rest)) : AreLines rest := by
  cases h with
  | last => exact .nil
  | line _ hrest => exact hrest

theorem AreLines.right {ms : List (List Char)} (h : AreLines (ls ++ ms)) : AreLines ms := by
  induction ls with
  | nil => exact h
  | cons line rest ih => exact ih h.tail

theorem AreLines.dropWhile (h : AreLines ls) (p : List Char → Bool) : AreLines (ls.dropWhile p) := by
  rw [← takeWhile_append_dropWhile (p := p) (l := ls)] at h
  exact h.right

theorem AreLines.ne_nil (h : AreLines (line :: rest)) : line ≠ [] := by
  cases h with
  | last hne _ => exact hne
  | line => simp

theorem AreLines.after_head (hhead : '\n' ∉ head) (h : AreLines ((head ++ t) :: rest)) :
    ∃ body, '\n' ∉ body ∧ (t = body ++ ['\n'] ∨ t = body ∧ rest = []) := by
  generalize hline : head ++ t = line at h
  cases h with
  | last _ hbody =>
    subst hline
    exact ⟨t, fun hmem => hbody (mem_append_right _ hmem), .inr ⟨rfl, rfl⟩⟩
  | line hbody _ =>
    rcases eq_nil_or_concat t with rfl | ⟨front, c, rfl⟩
    · rw [append_nil] at hline
      exact absurd (by simp [hline]) hhead
    · rw [concat_eq_append, ← append_assoc] at hline
      obtain ⟨rfl, hc⟩ := append_inj' hline rfl
      refine ⟨front, fun hmem => hbody (mem_append_right _ hmem), .inl ?_⟩
      rw [concat_eq_append, hc]

theorem AreLines.eq_body (h : AreLines (line :: rest)) :
    ∃ body, '\n' ∉ body ∧ (line = body ++ ['\n'] ∨ line = body ∧ rest = []) := by
  have hnil : '\n' ∉ ([] : List Char) := not_mem_nil
  exact AreLines.after_head hnil h

theorem AreLines.flatten_concat (h : AreLines (ls ++ next :: rest)) : ls.flatten = [] ∨ ∃ front, ls.flatten = front ++ ['\n'] := by
  induction ls with
  | nil => exact .inl rfl
  | cons line ls ih =>
    rw [flatten_cons]
    rcases ih h.tail with hnil | ⟨front, hfront⟩
    · obtain ⟨body, -, rfl | ⟨-, hrest⟩⟩ := h.eq_body
      · exact .inr ⟨body, by rw [hnil, append_nil]⟩
      · simp at hrest
    · exact .inr ⟨line ++ front, by rw [hfront, append_assoc]⟩

theorem AreLines.prefix_iff (hhead : '\n' ∉ head) (h : AreLines (line :: rest)) : head <+: line ++ rest.flatten ↔ head <+: line := by
  refine ⟨fun hpre => ?_, fun hpre => hpre.trans (prefix_append _ _)⟩
  obtain ⟨body, -, rfl | ⟨-, rfl⟩⟩ := h.eq_body
  · refine ( prefix_or_prefix_of_prefix hpre (prefix_append _ _)).resolve_right fun hline => ?_
    exact hhead (hline.subset (by simp))
  · simpa using hpre

theorem AreLines.exists_last (hhead : '\n' ∉ head) (h : AreLines ((head ++ t) :: (ls ++ next :: rest))) : ∃ front, t ++ ls.flatten = front ++ ['\n'] := by
  rcases h.tail.flatten_concat with hnil | ⟨front, hfront⟩
  · obtain ⟨body, -, rfl | ⟨-, hrest⟩⟩ := h.after_head hhead
    · exact ⟨body, by rw [hnil, append_nil]⟩
    · simp at hrest
  · exact ⟨t ++ front, by rw [hfront, append_assoc]⟩

theorem forall_mem_flatten_of_allBlank (h : ∀ l ∈ ls, allBlank l = true) : ∀ c ∈ ls.flatten, isBlank c = true := by
  intro c hc
  obtain ⟨l, hl, hc⟩ := mem_flatten.1 hc
  exact all_eq_true.1 (h l hl) c hc

theorem exists_first_other {α : Type} {p : α → Bool} {xs : List α} (h : xs.all p = false) :
    ∃ front x back, xs = front ++ x :: back ∧ (∀ a ∈ front, p a = true) ∧ p x = false := by
  obtain ⟨x, hfind⟩ : ∃ x, xs.find? (!p ·) = some x := by
    rw [← Option.isSome_iff_exists]
    simpa using h
  obtain ⟨hx, front, back, hxs, hfront⟩ := find?_eq_some_iff_append.1 hfind
  exact ⟨front, x, back, hxs, by simpa using hfront, by simpa using hx⟩

theorem AreLines.exists_margin (hhead : '\n' ∉ head) (h : AreLines ((head ++ t) :: rest)) (ht : allBlank t = false) :
    ∃ margin c after, t ++ rest.flatten = margin ++ c :: after ∧ (∀ a ∈ margin, isBlank a = true) ∧
      isBlank c = false ∧ '\n' ∉ margin := by
  obtain ⟨body, hbody, hends⟩ := h.after_head hhead
  have hall : body.all isBlank = false := by
    rcases hends with rfl | ⟨rfl, -⟩
    · rw [allBlank, all_append, Bool.and_eq_false_iff] at ht
      exact ht.resolve_right (by decide)
    · exact ht
  obtain ⟨margin, c, back, rfl, hmargin, hc⟩ := exists_first_other hall
  have hfree : '\n' ∉ margin := fun hmem => hbody (mem_append_left _ hmem)
  rcases hends with rfl | ⟨rfl, -⟩
  · exact ⟨margin, c, back ++ '\n' :: rest.flatten, by simp, hmargin, hc, hfree⟩
  · exact ⟨margin, c, back ++ rest.flatten, by simp, hmargin, hc, hfree⟩

end Text

namespace Block

open Transclude.Text

/-! ## The grammar -/

def opensBlock (line : List Char) : Bool := (after? openingFence line).any allBlank

def onlyMargin (cs : List Char) : Bool := (cs.takeWhile (· != '\n')).all fun c => c == ' ' || c == '\t'

def closesBlock (line : List Char) : Bool := (after? fence line).any onlyMargin

/-- The blocks of the lines of a text that starts at `offset`, and where the scan ends. -/
def linewise (offset : Nat) (lines : List (List Char)) : Scan × Nat :=
  match lines with
  | [] => ({ blocks := [], unclosed := none }, offset)
  | line :: rest =>
    if opensBlock line then
      let blanks := rest.takeWhile allBlank
      let body := rest.dropWhile allBlank
      let raw := body.takeWhile fun l => !closesBlock l
      match _h : body.dropWhile fun l => !closesBlock l with
      | [] => ({ blocks := [], unclosed := some offset }, offset)
      | closing :: later =>
        let stop := offset + (line ++ blanks.flatten ++ raw.flatten ++ closing).length
        let (scan, ending) := linewise stop later
        ({ scan with blocks := { raw := raw.flatten, start := offset, stop } :: scan.blocks }, ending)
    else linewise (offset + line.length) rest
termination_by lines.length
decreasing_by
  · have h₁ := (dropWhile_sublist (l := rest.dropWhile allBlank) fun l => !closesBlock l).length_le
    have h₂ := (dropWhile_sublist (l := rest) allBlank).length_le
    rw [_h, length_cons] at h₁
    simp only [length_cons]
    omega
  · simp

/-! ## Fences by lines -/

section Lines

variable {measure : List Char → Option Nat} {line : List Char} {rest : List (List Char)}

theorem findFence_false_body (hbody : '\n' ∉ body) (after : List Char) :
    findFence measure false (body ++ '\n' :: after) =
      (findFence measure true after).map fun f => { f with before := body ++ '\n' :: f.before } := by
  induction body with
  | nil =>
    rw [nil_append, findFence]
    cases h : findFence measure true after <;> simp [h]
  | cons c body ih =>
    rw [mem_cons, not_or] at hbody
    have hc : (c == '\n') = false := by simpa using Ne.symm hbody.1
    rw [cons_append, findFence, hc, ih hbody.2]
    cases h : findFence measure true after <;> simp

theorem findFence_false_last (hbody : '\n' ∉ body) : findFence measure false body = none := by
  induction body with
  | nil => rfl
  | cons c body ih =>
    rw [mem_cons, not_or] at hbody
    have hc : (c == '\n') = false := by simpa using Ne.symm hbody.1
    rw [findFence, hc, ih hbody.2]
    rfl

theorem findFence_of_none (h : measure cs = none) : findFence measure true cs = findFence measure false cs := by
  cases cs with
  | nil => rfl
  | cons c cs => simp [findFence, h]

theorem findFence_skip (h : AreLines (line :: rest)) (hmeas : measure (line ++ rest.flatten) = none) :
    findFence measure true (line ++ rest.flatten) =
      (findFence measure true rest.flatten).map fun f => { f with before := line ++ f.before } := by
  rw [findFence_of_none hmeas]
  cases h with
  | last _ hbody =>
    rw [flatten_nil, append_nil, findFence_false_last hbody]
    rfl
  | line hbody _ =>
    rw [append_assoc, singleton_append, findFence_false_body hbody]
    simp

theorem findFence_here {n : Nat} (hne : cs ≠ []) (hmeas : measure cs = some n) :
    findFence measure true cs = some { before := [], length := n, rest := cs.drop n } := by
  cases cs with
  | nil => exact absurd rfl hne
  | cons c cs => simp [findFence, hmeas]

end Lines

/-! ## How long the fence of a line is -/

section Lengths

variable {line : List Char} {rest ls : List (List Char)}

theorem after?_line (hhead : '\n' ∉ head) (h : AreLines (line :: rest)) :
    after? head (line ++ rest.flatten) = (after? head line).map (· ++ rest.flatten) := by
  cases ht : after? head line with
  | some t =>
    rw [after?_eq_some_iff.1 ht]
    exact after?_eq_some_iff.2 (append_assoc ..)
  | none =>
    rw [Option.map_none, Option.eq_none_iff_forall_ne_some]
    intro t' ht'
    have hpre : head <+: line ++ rest.flatten := ⟨t', (after?_eq_some_iff.1 ht').symm⟩
    obtain ⟨t, rfl⟩ := (h.prefix_iff hhead).1 hpre
    rw [after?_eq_some_iff.2 rfl] at ht
    cases ht

theorem closingLength?_line (h : AreLines (line :: rest)) :
    closingLength? (line ++ rest.flatten) = if closesBlock line then some line.length else none := by
  have hgraves : '\n' ∉ fence := by decide
  rw [closingLength?, closesBlock, after?_line hgraves h]
  cases ht : after? fence line with
  | none => rfl
  | some t =>
    obtain rfl := after?_eq_some_iff.1 ht
    obtain ⟨body, hbody, hends⟩ := h.after_head hgraves
    have hmargin : onlyMargin t = body.all fun c => c == ' ' || c == '\t' := by
      have hfree : ∀ c ∈ body, (c != '\n') = true := fun c hc => by simpa using ne_of_mem_of_not_mem hc hbody
      rcases hends with rfl | ⟨rfl, -⟩
      · rw [onlyMargin, takeWhile_append_of_pos hfree]
        simp
      · rw [onlyMargin, takeWhile_eq_self_iff.2 hfree]
    simp only [Option.map_some, Option.any_some, hmargin]
    cases hall : body.all fun c => c == ' ' || c == '\t' with
    | true =>
      rw [all_eq_true] at hall
      rcases hends with rfl | ⟨rfl, rfl⟩
      · rw [append_assoc, takeWhile_append_of_pos hall]
        simp [Nat.add_assoc]
      · rw [flatten_nil, append_nil, takeWhile_eq_self_iff.2 hall]
        simp
    | false =>
      obtain ⟨front, c, back, rfl, hfront, hc⟩ := exists_first_other hall
      have hne : c ≠ '\n' := ne_of_mem_of_not_mem (by simp) hbody
      obtain ⟨after, hafter⟩ : ∃ after, t ++ rest.flatten = front ++ c :: after := by
        rcases hends with rfl | ⟨rfl, -⟩ <;> simp
      rw [hafter, takeWhile_append_of_pos hfront, takeWhile_cons, hc]
      simp [hne]

theorem length_upToLast (front : List Char) {margin : List Char} (hmargin : '\n' ∉ margin) :
    ((front ++ ['\n'] ++ margin).reverse.dropWhile (· != '\n')).length = (front ++ ['\n']).length := by
  have hfree : ∀ c ∈ margin.reverse, (c != '\n') = true := fun c hc => by
    simpa using ne_of_mem_of_not_mem (mem_reverse.1 hc) hmargin
  rw [reverse_append, dropWhile_append_of_pos hfree]
  simp

theorem openingLength?_line (h : AreLines (line :: rest)) : openingLength? (line ++ rest.flatten) =
      if opensBlock line then some (line ++ (rest.takeWhile allBlank).flatten).length else none := by
  have hgraves : '\n' ∉ openingFence := by decide
  rw [openingLength?, opensBlock, after?_line hgraves h]
  cases ht : after? openingFence line with
  | none => rfl
  | some t =>
    obtain rfl := after?_eq_some_iff.1 ht
    simp only [Option.map_some, Option.any_some]
    by_cases hblank : allBlank t = true
    · rw [if_pos hblank]
      rw [allBlank, all_eq_true] at hblank
      cases hrest : rest.all allBlank with
      | true =>
        -- the blanks reach the end of the text
        rw [all_eq_true] at hrest
        have hall : ∀ c ∈ t ++ rest.flatten, isBlank c = true :=
          forall_mem_append.2 ⟨hblank, forall_mem_flatten_of_allBlank hrest⟩
        rw [takeWhile_eq_self_iff.2 hall, if_pos rfl, takeWhile_eq_self_iff.2 hrest]
      | false =>
        -- they end in the margin of the first line that is not blank
        obtain ⟨blanks, next, later, rfl, hblanks, hnext⟩ := exists_first_other hrest
        have hnil : '\n' ∉ ([] : List Char) := not_mem_nil
        obtain ⟨margin, c, after, heq, hmargin, hc, hfree⟩ := AreLines.exists_margin hnil h.tail.right hnext
        obtain ⟨front, hfront⟩ := h.exists_last hgraves
        have hall : ∀ c ∈ front ++ ['\n'] ++ margin, isBlank c = true := by
          rw [← hfront]
          exact forall_mem_append.2 ⟨forall_mem_append.2 ⟨hblank, forall_mem_flatten_of_allBlank hblanks⟩, hmargin⟩
        have htext : t ++ (blanks ++ next :: later).flatten = front ++ ['\n'] ++ margin ++ c :: after := by
          rw [flatten_append, flatten_cons, heq, ← append_assoc, hfront, ← append_assoc]
        have htake : (front ++ ['\n'] ++ margin ++ c :: after).takeWhile isBlank = front ++ ['\n'] ++ margin := by
          rw [takeWhile_append_of_pos hall, takeWhile_cons, hc]
          simp
        have hlines : (blanks ++ next :: later).takeWhile allBlank = blanks := by
          rw [takeWhile_append_of_pos hblanks, takeWhile_cons, hnext]
          simp
        rw [htext, htake, hlines, if_neg (by simp), if_pos (by simp), length_upToLast front hfree,
          ← hfront, append_assoc, @List.length_append _ openingFence]
    · rw [if_neg hblank]
      obtain ⟨margin, c, after, heq, hmargin, hc, hfree⟩ := h.exists_margin hgraves (by simpa using hblank)
      have htake : (margin ++ c :: after).takeWhile isBlank = margin := by
        rw [takeWhile_append_of_pos hmargin, takeWhile_cons, hc]
        simp
      rw [heq, htake, if_neg (by simp), if_neg (by simpa using hfree)]

theorem findFence_closing_none (h : AreLines ls) (hnone : ls.dropWhile (fun l => !closesBlock l) = []) :
    findFence closingLength? true ls.flatten = none := by
  induction ls with
  | nil => rfl
  | cons line rest ih =>
    rw [dropWhile_cons] at hnone
    split at hnone
    · rename_i hline
      have hmeas : closingLength? (line ++ rest.flatten) = none := by
        rw [closingLength?_line h, if_neg (by simpa using hline)]
      rw [flatten_cons, findFence_skip h hmeas, ih h.tail hnone]
      rfl
    · cases hnone

theorem findFence_closing_some (h : AreLines ls) (hsome : ls.dropWhile (fun l => !closesBlock l) = closing :: later) :
    findFence closingLength? true ls.flatten = some {
      before := (ls.takeWhile fun l => !closesBlock l).flatten, length := closing.length, rest := later.flatten } := by
  induction ls with
  | nil => cases hsome
  | cons line rest ih =>
    rw [dropWhile_cons] at hsome
    have hmeas := closingLength?_line h
    split at hsome
    · rename_i hline
      rw [if_neg (by simpa using hline)] at hmeas
      rw [flatten_cons, findFence_skip h hmeas, ih h.tail hsome, takeWhile_cons, if_pos hline]
      rfl
    · rename_i hline
      cases hsome
      rw [if_pos (by simpa using hline)] at hmeas
      rw [flatten_cons, findFence_here (by simp [h.ne_nil]) hmeas, takeWhile_cons, if_neg hline, drop_left]
      rfl

end Lengths

/-! ## The two scans -/

section Scans

variable {offset : Nat} {line : List Char} {rest : List (List Char)}

theorem allFrom_of_nothing (h : firstFrom offset cs = (.nothing, after)) :
    allFrom offset cs = { blocks := [], unclosed := none } := by
  rw [allFrom]
  split <;> simp_all

theorem allFrom_of_unclosed {start : Nat} (h : firstFrom offset cs = (.unclosed start, after)) :
    allFrom offset cs = { blocks := [], unclosed := some start } := by
  rw [allFrom]
  split <;> simp_all

theorem allFrom_of_block {b : Block} (h : firstFrom offset cs = (.block b, after)) :
    allFrom offset cs = { allFrom b.stop after with blocks := b :: (allFrom b.stop after).blocks } := by
  rw [allFrom]
  split <;> simp_all

theorem allFrom_congr {offset' : Nat} {cs' : List Char} (h : firstFrom offset cs = firstFrom offset' cs') :
    allFrom offset cs = allFrom offset' cs' := by
  rcases hfirst : firstFrom offset cs with ⟨_ | start | b, after⟩ <;> rw [hfirst] at h
  · rw [allFrom_of_nothing hfirst, allFrom_of_nothing h.symm]
  · rw [allFrom_of_unclosed hfirst, allFrom_of_unclosed h.symm]
  · rw [allFrom_of_block hfirst, allFrom_of_block h.symm]

theorem allFrom_skip (h : AreLines (line :: rest)) (hline : opensBlock line = false) :
    allFrom offset (line ++ rest.flatten) = allFrom (offset + line.length) rest.flatten := by
  have hmeas : openingLength? (line ++ rest.flatten) = none := by
    rw [openingLength?_line h, hline]
    rfl
  refine allFrom_congr ?_
  rw [firstFrom, findFence_skip h hmeas, firstFrom]
  cases findFence openingLength? true rest.flatten with
  | none => rfl
  | some f => simp [Nat.add_assoc]

theorem findFence_opening (h : AreLines (line :: rest)) (hline : opensBlock line = true) :
    findFence openingLength? true (line ++ rest.flatten) = some {
      before := [], length := (line ++ (rest.takeWhile allBlank).flatten).length
      rest := (rest.dropWhile allBlank).flatten } := by
  have hmeas := openingLength?_line h
  rw [if_pos hline] at hmeas
  have hsplit : line ++ rest.flatten =
      line ++ (rest.takeWhile allBlank).flatten ++ (rest.dropWhile allBlank).flatten := by
    rw [append_assoc, ← flatten_append, takeWhile_append_dropWhile]
  rw [hsplit] at hmeas ⊢
  rw [findFence_here (by simp [h.ne_nil]) hmeas, drop_left]

theorem allFrom_unclosed (h : AreLines (line :: rest)) (hline : opensBlock line = true)
    (hnone : (rest.dropWhile allBlank).dropWhile (fun l => !closesBlock l) = []) :
    allFrom offset (line ++ rest.flatten) = { blocks := [], unclosed := some offset } := by
  refine allFrom_of_unclosed (?_ : _ = (Found.unclosed offset, []))
  rw [firstFrom, findFence_opening h hline]
  simp only [findFence_closing_none (h.tail.dropWhile _) hnone]
  rfl

theorem allFrom_closed {stop : Nat} (h : AreLines (line :: rest)) (hline : opensBlock line = true)
    (hsome : (rest.dropWhile allBlank).dropWhile (fun l => !closesBlock l) = closing :: later)
    (hstop : stop = offset + (line ++ (rest.takeWhile allBlank).flatten ++
      ((rest.dropWhile allBlank).takeWhile fun l => !closesBlock l).flatten ++ closing).length) :
    allFrom offset (line ++ rest.flatten) = { allFrom stop later.flatten with
      blocks :=
        { raw := ((rest.dropWhile allBlank).takeWhile fun l => !closesBlock l).flatten, start := offset, stop } ::
          (allFrom stop later.flatten).blocks } := by
  refine allFrom_of_block (b := ⟨_, offset, stop⟩) ?_
  rw [firstFrom, findFence_opening h hline]
  simp only [findFence_closing_some (h.tail.dropWhile _) hsome, length_nil, Nat.add_zero, hstop,
    length_append, Nat.add_assoc]

end Scans

/-- Where the scan of a text that starts at `offset` ends. -/
def Scan.reach (s : Scan) (offset : Nat) (cs : List Char) : Nat := s.unclosed.getD (offset + cs.length)

theorem linewise_eq_allFrom {offset : Nat} (h : AreLines ls) :
    linewise offset ls = (allFrom offset ls.flatten, (allFrom offset ls.flatten).reach offset ls.flatten) := by
  fun_induction linewise offset ls with
  | case1 offset =>
    have hnothing : firstFrom offset [] = (.nothing, []) := rfl
    rw [flatten_nil, allFrom_of_nothing hnothing]
    rfl
  | case2 offset line rest hline body hnone =>
    rw [flatten_cons, allFrom_unclosed h hline hnone]
    rfl
  | case3 offset line rest hline blanks body raw closing later hsome stop scan ending hlater ih =>
    have hlines : AreLines later := by
      have := (h.tail.dropWhile allBlank).dropWhile fun l => !closesBlock l
      rw [hsome] at this
      exact this.tail
    have hrest : rest = blanks ++ (raw ++ closing :: later) := by
      rw [← hsome, takeWhile_append_dropWhile, takeWhile_append_dropWhile]
    have hreach : stop + later.flatten.length = offset + (line ++ rest.flatten).length := by
      simp only [stop, hrest, flatten_append, flatten_cons, length_append]
      omega
    rw [hlater] at ih
    obtain ⟨rfl, rfl⟩ := Prod.mk.inj (ih hlines)
    rw [flatten_cons, allFrom_closed h hline hsome (show stop = _ from rfl), Scan.reach, Scan.reach, hreach]
  | case4 offset line rest hline ih =>
    rw [ih h.tail, flatten_cons, allFrom_skip h (by simpa using hline), Scan.reach, Scan.reach,
      length_append, Nat.add_assoc]

theorem Chained.pairwise {position stop : Nat} {blocks : List Block} (h : Chained position stop blocks) :
    (∀ b ∈ blocks, position ≤ b.start) ∧ blocks.Pairwise fun a b => a.stop ≤ b.start := by
  induction blocks generalizing position with
  | nil => exact ⟨by simp, .nil⟩
  | cons b rest ih =>
    obtain ⟨hstart, hlt, hrest⟩ := h
    obtain ⟨hlater, hpairs⟩ := ih hrest
    refine ⟨forall_mem_cons.2 ⟨hstart, fun x hx => ?_⟩, .cons hlater hpairs⟩
    exact hstart.trans (hlt.le.trans (hlater x hx))

/-- Looking for fences comes to the same as looking at lines: the same blocks, the same block that is not closed and the
same end of the scan. What looks like an opening fence in a block opens none. -/
theorem all_eq_linewise (cs : List Char) : (all cs, (all cs).stop cs) = linewise 0 (linesWithEnds cs) ∧
      (all cs).blocks.Pairwise fun a b => a.stop ≤ b.start := by
  refine ⟨?_, (all_covers cs).chained.pairwise.2⟩
  rw [linewise_eq_allFrom (areLines_linesWithEnds cs), flatten_linesWithEnds, Scan.reach, Nat.zero_add]
  rfl

end Block
end Transclude
