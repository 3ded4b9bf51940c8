import Transclude.Proofs.Codes

/-!
# Members stay in their declarations

A member begins in the lines of its declaration, but where it ends is looked for in the whole text. It ends with the
declaration at the latest by indentation, or if both have blocks and are read alike (`Encloses`); one without a block
reaches out (`bodiless_member_reaches_out`).
-/

namespace Transclude.Symbol

open List Bool Nat Option

/-! ## The way to a member -/

section Way

variable {language : Language} {lines : List (List Char)} {p : List Char} {signature : Option (List Char)}
  {first last : Nat} {membersOnly : Bool} {outer inner : Located}

theorem findJoined_concat {name : List Char} {rest left : List (List Char)}
    (h : findJoined lines language none first last membersOnly name rest = some (outer, left)) :
    findJoined lines language signature first last membersOnly name (rest ++ [p]) = some (outer, left ++ [p]) := by
  induction rest generalizing name with
  | nil =>
    obtain ⟨found, hfound, heq⟩ := map_eq_some_iff.1 h
    cases heq
    simp only [nil_append, findJoined, hfound]
  | cons part rest ih =>
    unfold findJoined at h
    split at h
    · rename_i found hfound
      cases h
      simp only [cons_append, findJoined, hfound]
    · rename_i hnone
      simp only [cons_append, findJoined, hnone]
      exact ih h

def IsFound (language : Language) (lines : List (List Char)) (found : Located) : Prop :=
  ∃ name signature first last membersOnly, findName lines language name signature first last membersOnly = some found

theorem locateFrom_concat {parts : List (List Char)} {fuel : Nat}
    (houter : locateFrom lines language none first last membersOnly parts fuel = some outer)
    (hinner : locateFrom lines language signature first last membersOnly (parts ++ [p]) (fuel + 1) = some inner) :
    IsFound language lines outer ∧ ∃ line, blockLine? language.comments lines outer.extent outer.first = some line ∧
      findName lines language p signature (line + 1) outer.last true = some inner := by
  -- both searches find the same declarations, until the shorter one ends
  induction fuel generalizing parts first last membersOnly with
  | zero => cases houter
  | succ fuel ih =>
    cases parts with
    | nil => cases houter
    | cons name rest =>
      rw [cons_append, locateFrom_succ] at hinner
      rw [locateFrom_succ] at houter
      obtain ⟨⟨found, left⟩, hfound, houter⟩ := bind_eq_some_iff.1 houter
      rw [findJoined_concat hfound, bind_some, goOn, if_neg (by simp)] at hinner
      obtain ⟨line, hline, hinner⟩ := bind_eq_some_iff.1 hinner
      simp only [goOn] at houter
      split at houter
      · rename_i hleft
        cases houter
        obtain ⟨-, n, -, signature', hname⟩ := findJoined_eq_some hfound
        rw [isEmpty_iff.1 hleft, nil_append, locateFrom_succ] at hinner
        obtain ⟨⟨member, none'⟩, hmember, hinner⟩ := bind_eq_some_iff.1 hinner
        obtain ⟨x, hx, heq⟩ := map_eq_some_iff.1 hmember
        cases heq
        cases hinner
        exact ⟨⟨n, signature', first, last, membersOnly, hname⟩, line, hline, hx⟩
      · obtain ⟨line', hline', houter⟩ := bind_eq_some_iff.1 houter
        obtain rfl : line' = line := Option.some.inj (hline'.symm.trans hline)
        exact ih houter hinner

end Way

/-! ## Members by indentation -/

def Deeper (indent : Nat) (line : List Char) : Prop := Text.allBlank line = true ∨ indent < indentOf line

section Indentation

variable {indent last at_ j k : Nat} {line : List Char} {rest lines : List (List Char)} {style : CommentStyle}

theorem le_lastIndented_last (h : last < at_) : last ≤ lastIndented indent last at_ rest := by
  induction rest generalizing last at_ with
  | nil => exact Nat.le_refl _
  | cons line rest ih =>
    unfold lastIndented
    split
    · exact ih (by omega)
    · split
      · exact Nat.le_refl _
      · exact Nat.le_trans (by omega) (ih (Nat.lt_succ_self at_))

theorem deeper_of_le_lastIndented (h : last < at_) (hline : rest[j]? = some line)
    (hle : at_ + j ≤ lastIndented indent last at_ rest) : Deeper indent line := by
  induction rest generalizing last at_ j with
  | nil => cases hline
  | cons first rest ih =>
    unfold lastIndented at hle
    split at hle
    · rename_i hblank
      cases j with
      | zero =>
        cases hline
        exact .inl hblank
      | succ j =>
        have hrest : at_ + 1 + j ≤ lastIndented indent last (at_ + 1) rest := by omega
        exact ih (by omega) hline hrest
    · split at hle
      · omega
      · cases j with
        | zero =>
          cases hline
          exact .inr (by omega)
        | succ j =>
          have hrest : at_ + 1 + j ≤ lastIndented indent at_ (at_ + 1) rest := by omega
          exact ih (lt_succ_self at_) hline hrest

theorem le_lastIndented (h : last < at_) (hline : rest[j]? = some line) (hblank : Text.allBlank line = false)
    (hdeeper : ∀ i ≤ j, ∀ x, rest[i]? = some x → Deeper indent x) : at_ + j ≤ lastIndented indent last at_ rest := by
  induction rest generalizing last at_ j with
  | nil => cases hline
  | cons first rest ih =>
    have hfirst : Deeper indent first := hdeeper 0 (zero_le j) first rfl
    have hrest : ∀ i, i + 1 ≤ j → ∀ x, rest[i]? = some x → Deeper indent x := by
      intro i hi x hx
      exact hdeeper (i + 1) hi x hx
    unfold lastIndented
    split
    · rename_i hfirstBlank
      cases j with
      | zero =>
        cases hline
        simp [hblank] at hfirstBlank
      | succ j =>
        have hlater : at_ + 1 + j ≤ lastIndented indent last (at_ + 1) rest :=
          ih (by omega) hline fun i hi => hrest i (by omega)
        omega
    · rename_i hfirstBlank
      rcases hfirst with hfirst | hfirst
      · exact absurd hfirst hfirstBlank
      · rw [if_neg (by omega)]
        cases j with
        | zero => exact le_lastIndented_last (lt_succ_self at_)
        | succ j =>
          have hlater : at_ + 1 + j ≤ lastIndented indent at_ (at_ + 1) rest :=
            ih (by omega) hline fun i hi => hrest i (by omega)
          omega

theorem lastLine?_indentation (h : lines[k]? = some line) :
    lastLine? lines style .indentation k = some (lastIndented (indentOf line) k (k + 1) (lines.drop (k + 1))) := by
  obtain ⟨hlt, rfl⟩ := List.getElem?_eq_some_iff.1 h
  simp only [lastLine?, drop_eq_getElem_cons hlt]

theorem lastIndented_cases (indent last at_ : Nat) (rest : List (List Char)) :
    lastIndented indent last at_ rest = last ∨
      ∃ j line, rest[j]? = some line ∧ Text.allBlank line = false ∧ lastIndented indent last at_ rest = at_ + j := by
  induction rest generalizing last at_ with
  | nil => exact .inl rfl
  | cons first rest ih =>
    have hshift {last : Nat} (j : Nat) (line : List Char) (hline : rest[j]? = some line)
        (hblank : Text.allBlank line = false) (hat : lastIndented indent last (at_ + 1) rest = at_ + 1 + j) :
        ∃ i x, (first :: rest)[i]? = some x ∧ Text.allBlank x = false ∧
          lastIndented indent last (at_ + 1) rest = at_ + i :=
      ⟨j + 1, line, hline, hblank, by omega⟩
    unfold lastIndented
    split
    · rcases ih last (at_ + 1) with h | ⟨j, line, hline, hblank, hat⟩
      · exact .inl h
      · exact .inr (hshift j line hline hblank hat)
    · rename_i hblank
      split
      · exact .inl rfl
      · rcases ih at_ (at_ + 1) with h | ⟨j, line, hline, hblank, hat⟩
        · exact .inr ⟨0, first, rfl, by simpa using hblank, h⟩
        · exact .inr (hshift j line hline hblank hat)

theorem lt_baseIndent {range : List (List Char)} (hdeeper : ∀ x ∈ range, Deeper indent x) (hline : line ∈ range)
    (hblank : Text.allBlank line = false) : indent < baseIndent range := by
  unfold baseIndent
  cases hfind : range.find? fun x => !Text.allBlank x with
  | none =>
    have := List.find?_eq_none.1 hfind line hline
    simp [hblank] at this
  | some x =>
    have hx := List.find?_some hfind
    rcases hdeeper x (mem_of_find?_eq_some hfind) with h | h
    · simp [h] at hx
    · exact h

theorem lastIndented_le_of_member {member : List Char} {s e : Nat}
    (he : lastIndented indent s (s + 1) (lines.drop (s + 1)) = e) (hk : s < k) (hle : k ≤ e)
    (hmember : lines[k]? = some member) (hblank : Text.allBlank member = false)
    (hbase : indentOf member = baseIndent (linesBetween lines (s + 1) e)) :
    lastIndented (indentOf member) k (k + 1) (lines.drop (k + 1)) ≤ e := by
  have hdeeper : ∀ i ≤ e, s < i → ∀ x, lines[i]? = some x → Deeper indent x := by
    intro i hi hs x hx
    obtain ⟨j, rfl⟩ := Nat.exists_eq_add_of_lt hs
    have hx' : (lines.drop (s + 1))[j]? = some x := by
      rw [List.getElem?_drop, ← hx]
      congr 1
      omega
    have hat : s + 1 + j ≤ lastIndented indent s (s + 1) (lines.drop (s + 1)) := by omega
    exact deeper_of_le_lastIndented (Nat.lt_add_one s) hx' hat
  have hindent : indent < indentOf member := by
    rw [hbase]
    refine lt_baseIndent (fun x hx => ?_) (mem_iff_getElem?.2 ⟨k - (s + 1), ?_⟩) hblank
    · obtain ⟨j, hj⟩ := mem_iff_getElem?.1 hx
      obtain ⟨hx, hj⟩ := linesBetween_getElem? hj
      exact hdeeper _ hj (by omega) x hx
    · unfold linesBetween
      rw [List.getElem?_drop, List.getElem?_take, if_pos (by omega), ← hmember]
      congr 1
      omega
  rcases lastIndented_cases (indentOf member) k (k + 1) (lines.drop (k + 1)) with h | ⟨j, line, hline, hlineBlank, hat⟩
  · omega
  · -- from the heading on to the last line of the member all lines are indented more than the heading
    have hlines : ∀ i ≤ k + j - s, ∀ x, (lines.drop (s + 1))[i]? = some x → Deeper indent x := by
      intro i hi x hx
      rw [List.getElem?_drop] at hx
      by_cases hik : s + 1 + i ≤ k
      · exact hdeeper _ (by omega) (by omega) x hx
      · have hx' : (lines.drop (k + 1))[s + i - k]? = some x := by
          rw [List.getElem?_drop, ← hx]
          congr 1
          omega
        have hmem : k + 1 + (s + i - k) ≤ lastIndented (indentOf member) k (k + 1) (lines.drop (k + 1)) := by omega
        rcases deeper_of_le_lastIndented (Nat.lt_add_one k) hx' hmem with h | h
        · exact .inl h
        · exact .inr (by omega)
    have hlast : (lines.drop (s + 1))[k + j - s]? = some line := by
      rw [List.getElem?_drop] at hline ⊢
      rw [← hline]
      congr 1
      omega
    have := le_lastIndented (Nat.lt_add_one s) hlast hlineBlank hlines
    omega

theorem lastLine?_le {extent : Extent} (h : lastLine? lines style extent k = some last)
    (hline : lines[k]? = some line) : last ≤ lines.length - 1 := by
  obtain ⟨hk, -⟩ := List.getElem?_eq_some_iff.1 hline
  cases extent with
  | braces =>
    simp only [lastLine?, closingLine?_eq] at h
    have := closingOf_bounds h
    rw [length_codeLines, length_drop] at this
    omega
  | restOfFile =>
    cases h
    exact Nat.le_refl _
  | indentation =>
    rw [lastLine?_indentation hline] at h
    cases h
    rcases lastIndented_cases (indentOf line) k (k + 1) (lines.drop (k + 1)) with h | ⟨j, x, hx, -, hat⟩
    · omega
    · obtain ⟨hj, -⟩ := List.getElem?_eq_some_iff.1 hx
      rw [length_drop] at hj
      omega

end Indentation

/-! ## Members by braces -/

def opensBlock : List (List Char) → Bool
  | [] => false
  | code :: rest => if code.contains '{' then 0 ≤ braceBalance code else !code.contains '}' && opensBlock rest

/-- A declaration and a member are read alike, both have a block, and no line closes more than one block. -/
structure Encloses (style : CommentStyle) (lines : List (List Char)) (outer inner : Located) : Prop where
  begins : modeAfter style .code ((lines.drop outer.first).take (inner.first - outer.first)) = .code
  outerOpens : opensBlock (codeLines style .code (lines.drop outer.first)) = true
  innerOpens : opensBlock (codeLines style .code (lines.drop inner.first)) = true
  single : ∀ code ∈ (codeLines style .code (lines.drop outer.first)).take (outer.last + 1 - outer.first),
    -1 ≤ braceBalance code

instance (style : CommentStyle) (lines : List (List Char)) (outer inner : Located) :
    Decidable (Encloses style lines outer inner) :=
  decidable_of_iff (_ ∧ _ ∧ _ ∧ _)
    ⟨fun h => ⟨h.1, h.2.1, h.2.2.1, h.2.2.2⟩, fun h => ⟨h.begins, h.outerOpens, h.innerOpens, h.single⟩⟩

section Braces

variable {at_ e e' b : Nat} {codes before rest : List (List Char)} {depth : Int}

theorem braceBalance_eq_zero {code : List Char} (hopen : code.contains '{' = false)
    (hclose : code.contains '}' = false) : braceBalance code = 0 := by
  induction code with
  | nil => rfl
  | cons c cs ih =>
    simp only [contains_cons, or_eq_false_iff] at hopen hclose
    have hc : (c == '{') = false := by rw [BEq.comm]; exact hopen.1
    have hc' : (c == '}') = false := by rw [BEq.comm]; exact hclose.1
    simp [braceBalance, hc, hc', ih hopen.2 hclose.2]

theorem closingOf_append_of_opened (h : closingOf depth true at_ (before ++ rest) = some e)
    (hbefore : at_ + before.length ≤ e) (hdepth : 1 ≤ depth) (hsingle : ∀ code ∈ before, -1 ≤ braceBalance code) :
    ∃ depth', 1 ≤ depth' ∧ closingOf depth' true (at_ + before.length) rest = some e := by
  induction before generalizing depth at_ with
  | nil => exact ⟨depth, hdepth, h⟩
  | cons code before ih =>
    have hcode : -1 ≤ braceBalance code := hsingle code mem_cons_self
    rw [length_cons] at hbefore ⊢
    rw [cons_append, closingOf] at h
    split at h
    · cases h
      omega
    · rename_i hopen
      have hne : depth + braceBalance code ≠ 0 := by simpa using hopen
      obtain ⟨depth', hdepth', hrest⟩ := ih h (by omega) (by omega) fun x hx => hsingle x (mem_cons_of_mem _ hx)
      refine ⟨depth', hdepth', ?_⟩
      rw [← hrest]
      congr 1
      omega

theorem closingOf_append (h : closingOf 0 false at_ (before ++ rest) = some e)
    (hopens : opensBlock (before ++ rest) = true) (hb : openingOf at_ (before ++ rest) = some b)
    (hbefore : b < at_ + before.length) (hle : at_ + before.length ≤ e)
    (hsingle : ∀ code ∈ before, -1 ≤ braceBalance code) :
    ∃ depth', 1 ≤ depth' ∧ closingOf depth' true (at_ + before.length) rest = some e := by
  induction before generalizing at_ with
  | nil =>
    have := openingOf_bounds hb
    rw [length_nil] at hbefore
    omega
  | cons code before ih =>
    have hlater : ∀ x ∈ before, -1 ≤ braceBalance x := fun x hx => hsingle x (mem_cons_of_mem _ hx)
    have hnext : at_ + (code :: before).length = at_ + 1 + before.length := by
      rw [length_cons]
      omega
    rw [hnext] at hbefore hle ⊢
    rw [cons_append, closingOf] at h
    rw [cons_append, opensBlock] at hopens
    rw [cons_append, openingOf] at hb
    by_cases hcode : code.contains '{' = true
    · simp only [hcode, if_true, decide_eq_true_eq] at hopens
      simp only [hcode, Bool.or_true, Bool.true_and, Int.zero_add, beq_iff_eq] at h
      split at h
      · cases h
        omega
      · exact closingOf_append_of_opened h hle (by omega) hlater
    · rw [if_neg hcode] at hb
      simp only [Bool.not_eq_true] at hcode
      simp only [hcode, Bool.false_eq_true, if_false, Bool.and_eq_true, Bool.not_eq_true'] at hopens
      simp only [hcode, Bool.or_false, Bool.false_and, Bool.false_eq_true, if_false,
        braceBalance_eq_zero hcode hopens.1] at h
      exact ih h hopens.2 hb hbefore hle hlater

theorem closingOf_le_of_add {more : Int} (h : closingOf (depth + more) true at_ codes = some e)
    (h' : closingOf depth true at_ codes = some e') (hdepth : 1 ≤ depth) (hmore : 0 ≤ more)
    (hsingle : ∀ code ∈ codes.take (e + 1 - at_), -1 ≤ braceBalance code) : e' ≤ e := by
  induction codes generalizing depth at_ with
  | nil => cases h
  | cons code codes ih =>
    have hle := (closingOf_bounds h).1
    have htake : e + 1 - at_ = (e - at_) + 1 := by omega
    rw [htake] at hsingle
    have hcode : -1 ≤ braceBalance code := hsingle code mem_cons_self
    rw [closingOf] at h h'
    simp only [Bool.true_or, Bool.true_and, beq_iff_eq] at h h'
    by_cases hclosed : depth + braceBalance code = 0
    · rw [if_pos hclosed] at h'
      cases h'
      exact hle
    · rw [if_neg hclosed] at h'
      rw [if_neg (by omega), Int.add_right_comm] at h
      apply ih h h' (by omega)
      intro x hx
      apply hsingle x
      rw [Nat.add_sub_add_right] at hx
      exact mem_cons_of_mem _ hx

theorem closingOf_le_of_opensBlock (h : closingOf depth true at_ codes = some e)
    (h' : closingOf 0 false at_ codes = some e') (hdepth : 1 ≤ depth) (hopens : opensBlock codes = true)
    (hsingle : ∀ code ∈ codes.take (e + 1 - at_), -1 ≤ braceBalance code) : e' ≤ e := by
  induction codes generalizing at_ with
  | nil => cases h
  | cons code codes ih =>
    have hle := (closingOf_bounds h).1
    have htake : e + 1 - at_ = (e + 1 - (at_ + 1)) + 1 := by omega
    rw [htake] at hsingle
    have hlater : ∀ x ∈ codes.take (e + 1 - (at_ + 1)), -1 ≤ braceBalance x := fun x hx =>
      hsingle x (mem_cons_of_mem _ hx)
    rw [closingOf] at h h'
    rw [opensBlock] at hopens
    by_cases hcode : code.contains '{' = true
    · simp only [hcode, if_true, decide_eq_true_eq] at hopens
      simp only [hcode, Bool.or_true, Bool.true_and, Int.zero_add, beq_iff_eq] at h h'
      rw [if_neg (by omega), Int.add_comm] at h
      split at h'
      · cases h'
        exact hle
      · exact closingOf_le_of_add h h' (by omega) (by omega) hlater
    · simp only [Bool.not_eq_true] at hcode
      simp only [hcode, Bool.false_eq_true, if_false, Bool.and_eq_true, Bool.not_eq_true'] at hopens
      have hzero := braceBalance_eq_zero hcode hopens.1
      simp only [hcode, hzero, Bool.or_false, Bool.false_and, Bool.false_eq_true, if_false, Int.add_zero] at h'
      simp only [hzero, Bool.true_or, Bool.true_and, Int.add_zero, beq_iff_eq] at h
      rw [if_neg (by omega)] at h
      exact ih h h' hopens.2 hlater

theorem openingOf_le_closingOf (h : closingOf depth false at_ codes = some e)
    (hb : ∀ b', openingOf at_ codes = some b' → b < b') : b < e := by
  induction codes generalizing depth at_ with
  | nil => cases h
  | cons code codes ih =>
    have hle := (closingOf_bounds h).1
    rw [closingOf] at h
    simp only [openingOf] at hb
    by_cases hcode : code.contains '{' = true
    · have := hb at_ (if_pos hcode)
      omega
    · rw [if_neg hcode] at hb
      simp only [hcode, Bool.or_false, Bool.false_and, Bool.false_eq_true, if_false] at h
      exact ih h hb

end Braces

section Members

variable {style : CommentStyle} {lines : List (List Char)} {outer inner found : Located} {b : Nat} {language : Language}
  {p : List Char}

theorem Encloses.last_le (h : Encloses style lines outer inner)
    (houter : lastLine? lines style .braces outer.first = some outer.last)
    (hinner : lastLine? lines style .braces inner.first = some inner.last)
    (hb : blockLine? style lines .braces outer.first = some b) (hfirst : b < inner.first)
    (hle : inner.first ≤ outer.last) : inner.last ≤ outer.last := by
  simp only [lastLine?, closingLine?_eq] at houter hinner
  simp only [blockLine?, openingLine?_eq] at hb
  have houterFirst := (openingOf_bounds hb).1
  -- the code of the declaration, cut where the member begins
  generalize hcodes : codeLines style .code (lines.drop outer.first) = codes at houter hb
  have hrest : codes.drop (inner.first - outer.first) = codeLines style .code (lines.drop inner.first) := by
    rw [← hcodes, ← codeLines_drop, h.begins, drop_drop, Nat.add_sub_cancel' (by omega)]
  have hlen : outer.first + (codes.take (inner.first - outer.first)).length = inner.first := by
    have := (closingOf_bounds houter).2
    rw [length_take]
    omega
  have hopens := h.outerOpens
  have hsingle := h.single
  rw [hcodes] at hopens hsingle
  have hsplit := take_append_drop (inner.first - outer.first) codes
  rw [← hsplit] at houter hb hopens
  obtain ⟨depth, hdepth, hclose⟩ :=
    closingOf_append houter hopens hb (by omega) (by omega) fun code hcode =>
      hsingle code (take_subset_take_left _ (by omega) hcode)
  rw [hlen, hrest] at hclose
  apply closingOf_le_of_opensBlock hclose hinner hdepth h.innerOpens
  intro code hcode
  apply hsingle code
  rw [← hrest, take_drop] at hcode
  have := mem_of_mem_drop hcode
  rwa [show inner.first - outer.first + (outer.last + 1 - inner.first) = outer.last + 1 - outer.first by omega] at this

theorem member_of_locate {scope symbol : SymbolSpec} (hscope : scope.signature = none)
    (hparts : symbol.parts = scope.parts ++ [p]) (houter : locate language scope lines = some outer)
    (hinner : locate language symbol lines = some inner) :
    IsFound language lines outer ∧ ∃ line, blockLine? language.comments lines outer.extent outer.first = some line ∧
      findName lines language p symbol.signature (line + 1) outer.last true = some inner := by
  unfold locate at houter hinner
  rw [hscope] at houter
  rw [hparts, length_append] at hinner
  exact locateFrom_concat houter hinner

theorem le_blockLine? {extent : Extent} {first : Nat} (h : blockLine? style lines extent first = some b) :
    first ≤ b := by
  cases extent with
  | braces =>
    simp only [blockLine?, openingLine?_eq] at h
    exact (openingOf_bounds h).1
  | restOfFile | indentation =>
    cases h
    exact Nat.le_refl _

theorem IsFound.spec (h : IsFound language lines found) :
    (∃ heading, lines[found.first]? = some heading) ∧ (∃ d ∈ language.declarations, found.extent = d.extent) ∧
      lastLine? lines language.comments found.extent found.first = some found.last := by
  obtain ⟨name, signature, first, last, membersOnly, h⟩ := h
  obtain ⟨heading, hheading, -, -, -, hkind, hlast⟩ := findName_eq_some h
  exact ⟨⟨heading, hheading⟩, hkind, hlast⟩

theorem IsFound.extent_eq (h : IsFound language lines found) (hlang : language.isIndented = true) : found.extent = .indentation := by
  obtain ⟨-, ⟨d, hd, hext⟩, -⟩ := h.spec
  have hind := all_eq_true.1 hlang d hd
  rw [← hext] at hind
  cases hfound : found.extent with
  | indentation => rfl
  | braces | restOfFile =>
    rw [hfound] at hind
    exact absurd hind (by decide)

theorem last_le_of_isIndented {signature : Option (List Char)} (hlang : language.isIndented = true)
    (houter : IsFound language lines outer)
    (hinner : findName lines language p signature (outer.first + 1) outer.last true = some inner) :
    inner.last ≤ outer.last := by
  have hext := houter.extent_eq hlang
  have hext' := IsFound.extent_eq ⟨p, signature, _, _, true, hinner⟩ hlang
  obtain ⟨⟨heading, hheading⟩, -, hlast⟩ := houter.spec
  obtain ⟨member, hmember, hfirst, hle, hbase, -, hlast'⟩ := findName_eq_some hinner
  obtain ⟨hblank, hindent⟩ := hbase rfl hlang
  rw [hext, lastLine?_indentation hheading] at hlast
  rw [hext', lastLine?_indentation hmember] at hlast'
  rw [← Option.some.inj hlast']
  exact lastIndented_le_of_member (Option.some.inj hlast) (by omega) hle hmember hblank hindent

end Members

/-- A member begins in its declaration, after its first line. It also ends there if it ends by its indentation, if the
declaration is the rest of the text, or if the declaration encloses it. A member that has no block in the declaration
ends after it. -/
theorem member_within {language : Language} {scope symbol content p : List Char} {outer inner : Located}
    (hscope : (SymbolSpec.parse scope).signature = none)
    (hparts : (SymbolSpec.parse symbol).parts = (SymbolSpec.parse scope).parts ++ [p])
    (houter : locate language (.parse scope) (Text.lines content) = some outer)
    (hinner : locate language (.parse symbol) (Text.lines content) = some inner) :
    (outer.first < inner.first ∧ inner.first ≤ outer.last) ∧
    (language.isIndented = true ∨ outer.extent = .restOfFile ∨ (outer.extent = .braces ∧ inner.extent = .braces ∧
        Encloses language.comments (Text.lines content) outer inner) → inner.last ≤ outer.last) ∧
    (inner.extent = .braces →
      (∀ b, blockLine? language.comments (Text.lines content) .braces inner.first = some b → outer.last < b) →
      outer.last < inner.last) := by
  obtain ⟨hfound, line, hline, hmember⟩ := member_of_locate hscope hparts houter hinner
  have hblock := le_blockLine? hline
  obtain ⟨heading, hheading, hfirst, hle, -, -, hlast⟩ := findName_eq_some hmember
  obtain ⟨-, -, hlastOuter⟩ := hfound.spec
  refine ⟨⟨by omega, hle⟩, ?_, ?_⟩
  · rintro (hindented | hrest | ⟨houterExtent, hinnerExtent, hencl⟩)
    · rw [hfound.extent_eq hindented] at hline
      cases hline
      exact last_le_of_isIndented hindented hfound hmember
    · rw [hrest] at hlastOuter
      rw [← Option.some.inj hlastOuter]
      exact lastLine?_le hlast hheading
    · rw [houterExtent] at hlastOuter hline
      rw [hinnerExtent] at hlast
      exact hencl.last_le hlastOuter hlast hline (by omega) hle
  · intro hext hnone
    rw [hext, lastLine?, closingLine?_eq] at hlast
    apply openingOf_le_closingOf hlast
    intro b hb
    apply hnone b
    rw [blockLine?, openingLine?_eq]
    exact hb

/-! ### A class and an interface -/

namespace Membered

def square : List Char :=
  "class Square \x7b\n  // a \x7b\n  int area()\n  \x7b\n    if (true) \x7b\n    \x7d\n  \x7d\n\x7d\nclass B \x7b\n\x7d".toList

def shape : List Char := "interface Shape \x7b\n    double area();\n\x7d\nclass Square \x7b\n\x7d\n".toList

end Membered

theorem method_within_class :
    (locate .java (.parse "Square".toList) (Text.lines Membered.square) = some ⟨0, 7, .braces⟩ ∧
      locate .java (.parse "Square.area".toList) (Text.lines Membered.square) = some ⟨2, 6, .braces⟩ ∧
      Encloses Language.java.comments (Text.lines Membered.square) ⟨0, 7, .braces⟩ ⟨2, 6, .braces⟩) ∧
    0 < 2 ∧ 6 ≤ 7 := by
  have hfacts : locate .java (.parse "Square".toList) (Text.lines Membered.square) = some ⟨0, 7, .braces⟩ ∧
      locate .java (.parse "Square.area".toList) (Text.lines Membered.square) = some ⟨2, 6, .braces⟩ ∧
      Encloses Language.java.comments (Text.lines Membered.square) ⟨0, 7, .braces⟩ ⟨2, 6, .braces⟩ := by
    decide
  obtain ⟨houter, hinner, hencl⟩ := hfacts
  have h := member_within (p := "area".toList) (by decide) (by decide) houter hinner
  exact ⟨⟨houter, hinner, hencl⟩, h.1.1, h.2.1 (.inr (.inr ⟨rfl, rfl, hencl⟩))⟩

/-- The method of an interface takes the block of the next class for its own and reaches out of the interface. -/
theorem bodiless_member_reaches_out :
    (SymbolSpec.parse "Shape.area".toList).parts = (SymbolSpec.parse "Shape".toList).parts ++ ["area".toList] ∧
    locate .java (.parse "Shape".toList) (Text.lines Membered.shape) = some ⟨0, 2, .braces⟩ ∧
    locate .java (.parse "Shape.area".toList) (Text.lines Membered.shape) = some ⟨1, 3, .braces⟩ := by
  decide

end Transclude.Symbol
