import Transclude.Proofs.Members
import Transclude.Proofs.Paths

/-!
# Searches that read lines by their numbers

Here the search for a symbol reads each line and each name by its number. A number out of range, a block that opens
nowhere and a search that does not end are faults (`Fault`). None of them ever happens, and the search gives what it
gives on lists (`extractAt_eq`).
-/

namespace Transclude.Symbol

open List Search Signature Option

/-! ## Reading by numbers -/

inductive Fault where
  | noLine (number : Nat)
  | noName (number : Nat)
  | noBlock (first : Nat)
  | noAnswer
  | endless
deriving Repr, DecidableEq

section Walk

variable {α σ β : Type}

def readAt (fault : Nat → Fault) (xs : List α) (k : Nat) : Except Fault α := (xs[k]?).elim (.error (fault k)) .ok

/-- Reads `count` elements from number `at_` on. A step goes on with another state, or ends with an answer. -/
def walk (fault : Nat → Fault) (xs : List α) (step : σ → Nat → α → Except Fault (σ ⊕ β)) :
    σ → Nat → Nat → Except Fault (σ ⊕ β)
  | s, _, 0 => .ok (.inl s)
  | s, at_, count + 1 => do
    let x ← readAt fault xs at_
    match ← step s at_ x with
    | .inl s => walk fault xs step s (at_ + 1) count
    | .inr answer => return .inr answer

/-- The same walk through a list, of which `at_` is the number of the first element. -/
def walkList (step : σ → Nat → α → σ ⊕ β) : σ → Nat → List α → σ ⊕ β
  | s, _, [] => .inl s
  | s, at_, x :: xs => (step s at_ x).elim (fun s => walkList step s (at_ + 1) xs) .inr

variable {fault : Nat → Fault} {xs : List α}

theorem readAt_eq {k : Nat} {x : α} (h : xs[k]? = some x) : readAt fault xs k = .ok x := by
  rw [readAt, h]
  rfl

theorem walk_eq {step : σ → Nat → α → Except Fault (σ ⊕ β)} {step' : σ → Nat → α → σ ⊕ β}
    (hstep : ∀ s k x, xs[k]? = some x → step s k x = .ok (step' s k x)) {at_ count : Nat}
    (hrange : ∀ k < count, at_ + k < xs.length) (s : σ) :
    walk fault xs step s at_ count = .ok (walkList step' s at_ ((xs.drop at_).take count)) := by
  induction count generalizing s at_ with
  | zero => simp [walk, walkList]
  | succ count ih =>
    have hlt : at_ < xs.length := hrange 0 (Nat.succ_pos count)
    have hread : xs[at_]? = some xs[at_] := List.getElem?_eq_getElem hlt
    have hrest : ∀ k < count, at_ + 1 + k < xs.length := by
      intro k hk
      have := hrange (k + 1) (by omega)
      omega
    rw [drop_eq_getElem_cons hlt, take_succ_cons, walk, readAt_eq hread, walkList]
    show (step s at_ xs[at_] >>= _) = _
    rw [hstep s at_ _ hread]
    cases step' s at_ xs[at_] with
    | inl s' => exact ih hrest s'
    | inr answer => rfl

end Walk

/-! ## The end of a declaration -/

/-- One line on the way to the brace that closes a block; see `closingLine?`. -/
def closingStep (style : CommentStyle) (s : Mode × Int × Bool) (k : Nat) (line : List Char) :
    (Mode × Int × Bool) ⊕ Nat :=
  let code := codeLine style s.1 line
  let depth := s.2.1 + braceBalance code.1
  let opened := s.2.2 || code.1.contains '{'
  if opened && depth == 0 then .inr k else .inl (code.2, depth, opened)

/-- One line on the way to the brace that opens a block; see `openingLine?`. -/
def openingStep (style : CommentStyle) (mode : Mode) (k : Nat) (line : List Char) : Mode ⊕ Nat :=
  let code := codeLine style mode line
  if code.1.contains '{' then .inr k else .inl code.2

/-- One line on the way to the end of an indented declaration; see `lastIndented`. -/
def indentedStep (indent last k : Nat) (line : List Char) : Nat ⊕ Nat :=
  if Text.allBlank line then .inl last else if indentOf line ≤ indent then .inr last else .inl k

def closingAt (lines : List (List Char)) (style : CommentStyle) (start : Nat) : Except Fault (Option Nat) :=
  (walk .noLine lines (fun s k line => .ok (closingStep style s k line)) (.code, 0, false) start
    (lines.length - start)).map Sum.getRight?

def openingAt (lines : List (List Char)) (style : CommentStyle) (start : Nat) : Except Fault Nat := do
  let found ← walk .noLine lines (fun s k line => .ok (openingStep style s k line)) .code start (lines.length - start)
  found.elim (fun _ => .error (.noBlock start)) .ok

/-- The number of the last line of the declaration that begins in line `start`. -/
def lastLineAt (lines : List (List Char)) (style : CommentStyle) (extent : Extent) (start : Nat) :
    Except Fault (Option Nat) :=
  match extent with
  | .braces => closingAt lines style start
  | .restOfFile => .ok (some (lines.length - 1))
  | .indentation => do
    let heading ← readAt .noLine lines start
    let last ← walk .noLine lines (fun last k line => .ok (indentedStep (indentOf heading) last k line)) start
      (start + 1) (lines.length - (start + 1))
    return some (last.elim id id)

section Ends

variable {lines : List (List Char)} {style : CommentStyle} {start : Nat}

theorem closingLine?_eq_walkList (mode : Mode) (depth : Int) (opened : Bool) (at_ : Nat) (lines : List (List Char)) :
    closingLine? style mode depth opened at_ lines =
      (walkList (closingStep style) (mode, depth, opened) at_ lines).getRight? := by
  induction lines generalizing mode depth opened at_ with
  | nil => rfl
  | cons line rest ih =>
    simp only [closingLine?, walkList, closingStep, ih]
    split <;> rfl

theorem openingLine?_eq_walkList (mode : Mode) (at_ : Nat) (lines : List (List Char)) :
    openingLine? style mode at_ lines = (walkList (openingStep style) mode at_ lines).getRight? := by
  induction lines generalizing mode at_ with
  | nil => rfl
  | cons line rest ih =>
    simp only [openingLine?, walkList, openingStep, ih]
    split <;> rfl

theorem lastIndented_eq_walkList (indent last at_ : Nat) (lines : List (List Char)) :
    lastIndented indent last at_ lines = (walkList (indentedStep indent) last at_ lines).elim id id := by
  induction lines generalizing last at_ with
  | nil => rfl
  | cons line rest ih =>
    simp only [lastIndented, walkList, indentedStep, ih]
    split
    · rfl
    · split <;> rfl

theorem walk_to_end {σ β : Type} (step : σ → Nat → List Char → σ ⊕ β) (s : σ) (start : Nat) :
    walk .noLine lines (fun s k line => .ok (step s k line)) s start (lines.length - start) =
      .ok (walkList step s start (lines.drop start)) := by
  rw [walk_eq (fun _ _ _ _ => rfl) fun k hk => by omega, take_of_length_le (by simp)]

theorem lastLineAt_eq (extent : Extent) (hstart : start < lines.length) :
    lastLineAt lines style extent start = .ok (lastLine? lines style extent start) := by
  cases extent with
  | braces =>
    rw [lastLineAt, closingAt, walk_to_end, lastLine?, closingLine?_eq_walkList]
    rfl
  | restOfFile => rfl
  | indentation =>
    have hread := List.getElem?_eq_getElem hstart
    rw [lastLine?_indentation hread, lastLineAt, readAt_eq hread, lastIndented_eq_walkList]
    show (walk .noLine lines _ _ _ _ >>= _) = _
    rw [walk_to_end]
    rfl

theorem openingOf_isSome {depth : Int} {at_ last : Nat} {codes : List (List Char)}
    (h : closingOf depth false at_ codes = some last) : (openingOf at_ codes).isSome = true := by
  induction codes generalizing depth at_ with
  | nil => cases h
  | cons code rest ih =>
    rw [openingOf]
    cases hopens : code.contains '{' with
    | true => rfl
    | false =>
      rw [closingOf, hopens] at h
      exact ih h

theorem openingAt_eq {last : Nat} (h : lastLine? lines style .braces start = some last) :
    ∃ line, openingAt lines style start = .ok line ∧ openingLine? style .code start (lines.drop start) = some line := by
  simp only [lastLine?, closingLine?_eq] at h
  obtain ⟨line, hline⟩ := isSome_iff_exists.1 (openingOf_isSome h)
  rw [← openingLine?_eq] at hline
  refine ⟨line, ?_, hline⟩
  rw [openingLine?_eq_walkList, Sum.getRight?_eq_some_iff] at hline
  show (walk .noLine lines _ _ _ _ >>= _) = _
  rw [walk_to_end, hline]
  rfl

end Ends

/-! ## Searches -/

def linesAt (lines : List (List Char)) (first count : Nat) : Except Fault (List (List Char)) :=
  (walk .noLine lines (fun taken _ line => .ok (.inl (taken ++ [line]) : List (List Char) ⊕ Empty)) [] first count).map
    (Sum.elim id Empty.elim)

def typesFitAt (lines : List (List Char)) (types : Option (List (List Char))) (first : Nat) : Except Fault Bool :=
  types.elim (.ok true) fun requested => do
    let heading ← linesAt lines first (min (first + maxLines) lines.length - first)
    return (declaredTypes? heading).any (accepts requested)

def Search.lastLineAt (s : Search) (d : Declaration) (at_ : Nat) (code : List Char) : Except Fault (Option Nat) :=
  if Piece.fits s.name d.heading none code then
    (typesFitAt s.lines s.types at_).bind fun fits =>
      if fits then Symbol.lastLineAt s.lines s.language.comments d.extent at_ else .ok none
  else .ok none

def Search.after (d : Declaration) (code : List Char × Mode) (depth : Int) (k : Nat) (last : Option Nat) :
    (Mode × Int) ⊕ Located :=
  last.elim (.inl (code.2, depth + braceBalance code.1)) fun last => .inr { first := k, last, extent := d.extent }

def Search.stepAt (s : Search) (d : Declaration) (state : Mode × Int) (k : Nat) (line : List Char) :
    Except Fault ((Mode × Int) ⊕ Located) :=
  let code := codeLine s.language.comments state.1 line
  (if s.admits state.2 line then s.lastLineAt d k code.1 else .ok none).map (after d code state.2 k)

def Search.scanAt (s : Search) (d : Declaration) (first count : Nat) : Except Fault (Option Located) :=
  (walk .noLine s.lines (s.stepAt d) (.code, 0) first count).map Sum.getRight?

/-- The indentation of the first of some lines that is not blank; see `baseIndent`. -/
def baseIndentAt (lines : List (List Char)) (first count : Nat) : Except Fault Nat :=
  (walk .noLine lines (fun (_ : Unit) _ line => .ok (if Text.allBlank line then .inl () else .inr (indentOf line))) ()
    first count).map fun found => found.getRight?.getD 0

/-- The first declaration of a name between two lines; see `findName`. -/
def findNameAt (lines : List (List Char)) (language : Language) (name : List Char) (signature : Option (List Char))
    (first last : Nat) (membersOnly : Bool) : Except Fault (Option Located) := do
  let indent ← baseIndentAt lines first (last + 1 - first)
  let search : Search :=
    { lines, language, name, types := signature.map splitParameters, membersOnly, indent }
  language.declarations.findSomeM? fun d => search.scanAt d first (last + 1 - first)

section Found

variable {lines : List (List Char)} {first last : Nat}

theorem linesBetween_eq (lines : List (List Char)) (first last : Nat) :
    linesBetween lines first last = (lines.drop first).take (last + 1 - first) := by
  rw [linesBetween, drop_take]

theorem walkList_concat (taken ls : List (List Char)) (at_ : Nat) :
    walkList (fun taken _ line => (.inl (taken ++ [line]) : List (List Char) ⊕ Empty)) taken at_ ls =
      .inl (taken ++ ls) := by
  induction ls generalizing taken at_ with
  | nil => simp [walkList]
  | cons line rest ih =>
    rw [walkList, Sum.elim_inl, ih]
    simp

theorem linesAt_eq {count : Nat} (h : ∀ k < count, first + k < lines.length) :
    linesAt lines first count = .ok ((lines.drop first).take count) := by
  rw [linesAt, walk_eq (fun _ _ _ _ => rfl) h, walkList_concat]
  rfl

theorem typesFitAt_eq (types : Option (List (List Char))) (first : Nat) :
    typesFitAt lines types first = .ok (types.elim true fun requested =>
      (declaredTypes? (lines.drop first)).any (accepts requested)) := by
  cases types with
  | none => rfl
  | some requested =>
    have hlines : ((lines.drop first).take (min (first + maxLines) lines.length - first)).take
        maxLines = (lines.drop first).take maxLines := by
      rw [take_take, take_eq_take_iff, length_drop]
      omega
    rw [typesFitAt, linesAt_eq fun k hk => by omega, declaredTypes?,
      ← hlines]
    rfl

theorem Search.lastLineAt_eq (s : Search) (d : Declaration) {k : Nat} (hk : k < s.lines.length) (code : List Char) :
    s.lastLineAt d k code = .ok (s.lastLine? d k code) := by
  unfold lastLineAt lastLine?
  split
  · rw [typesFitAt_eq, Symbol.lastLineAt_eq d.extent hk]
    cases s.types with
    | none => rfl
    | some requested => exact (apply_ite Except.ok _ _ _).symm
  · rfl

/-- One line of a search on a list; see `Search.scan`. -/
def Search.step (s : Search) (d : Declaration) (state : Mode × Int) (k : Nat) (line : List Char) :
    (Mode × Int) ⊕ Located :=
  let code := codeLine s.language.comments state.1 line
  after d code state.2 k (if s.admits state.2 line then s.lastLine? d k code.1 else none)

theorem Search.stepAt_eq (s : Search) (d : Declaration) (state : Mode × Int) (k : Nat) (line : List Char)
    (hline : s.lines[k]? = some line) : s.stepAt d state k line = .ok (s.step d state k line) := by
  rw [stepAt, step, s.lastLineAt_eq d (List.getElem?_eq_some_iff.1 hline).1]
  split <;> rfl

theorem Search.scan_eq_walkList (s : Search) (d : Declaration) (mode : Mode) (depth : Int) (at_ : Nat)
    (range : List (List Char)) :
    s.scan d mode depth at_ range = (walkList (s.step d) (mode, depth) at_ range).getRight? := by
  induction range generalizing mode depth at_ with
  | nil => rfl
  | cons line rest ih =>
    simp only [scan, walkList, step, ih]
    generalize (if s.admits depth line = true then
      s.lastLine? d at_ (codeLine s.language.comments mode line).1 else none) = found
    cases found with
    | none => rfl
    | some last => rfl

theorem lt_of_between (h : last < lines.length) : ∀ k < last + 1 - first, first + k < lines.length := by
  omega

theorem Search.scanAt_eq (s : Search) (d : Declaration) (h : last < s.lines.length) :
    s.scanAt d first (last + 1 - first) = .ok (s.scan d .code 0 first (linesBetween s.lines first last)) := by
  rw [scanAt, walk_eq (s.stepAt_eq d) (lt_of_between h), scan_eq_walkList, linesBetween_eq]
  rfl

theorem baseIndentAt_eq (h : last < lines.length) :
    baseIndentAt lines first (last + 1 - first) = .ok (baseIndent (linesBetween lines first last)) := by
  have hwalk (at_ : Nat) (range : List (List Char)) :
      (walkList (fun (_ : Unit) _ line => if Text.allBlank line then .inl () else .inr (indentOf line)) ()
        at_ range).getRight? = (range.find? (!Text.allBlank ·)).map indentOf := by
    induction range generalizing at_ with
    | nil => rfl
    | cons line rest ih =>
      rw [walkList, List.find?_cons]
      cases Text.allBlank line with
      | true => exact ih (at_ + 1)
      | false => rfl
  rw [baseIndentAt, walk_eq (fun _ _ _ _ => rfl) (lt_of_between h), baseIndent, linesBetween_eq, ← hwalk first]
  rfl

theorem findSomeM?_ok {α β : Type} {f : α → Except Fault (Option β)} {g : α → Option β} (h : ∀ x, f x = .ok (g x))
    (xs : List α) : xs.findSomeM? f = .ok (xs.findSome? g) := by
  induction xs with
  | nil => rfl
  | cons x xs ih =>
    rw [List.findSomeM?, h, List.findSome?_cons]
    cases g x with
    | none => exact ih
    | some y => rfl

theorem findNameAt_eq (language : Language) (name : List Char) (signature : Option (List Char)) (membersOnly : Bool)
    (h : last < lines.length) :
    findNameAt lines language name signature first last membersOnly =
      .ok (findName lines language name signature first last membersOnly) := by
  rw [findNameAt, baseIndentAt_eq h]
  exact findSomeM?_ok (fun d => scanAt_eq _ d h) language.declarations

end Found

/-! ## Dotted names -/

def signatureAt (spec : SymbolSpec) (i : Nat) : Option (List Char) :=
  if i + 1 = spec.parts.length then spec.signature else none

/-- The declaration of the name with number `i`, joined with names after it, and the number of the last of these. -/
def findJoinedAt (lines : List (List Char)) (language : Language) (spec : SymbolSpec) (first last i : Nat) :
    Except Fault (Option (Nat × Located)) := do
  let find := fun name j => findNameAt lines language name (signatureAt spec j) first last (0 < i)
  let name ← readAt .noName spec.parts i
  let found ← find name i
  found.elim ((walk .noName spec.parts (fun name j part =>
        (find (name ++ '.' :: part) j).map fun found => found.elim (.inl (name ++ '.' :: part)) fun x => .inr (j, x))
      name (i + 1) (spec.parts.length - (i + 1))).map Sum.getRight?)
    fun x => .ok (some (i, x))

/-- The line after which the members of a declaration are looked for; see `blockLine?`. -/
def blockLineAt (lines : List (List Char)) (style : CommentStyle) (found : Located) : Except Fault Nat :=
  match found.extent with
  | .braces => openingAt lines style found.first
  | _ => .ok found.first

def locateAt (lines : List (List Char)) (language : Language) (spec : SymbolSpec) :
    Nat → Nat → Nat → Nat → Except Fault (Option Located)
  | 0, _, _, _ => .error .endless
  | rounds + 1, first, last, i =>
    if i < spec.parts.length then do
      match ← findJoinedAt lines language spec first last i with
      | none => return none
      | some (j, found) =>
        if j + 1 < spec.parts.length then
          let line ← blockLineAt lines language.comments found
          locateAt lines language spec rounds (line + 1) found.last (j + 1)
        else return some found
    else .error .noAnswer

def extractAt (language : Language) (symbol content : List Char) : Except Fault (Option (List (List Char))) := do
  let lines := Text.lines content
  let spec := SymbolSpec.parse symbol
  match ← locateAt lines language spec spec.parts.length 0 (lines.length - 1) 0 with
  | none => return none
  | some found => some <$> linesAt lines found.first (found.last + 1 - found.first)

section Names

variable {lines : List (List Char)} {language : Language} {spec : SymbolSpec} {first last i : Nat} {found : Located}
  {style : CommentStyle}

theorem findJoined_eq_walkList (membersOnly : Bool) (name : List Char) (rest : List (List Char))
    (hi : i + 1 + rest.length = spec.parts.length) :
    (findJoined lines language spec.signature first last membersOnly name rest).map
        (fun x => (spec.parts.length - 1 - x.2.length, x.1)) =
      (findName lines language name (signatureAt spec i) first last membersOnly).elim (walkList (fun name j part =>
          (findName lines language (name ++ '.' :: part) (signatureAt spec j) first last membersOnly).elim
            (.inl (name ++ '.' :: part)) fun x => .inr (j, x)) name (i + 1) rest).getRight?
        fun x => some (i, x) := by
  induction rest generalizing name i with
  | nil =>
    rw [length_nil] at hi
    have hlast : signatureAt spec i = spec.signature := if_pos hi
    have hplace : spec.parts.length - 1 = i := by omega
    rw [findJoined, hlast]
    cases findName lines language name spec.signature first last membersOnly with
    | none => rfl
    | some x => simp [hplace]
  | cons part rest ih =>
    rw [length_cons] at hi
    have hnot : signatureAt spec i = none := if_neg (by omega)
    rw [findJoined, hnot]
    cases hfind : findName lines language name none first last membersOnly with
    | some x =>
      have hplace : spec.parts.length - 1 - (rest.length + 1) = i := by omega
      simp [hplace]
    | none =>
      have hrest := ih (name ++ '.' :: part) (show i + 1 + 1 + rest.length = spec.parts.length by omega)
      rw [walkList]
      refine hrest.trans ?_
      cases findName lines language (name ++ '.' :: part) (signatureAt spec (i + 1)) first last membersOnly with
      | none => rfl
      | some x => rfl

theorem findJoinedAt_eq {name : List Char} {rest : List (List Char)} (hparts : spec.parts.drop i = name :: rest)
    (h : last < lines.length) :
    findJoinedAt lines language spec first last i =
      .ok ((findJoined lines language spec.signature first last (0 < i) name rest).map
        fun x => (spec.parts.length - 1 - x.2.length, x.1)) := by
  have hread : spec.parts[i]? = some name := by
    rw [← List.head?_drop, hparts]
    rfl
  have hrest : spec.parts.drop (i + 1) = rest := by
    rw [← drop_drop, hparts]
    rfl
  have hlen : i + 1 + rest.length = spec.parts.length := by
    have hlt := (List.getElem?_eq_some_iff.1 hread).1
    rw [← hrest, length_drop]
    omega
  rw [findJoinedAt, readAt_eq hread, findJoined_eq_walkList _ _ _ hlen]
  show (findNameAt lines language name (signatureAt spec i) first last (0 < i) >>= _) = _
  rw [findNameAt_eq language name _ _ h]
  cases findName lines language name (signatureAt spec i) first last (0 < i) with
  | some x => rfl
  | none =>
    have hstep (name : List Char) (j : Nat) (part : List Char) (_ : spec.parts[j]? = some part) :
        (findNameAt lines language (name ++ '.' :: part) (signatureAt spec j) first last (0 < i)).map
          (fun found => found.elim (.inl (name ++ '.' :: part)) fun x => .inr (j, x)) =
        .ok ((findName lines language (name ++ '.' :: part) (signatureAt spec j) first last (0 < i)).elim
          (.inl (name ++ '.' :: part) : List Char ⊕ Nat × Located) fun x => .inr (j, x)) := by
      rw [findNameAt_eq language _ _ _ h]
      rfl
    have hwalk : walk Fault.noName spec.parts _ name (i + 1) (spec.parts.length - (i + 1)) = _ :=
      walk_eq hstep (fun k hk => by omega) name
    rw [take_of_length_le (by simp), hrest] at hwalk
    exact congrArg (Except.map Sum.getRight?) hwalk

theorem le_lastLine? {extent : Extent} {k : Nat} (hk : k < lines.length)
    (h : lastLine? lines style extent k = some last) : k ≤ last := by
  cases extent with
  | braces =>
    simp only [lastLine?, closingLine?_eq] at h
    exact (closingOf_bounds h).1
  | restOfFile =>
    cases h
    omega
  | indentation =>
    rw [lastLine?_indentation (List.getElem?_eq_getElem hk)] at h
    cases h
    exact le_lastIndented_last (Nat.lt_add_one k)

theorem IsFound.bounds (h : IsFound language lines found) : found.first ≤ found.last ∧ found.last < lines.length := by
  obtain ⟨name, signature, first, last, membersOnly, hname⟩ := h
  obtain ⟨line, hline, -, -, -, -, hlast⟩ := findName_eq_some hname
  have hlt := (List.getElem?_eq_some_iff.1 hline).1
  have hle := lastLine?_le hlast hline
  exact ⟨le_lastLine? hlt hlast, by omega⟩

theorem blockLineAt_eq (h : lastLine? lines style found.extent found.first = some found.last) :
    ∃ line, blockLineAt lines style found = .ok line ∧ blockLine? style lines found.extent found.first = some line := by
  obtain ⟨start, stop, extent⟩ := found
  cases extent with
  | braces => exact openingAt_eq h
  | restOfFile => exact ⟨start, rfl, rfl⟩
  | indentation => exact ⟨start, rfl, rfl⟩

theorem locateAt_eq {rounds : Nat} (hi : i < spec.parts.length) (hrounds : spec.parts.length ≤ i + rounds)
    (hlast : last < lines.length) :
    locateAt lines language spec rounds first last i =
      .ok (locateFrom lines language spec.signature first last (0 < i) (spec.parts.drop i) rounds) := by
  induction rounds generalizing first last i with
  | zero => omega
  | succ rounds ih =>
    have hparts := drop_eq_getElem_cons hi
    rw [locateAt, if_pos hi, findJoinedAt_eq hparts hlast, hparts, locateFrom_succ]
    rcases hfound : findJoined lines language spec.signature first last (0 < i) spec.parts[i]
      (spec.parts.drop (i + 1)) with _ | ⟨found, left⟩
    · rfl
    · obtain ⟨hsuffix, name, -, signature, hname⟩ := findJoined_eq_some hfound
      have hlen := hsuffix.length_le
      rw [length_drop] at hlen
      have hleft : left = spec.parts.drop (spec.parts.length - left.length) :=
        suffix_iff_eq_drop.1 (hsuffix.trans (drop_suffix _ _))
      show (if spec.parts.length - 1 - left.length + 1 < spec.parts.length then _ else _ : Except Fault _) =
        .ok (goOn lines language spec.signature rounds found left)
      cases left with
      | nil =>
        rw [if_neg (by simp; omega)]
        rfl
      | cons part rest =>
        obtain ⟨-, -, -, -, -, -, hend⟩ := findName_eq_some hname
        obtain ⟨line, hat, hline⟩ := blockLineAt_eq hend
        have hbounds := IsFound.bounds ⟨name, signature, first, last, _, hname⟩
        rw [length_cons] at hlen
        have hnext : spec.parts.length - 1 - (part :: rest).length + 1 = spec.parts.length - (part :: rest).length := by
          rw [length_cons]
          omega
        have hplace : 0 < spec.parts.length - (part :: rest).length ∧
            spec.parts.length - (part :: rest).length < spec.parts.length ∧
            spec.parts.length ≤ spec.parts.length - (part :: rest).length + rounds := by
          rw [length_cons]
          omega
        rw [hnext, if_pos hplace.2.1, hat, goOn, if_neg (by simp), hline, bind_some]
        show locateAt lines language spec rounds (line + 1) found.last (spec.parts.length - (part :: rest).length) = _
        rw [ih hplace.2.1 hplace.2.2 hbounds.2, ← hleft, decide_eq_true hplace.1]

theorem isFound_of_locateFrom {signature : Option (List Char)} {membersOnly : Bool} {parts : List (List Char)}
    {fuel : Nat} (h : locateFrom lines language signature first last membersOnly parts fuel = some found) :
    IsFound language lines found := by
  induction fuel generalizing first last membersOnly parts with
  | zero => cases h
  | succ fuel ih =>
    cases parts with
    | nil => cases h
    | cons name rest =>
      rw [locateFrom_succ] at h
      obtain ⟨⟨outer, left⟩, houter, h⟩ := bind_eq_some_iff.1 h
      simp only [goOn] at h
      split at h
      · cases h
        obtain ⟨-, n, -, signature', hname⟩ := findJoined_eq_some houter
        exact ⟨n, signature', first, last, membersOnly, hname⟩
      · obtain ⟨line, -, h⟩ := bind_eq_some_iff.1 h
        exact ih h

end Names

theorem parts_ne_nil (symbol : List Char) : (SymbolSpec.parse symbol).parts ≠ [] := by
  unfold SymbolSpec.parse
  dsimp only
  split <;> exact Text.splitAt_ne_nil _

theorem linesBetween_isInfix (lines : List (List Char)) (first last : Nat) : linesBetween lines first last <:+: lines :=
  (drop_suffix _ _).isInfix.trans ( take_prefix _ _).isInfix

theorem linesBetween_ne_nil {lines : List (List Char)} {first last : Nat} (hle : first ≤ last)
    (hlt : last < lines.length) : linesBetween lines first last ≠ [] := by
  refine ne_nil_of_length_pos ?_
  rw [linesBetween_eq, length_take, length_drop]
  omega

/-- For every language, symbol and text every line and name that a search looks at is there, a block that it goes into
opens, and it ends in no more rounds than there are names. Its answer is that of the search on lists, a run of lines
of the text. -/
theorem extractAt_eq (language : Language) (symbol content : List Char) :
    extractAt language symbol content = .ok (extract language symbol content) ∧
    ∀ found, extract language symbol content = some found → found ≠ [] ∧ found <:+: Text.lines content := by
  have hlines : 0 < (Text.lines content).length := length_pos_iff.2 (Text.splitAt_ne_nil _)
  have hparts : 0 < (SymbolSpec.parse symbol).parts.length := length_pos_iff.2 (parts_ne_nil symbol)
  have hloc : locateAt (Text.lines content) language (.parse symbol) (SymbolSpec.parse symbol).parts.length 0
      ((Text.lines content).length - 1) 0 = .ok (locate language (.parse symbol) (Text.lines content)) :=
    locateAt_eq hparts (by omega) (by omega)
  unfold extractAt extract
  dsimp only
  rw [hloc]
  cases hfound : locate language (.parse symbol) (Text.lines content) with
  | none => exact ⟨rfl, fun _ h => by cases h⟩
  | some found =>
    obtain ⟨hle, hlt⟩ := (isFound_of_locateFrom hfound).bounds
    refine ⟨?_, fun _ h => ?_⟩
    · show some <$> linesAt _ _ _ = _
      rw [linesAt_eq (lt_of_between hlt), ← linesBetween_eq]
      rfl
    · cases h
      exact ⟨linesBetween_ne_nil hle hlt, linesBetween_isInfix _ _ _⟩

def Located.nested : List Char :=
  "namespace A.B \x7b\nclass C\n\x7b\n  int f() \x7b \x7d\n  int f(int x)\n  \x7b\n  \x7d\n\x7d\n\x7d\n".toList

theorem extractAt_nested : extractAt .csharp "A.C.f(int)".toList Located.nested =
      .ok (some ["  int f(int x)".toList, "  \x7b".toList, "  \x7d".toList]) ∧
    ["  int f(int x)".toList, "  \x7b".toList, "  \x7d".toList] <:+: Text.lines Located.nested := by
  have hextract : extract .csharp "A.C.f(int)".toList Located.nested =
      some ["  int f(int x)".toList, "  \x7b".toList, "  \x7d".toList] := by
    decide
  obtain ⟨hsafe, hrun⟩ := extractAt_eq .csharp "A.C.f(int)".toList Located.nested
  rw [hextract] at hsafe
  exact ⟨hsafe, (hrun _ hextract).2⟩

end Transclude.Symbol
