import Mathlib.Data.List.Forall2
import Mathlib.Data.List.Infix
import Transclude.Proofs.Letters
import Transclude.Source.Symbol

/-!
# Names and parameters of symbols

The names of a symbol are written with points between them, and its parameters in parentheses after them, with commas.
Both are read back as they were written, but a list of parameters that has parentheses itself is taken for a part of the
last name (`parse_signed`, `splitParameters_joined`).
-/

namespace Transclude

open List Text

variable {names : List (List Char)} {signature before : List Char}

/-! ## Names -/

/-- Whether each parenthesis has its partner. -/
def Paired (cs : List Char) : Prop :=
  cs.count '(' = cs.count ')' ∧ ∀ front ∈ cs.inits, front.count ')' ≤ front.count '('

instance (cs : List Char) : Decidable (Paired cs) := inferInstanceAs (Decidable (_ ∧ _))

theorem Paired.closes_last {front rest : List Char} (h : Paired (front ++ '(' :: rest)) : ')' ∈ rest := by
  have hfront := h.2 front ((mem_inits _ _).2 (prefix_append _ _))
  have hcount := h.1
  refine count_pos_iff.1 ?_
  simp at hcount
  omega

theorem splitSignature?_of_last {name : List Char} (inside front : List Char) (hinside : '(' ∉ inside)
    (h : name.reverse = ')' :: (inside ++ '(' :: front)) :
    splitSignature? name = if inside.contains ')' || front.isEmpty then none else some (front.reverse, inside.reverse) := by
  have htake : (inside ++ '(' :: front).takeWhile (· != '(') = inside := takeWhile_until hinside
  have hdrop : (inside ++ '(' :: front).drop inside.length = '(' :: front := drop_left
  simp only [splitSignature?, h, htake, hdrop]

theorem splitSignature?_signed (hne : before ≠ []) (h : Paired signature) :
    splitSignature? (before ++ '(' :: (signature ++ [')'])) =
      if '(' ∈ signature then none else some (before, signature) := by
  split_ifs with hnested
  · -- the last parenthesis that opens belongs to the list, and is closed in it
    obtain ⟨rest, front, hsplit, hrest⟩ := eq_append_cons_of_mem (mem_reverse.2 hnested)
    obtain rfl : signature = front.reverse ++ '(' :: rest.reverse := by
      rw [← reverse_reverse signature, hsplit]
      simp
    have hclosed : ')' ∈ rest := by simpa using h.closes_last
    rw [splitSignature?_of_last rest (front ++ '(' :: before.reverse) hrest (by simp), contains_iff_mem.2 hclosed]
    rfl
  · have hplain : ')' ∉ signature := by
      rw [← count_eq_zero, ← h.1]
      exact count_eq_zero.2 hnested
    rw [splitSignature?_of_last signature.reverse before.reverse (by simpa using hnested) (by simp)]
    simp [hplain, hne]

theorem freeEnds_dotted (h : ∀ name ∈ names, trim name = name) : FreeEnds isBlank (joinWith ['.'] names) := by
  fun_induction joinWith ['.'] names with
  | case1 => exact freeEnds_of_trim rfl
  | case2 name => exact freeEnds_of_trim (h name mem_cons_self)
  | case3 name next names ih =>
    obtain ⟨hname, h⟩ := forall_mem_cons.1 h
    have hpoint : isBlank '.' = false := by decide
    constructor
    · intro c hc
      cases name with
      | nil => exact Option.some.inj hc ▸ hpoint
      | cons d name => exact (freeEnds_of_trim hname).1 c hc
    · intro c hc
      rw [getLast?_append, Option.mem_def, Option.or_eq_some_iff, getLast?_append] at hc
      rcases hc with hc | ⟨-, hc⟩
      · exact (ih h).2 c hc
      · exact Option.some.inj hc ▸ hpoint

/-- A symbol is read back by its names. With parameters, they and the names are read back exactly if there is no
parenthesis among the parameters. -/
theorem parse_signed (hne : joinWith ['.'] names ≠ [])
    (hnames : ∀ name ∈ names, trim name = name ∧ '.' ∉ name ∧ ')' ∉ name) (hsignature : Paired signature) :
    let dotted := joinWith ['.'] names
    let signed := dotted ++ '(' :: (signature ++ [')'])
    SymbolSpec.parse dotted = { parts := names, signature := none } ∧
    SymbolSpec.parse signed = if '(' ∈ signature then { parts := splitAt '.' signed, signature := none }
      else { parts := names, signature := some signature } := by
  intro dotted signed
  have hends := freeEnds_dotted fun name hname => (hnames name hname).1
  have hparts : splitAt '.' dotted = names :=
    splitAt_joinWith (fun h => hne (h ▸ rfl)) fun name hname => (hnames name hname).2.1
  have hopen : splitSignature? dotted = none := by
    have hclose : ')' ∉ dotted := fun hmem => by
      rcases mem_joinWith hmem with hc | ⟨name, hname, hc⟩
      · cases hc
      · exact (hnames name hname).2.2 hc
    rw [splitSignature?]
    split
    · rename_i hreverse
      exact absurd (mem_reverse.1 (hreverse ▸ mem_cons_self)) hclose
    · rfl
  have hsigned : FreeEnds isBlank signed := by
    refine ⟨fun c hc => hends.1 c ?_, fun c hc => ?_⟩
    · rwa [head?_append_of_ne_nil _ hne] at hc
    · have hlast : signed.getLast? = some ')' := by simp [signed, getLast?_append, getLast?_cons]
      rw [Option.some.inj (hlast.symm.trans hc).symm]
      decide
  constructor
  · rw [SymbolSpec.parse, show trim dotted = dotted from hends.strip_eq, hopen]
    exact congrArg (SymbolSpec.mk · none) hparts
  · rw [SymbolSpec.parse, show trim signed = signed from hsigned.strip_eq, splitSignature?_signed hne hsignature]
    split_ifs
    · rfl
    · exact congrArg (SymbolSpec.mk · _) hparts

theorem parse_signed_tuple : Paired "string[], int".toList ∧ Paired "(int, int)".toList ∧
    SymbolSpec.parse "Ns.A.f(string[], int)".toList =
      { parts := ["Ns".toList, "A".toList, "f".toList], signature := some "string[], int".toList } ∧
    SymbolSpec.parse "A.f((int, int))".toList = { parts := ["A".toList, "f((int, int))".toList], signature := none } := by
  have hfirst : Paired "string[], int".toList := by decide
  have hsecond : Paired "(int, int)".toList := by decide
  exact ⟨hfirst, hsecond, (@parse_signed ["Ns".toList, "A".toList, "f".toList] _ (by decide) (by decide) hfirst).2,
    (@parse_signed ["A".toList, "f".toList] _ (by decide) (by decide) hsecond).2⟩

/-- A list of parameters with a tuple is lost, although its parentheses are paired. -/
theorem parse_tuple_lost : Paired "(int, int)".toList ∧ SymbolSpec.parse "F((int, int))".toList ≠
    { parts := ["F".toList], signature := some "(int, int)".toList } := by
  decide

/-! ## Parameters -/

namespace Signature

variable {p rest current blanks d v : List Char} {ps ds : List (List Char)} {depth : Int}

/-- A parameter that can be written in a list: its angle brackets even out, and each comma is within some. -/
structure IsParameter (p : List Char) : Prop where
  ascii : ∀ c ∈ p, c.toNat < 0x80
  ne_nil : p ≠ []
  trimmed : trim p = p
  even : p.count '<' = p.count '>'
  commas : ∀ front, front ++ [','] <+: p → front.count '<' ≠ front.count '>'

theorem splitFrom_append (h : ∀ front, front ++ [','] <+: p → depth + front.count '<' ≠ front.count '>')
    (current rest : List Char) : splitFrom depth current (p ++ rest) =
      splitFrom (depth + p.count '<' - p.count '>') (p.reverse ++ current) rest := by
  induction p generalizing depth current with
  | nil => simp
  | cons c p ih =>
    have hcomma : (c == ',' && depth == 0) = false := by
      rw [Bool.and_eq_false_iff, beq_eq_false_iff_ne, beq_eq_false_iff_ne]
      refine (em (c = ',')).symm.imp_right fun hc hdepth => h [] ?_ ?_
      · exact hc ▸ (cons_prefix_cons.2 ⟨rfl, nil_prefix⟩)
      · simp [hdepth]
    have hnext : (if c == '<' then depth + 1 else if c == '>' then depth - 1 else depth) =
        depth + [c].count '<' - [c].count '>' := by
      split_ifs with hopen hclose <;> simp_all
    have hcount (a : Char) (l : List Char) : ((c :: l).count a : Int) = [c].count a + l.count a := by
      rw [← singleton_append, count_append, Int.natCast_add]
    rw [cons_append, splitFrom, hcomma, if_neg Bool.false_ne_true]
    rw [ih fun front hfront => ?_, reverse_cons, append_assoc, hcount '<' p, hcount '>' p]
    · congr 1
      omega
    · have hdepth := h (c :: front) (cons_prefix_cons.2 ⟨rfl, hfront⟩)
      rw [hcount '<' front, hcount '>' front] at hdepth
      omega

theorem splitFrom_blanks (h : allBlank blanks = true) (current rest : List Char) :
    splitFrom depth current (blanks ++ rest) = splitFrom depth (blanks.reverse ++ current) rest := by
  have hnot (c : Char) (hc : isBlank c = false) : c ∉ blanks := fun hmem => by
    rw [all_eq_true.1 h c hmem] at hc
    cases hc
  rw [splitFrom_append fun front hfront => ?_, count_eq_zero.2 (hnot '<' (by decide)),
    count_eq_zero.2 (hnot '>' (by decide))]
  · simp
  · exact absurd (hfront.subset (mem_append_right _ mem_cons_self)) (hnot ',' (by decide))

theorem IsParameter.splitFrom (h : IsParameter p) (current rest : List Char) :
    splitFrom 0 current (p ++ rest) = Signature.splitFrom 0 (p.reverse ++ current) rest := by
  rw [splitFrom_append fun front hfront => ?_, h.even]
  · simp
  · have := h.commas front hfront
    omega

theorem IsParameter.trim_append (h : IsParameter p) (hblanks : allBlank blanks = true) : trim (blanks ++ p) = p := by
  rw [trim, trimStart_append hblanks]
  exact h.trimmed

theorem splitFrom_joinWith (hps : ∀ p ∈ ps, IsParameter p) (hne : ps ≠ []) {gap : List Char} (hgap : allBlank gap = true)
    (hblanks : allBlank blanks = true) : splitFrom 0 blanks.reverse (joinWith (',' :: gap) ps) = ps := by
  induction ps generalizing blanks with
  | nil => exact absurd rfl hne
  | cons p ps ih =>
    obtain ⟨hp, hps⟩ := forall_mem_cons.1 hps
    have htrim : trim (p.reverse ++ blanks.reverse).reverse = p := by
      rw [← reverse_append, reverse_reverse]
      exact hp.trim_append hblanks
    by_cases hnil : ps = []
    · subst hnil
      rw [joinWith, ← append_nil p, hp.splitFrom, Signature.splitFrom, htrim]
      simp [hp.ne_nil]
    · rw [joinWith_cons hnil, append_assoc, hp.splitFrom, cons_append, Signature.splitFrom, htrim]
      simp only [beq_self_eq_true, Bool.and_self, if_true]
      rw [splitFrom_blanks hgap, append_nil, ih hps hnil hgap]

theorem splitParameters_joinWith (hps : ∀ p ∈ ps, IsParameter p) {gap : List Char} (hgap : allBlank gap = true) :
    splitParameters (joinWith (',' :: gap) ps) = ps := by
  cases ps with
  | nil => rfl
  | cons p ps =>
    have hp := hps p mem_cons_self
    have hsome : ¬allBlank (joinWith (',' :: gap) (p :: ps)) = true := fun h => by
      refine hp.ne_nil (hp.trimmed.symm.trans (trim_of_allBlank (all_eq_true.2 fun c hc => ?_)))
      exact all_eq_true.1 h c (mem_joinWith_of_mem mem_cons_self hc)
    rw [splitParameters, if_neg hsome]
    exact splitFrom_joinWith hps (cons_ne_nil _ _) hgap (show allBlank [] = true from rfl)

/-! ## Declared types -/

/-- Whether a declared type is a parameter in any letter case, perhaps with a qualifier and a point before it. -/
def Declares (p d : List Char) : Prop :=
  ∃ v, v.map Char.toLower = p.map Char.toLower ∧ (d = v ∨ ∃ qualifier, d = qualifier ++ '.' :: v)

theorem suffix_lowerAfter (front rest before : List Char) :
    lowerAfter (front.reverse ++ before) rest <:+ lowerAfter before (front ++ rest) := by
  induction front generalizing before with
  | nil => exact suffix_rfl
  | cons c front ih =>
    rw [reverse_cons, append_assoc]
    exact (ih (c :: before)).trans (suffix_append _ _)

theorem lowerChar_of_ascii {cs : List Char} (h : ∀ c ∈ cs, c.toNat < 0x80) : cs.map lowerChar = cs.map Char.toLower :=
  map_congr_left fun c hc => if_pos (h c hc)

theorem ascii_of_toLower {c : Char} (h : c.toLower.toNat < 0x80) : c.toNat < 0x80 := by
  by_cases hcapital : c.val ≥ 'A'.val ∧ c.val ≤ 'Z'.val
  · exact Nat.lt_of_le_of_lt (UInt32.le_iff_toNat_le.1 hcapital.2) (by decide)
  · rwa [show c.toLower = c from dif_neg hcapital] at h

theorem trim_qualified (qualifier : List Char) (h : FreeEnds isBlank v) :
    trim (qualifier ++ '.' :: v) = trimStart qualifier ++ '.' :: v := by
  have hstart : trimStart (qualifier ++ '.' :: v) = trimStart qualifier ++ '.' :: v := by
    rw [trimStart, dropWhile_append]
    split
    · rename_i hblank
      rw [trimStart, isEmpty_iff.1 hblank]
      rfl
    · rfl
  rw [trim, hstart]
  refine rdropWhile_of_last fun c hc => ?_
  rw [getLast?_append, getLast?_cons, Option.some_or, Option.mem_some_iff] at hc
  rw [← hc]
  cases hv : v.getLast? with
  | none => decide
  | some c => exact h.2 c hv

theorem IsParameter.of_case (h : IsParameter p) (hv : v.map Char.toLower = p.map Char.toLower) :
    FreeEnds isBlank v ∧ (∀ c ∈ v, c.toNat < 0x80) ∧ v.map lowerChar = p.map lowerChar := by
  have hsmall : ∀ n < 0x80, (Char.ofNat n).toLower.toNat < 0x80 := by decide
  have hascii : ∀ c ∈ v, c.toNat < 0x80 := fun c hc => by
    obtain ⟨a, ha, hlower⟩ := mem_map.1 (hv ▸ mem_map_of_mem hc)
    have hletter := hsmall a.toNat (h.ascii a ha)
    rw [Char.ofNat_toNat, hlower] at hletter
    exact ascii_of_toLower hletter
  have hlower : v.map lowerChar = p.map lowerChar := by
    rw [lowerChar_of_ascii hascii, lowerChar_of_ascii h.ascii, hv]
  refine ⟨(freeEnds_of_trim h.trimmed).of_map_eq ?_, hascii, hlower⟩
  have hblanks := congrArg (map isBlank) hlower
  simpa [Function.comp_def, isBlank_lowerChar] using hblanks

theorem acceptsType_of_declares (h : IsParameter p) (hd : Declares p d) : acceptsType p d = true := by
  obtain ⟨v, hv, hd⟩ := hd
  obtain ⟨hends, hascii, hlower⟩ := h.of_case hv
  have hplain {cs : List Char} (hcs : ∀ c ∈ cs, c.toNat < 0x80) (before : List Char) :
      lowerAfter before cs = cs.map lowerChar := by
    refine lowerAfter_eq_map (fun c hc => ?_) before
    constructor <;> rintro rfl <;> exact absurd (hcs _ hc) (by decide)
  have hp : lowerChars (trim p) = p.map lowerChar := by rw [h.trimmed, lowerChars, hplain h.ascii]
  rw [acceptsType, hp, ← hlower]
  rcases hd with rfl | ⟨qualifier, rfl⟩
  · rw [show trim d = d from hends.strip_eq, lowerChars, hplain hascii]
    simp
  · have hpoint : lowerAfter ((trimStart qualifier).reverse ++ []) ('.' :: v) = '.' :: v.map lowerChar :=
      hplain (forall_mem_cons.2 ⟨by decide, hascii⟩) _
    have hsuffix := suffix_lowerAfter (trimStart qualifier) ('.' :: v) []
    rw [hpoint] at hsuffix
    rw [trim_qualified qualifier hends, endsWith, lowerChars, isSuffixOf_iff_suffix.2 hsuffix, Bool.or_true]

theorem accepts_of_declares (hps : ∀ p ∈ ps, IsParameter p) (h : Forall₂ Declares ps ds) : accepts ps ds = true := by
  induction h with
  | nil => rfl
  | cons hd _ ih =>
    obtain ⟨hp, hps⟩ := forall_mem_cons.1 hps
    rw [accepts, acceptsType_of_declares hp hd, ih hps]
    rfl

theorem length_eq_of_accepts (h : accepts ps ds = true) : ds.length = ps.length := by
  fun_induction accepts ps ds with
  | case1 => rfl
  | case2 r rs d ds ih => rw [length_cons, length_cons, ih (Bool.and_eq_true_iff.1 h).2]
  | case3 => cases h

/-- Parameters that are joined by commas, with or without blanks, are found again. They are accepted for a declaration
of the same types, and not for one with another number of them. -/
theorem splitParameters_joined {gap : List Char} (hps : ∀ p ∈ ps, IsParameter p) (hgap : allBlank gap = true) :
    splitParameters (joinWith (',' :: gap) ps) = ps ∧
    (∀ ds, Forall₂ Declares ps ds → accepts (splitParameters (joinWith (',' :: gap) ps)) ds = true) ∧
    ∀ ds, ds.length ≠ ps.length → accepts (splitParameters (joinWith (',' :: gap) ps)) ds = false := by
  rw [splitParameters_joinWith hps hgap]
  refine ⟨rfl, fun ds => accepts_of_declares hps, fun ds hne => ?_⟩
  rw [← Bool.not_eq_true]
  exact fun h => hne (length_eq_of_accepts h)

theorem splitParameters_nested : splitParameters "Map<K, V>,a>b,c<d".toList = ["Map<K, V>".toList, "a>b,c<d".toList] ∧
    accepts ["Map<K, V>".toList, "a>b,c<d".toList] ["java.util.MAP<k, v>".toList, "A>B,c<d".toList] = true := by
  have hps : ∀ p ∈ ["Map<K, V>".toList, "a>b,c<d".toList], IsParameter p := by
    have hcommas : ∀ p ∈ ["Map<K, V>".toList, "a>b,c<d".toList], ∀ front ∈ p.inits, front ++ [','] <+: p →
        front.count '<' ≠ front.count '>' := by decide
    have hothers : ∀ p ∈ ["Map<K, V>".toList, "a>b,c<d".toList], p.all (·.toNat < 0x80) ∧ p ≠ [] ∧ trim p = p ∧
        p.count '<' = p.count '>' := by decide
    intro p hp
    obtain ⟨hascii, hne, htrim, heven⟩ := hothers p hp
    exact ⟨by simpa using hascii, hne, htrim, heven, fun front h =>
      hcommas p hp front ((mem_inits _ _).2 ((prefix_append _ _).trans h)) h⟩
  have hjoined := splitParameters_joined hps (show allBlank [] = true from rfl)
  refine ⟨hjoined.1, hjoined.1 ▸ hjoined.2.1 _ (.cons ?_ (.cons ?_ .nil))⟩
  · exact ⟨"MAP<k, v>".toList, by decide, .inr ⟨"java.util".toList, by decide⟩⟩
  · exact ⟨"A>B,c<d".toList, by decide, .inl rfl⟩

end Signature

end Transclude
