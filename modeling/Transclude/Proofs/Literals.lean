import Transclude.Proofs.Decimals
import Transclude.Value.Json.Reader
import Transclude.Value.Json.Writer

/-!
# Literals of JSON

The scalars that `Json.write` writes are read back: strings character by character (`readString_written`), integers
(`readNumber_int`) and floating-point numbers (`readNumber_float`), whatever comes after them in a document (`Ends`).
-/

namespace Transclude.Json

open List Number Text Bool Nat

/-! ## Strings -/

section Strings

variable {n : Nat}

theorem hex_succ {width : Nat} (hwidth : 0 < width) (n : Nat) :
    hex (width + 1) n = hex width (n / 16) ++ [(n % 16).digitChar] := by
  rw [hex, hex]
  rcases lt_or_ge n 16 with hn | hn
  · rw [toDigits_of_lt_base hn, div_eq_of_lt hn, mod_eq_of_lt hn, toDigits_of_lt_base (by decide),
      show (0 : Nat).digitChar = '0' from rfl, ← replicate_succ']
    simp only [length_singleton]
    rw [Nat.sub_add_cancel hwidth, Nat.add_sub_cancel]
  · rw [Nat.toDigits_of_base_le (by decide) hn, length_append, length_singleton, Nat.add_sub_add_right, append_assoc]

theorem hex_one (hn : n < 16) : hex 1 n = [n.digitChar] := by
  rw [hex, toDigits_of_lt_base hn]
  rfl

theorem hexFour?_hex (hn : n < 0x10000) (rest : List Char) : hexFour? (hex 4 n ++ rest) = some n := by
  have hdigit : ∀ k < 16, hexValue? k.digitChar = some k := by decide
  rw [hex_succ (by decide), hex_succ (by decide), hex_succ (by decide), hex_one (by omega)]
  simp only [cons_append, nil_append, hexFour?]
  rw [hdigit _ (by omega), hdigit _ (by omega), hdigit _ (by omega), hdigit _ (by omega)]
  simp only [Option.pure_def, Option.bind_eq_bind, Option.bind_some, Option.some.injEq]
  omega

theorem length_hex (hn : n < 0x10000) : (hex 4 n).length = 4 := by
  rw [hex_succ (by decide), hex_succ (by decide), hex_succ (by decide), hex_one (by omega)]
  rfl

theorem drop_hex (hn : n < 0x10000) (rest : List Char) : (hex 4 n ++ rest).drop 4 = rest := drop_left' (length_hex hn)

theorem charOfUnit_toNat (c : Char) : charOfUnit c.toNat = c := by
  rw [charOfUnit, if_pos (show c.toNat.isValidChar from c.valid), Char.ofNat_toNat]

variable {c : Char} {rest : List Char}

theorem readUnicode_unit (hc : c.toNat < 0x10000) (hrest : rest ≠ []) :
    readUnicode (hex 4 c.toNat ++ rest) = .ok (c, rest) := by
  have hpos := length_pos_iff.2 hrest
  have hhigh : isHighUnit c.toNat = false := by
    have hvalid : c.toNat.isValidChar := c.valid
    rw [isHighUnit, and_eq_false_iff, decide_eq_false_iff_not, decide_eq_false_iff_not]
    rcases hvalid with h | h <;> omega
  rw [readUnicode, if_neg (by rw [length_append, length_hex hc]; omega), hexFour?_hex hc]
  dsimp only
  rw [hhigh, drop_hex hc, charOfUnit_toNat, Bool.false_and, if_neg Bool.false_ne_true]

theorem readUnicode_pair (hc : ¬ c.toNat < 0x10000) (hrest : rest ≠ []) :
    readUnicode (hex 4 (0xd800 + (c.toNat - 0x10000) / 0x400) ++
      (unitEscape (0xdc00 + (c.toNat - 0x10000) % 0x400) ++ rest)) = .ok (c, rest) := by
  have hpos := length_pos_iff.2 hrest
  have hmax : c.toNat < 0x110000 := by
    have hvalid : c.toNat.isValidChar := c.valid
    rcases hvalid with h | h <;> omega
  have hchar : 0x10000 + (0xd800 + (c.toNat - 0x10000) / 0x400 - 0xd800) * 0x400 +
      (0xdc00 + (c.toNat - 0x10000) % 0x400 - 0xdc00) = c.toNat := by omega
  generalize hhigh : 0xd800 + (c.toNat - 0x10000) / 0x400 = high at *
  generalize hlow : 0xdc00 + (c.toNat - 0x10000) % 0x400 = low at *
  have hh : high < 0x10000 := by omega
  have hl : low < 0x10000 := by omega
  have hisHigh : isHighUnit high = true := by
    rw [isHighUnit, and_eq_true, decide_eq_true_iff, decide_eq_true_iff]
    omega
  have hisLow : isLowUnit low = true := by
    rw [isLowUnit, and_eq_true, decide_eq_true_iff, decide_eq_true_iff]
    omega
  rw [readUnicode, if_neg (by rw [length_append, length_append, length_hex hh]; omega), hexFour?_hex hh]
  dsimp only
  have hlen : (unitEscape low ++ rest).length > 6 := by
    rw [length_append, unitEscape, length_cons, length_cons, length_hex hl]
    omega
  rw [drop_hex hh, hisHigh, Bool.true_and, if_pos (decide_eq_true hlen), unitEscape, cons_append, cons_append]
  simp only [hexFour?_hex hl, hisLow, if_true, hchar, charOfUnit_toNat, drop_hex hl]

theorem readString_writeChar (start : Nat) (text : List Char) (fuel : Nat) (hrest : rest ≠ []) :
    readString start text (writeChar c ++ rest) (fuel + 1) = readString start (c :: text) rest fuel := by
  rw [writeChar]
  split_ifs with hquote hslash hline hreturn htab hback hfeed hplain hunit
  · obtain rfl := beq_iff_eq.1 hquote
    rfl
  · obtain rfl := beq_iff_eq.1 hslash
    rfl
  · obtain rfl := beq_iff_eq.1 hline
    rfl
  · obtain rfl := beq_iff_eq.1 hreturn
    rfl
  · obtain rfl := beq_iff_eq.1 htab
    rfl
  · obtain rfl : c = Char.ofNat 8 := by rw [← beq_iff_eq.1 hback, Char.ofNat_toNat]
    rfl
  · obtain rfl : c = Char.ofNat 12 := by rw [← beq_iff_eq.1 hfeed, Char.ofNat_toNat]
    rfl
  · rw [and_eq_true, decide_eq_true_iff, decide_eq_true_iff] at hplain
    rw [beq_iff_eq] at hquote hslash
    rw [singleton_append, readString]
    · rw [if_neg (by omega)]
    · exact hquote
    · exact fun h => absurd h hslash
    · exact fun _ h => absurd h hslash
    · exact fun _ _ h => absurd h hslash
  · rw [unitEscape, cons_append, cons_append, readString, readUnicode_unit hunit hrest]
  · dsimp only
    rw [append_assoc, unitEscape, cons_append, cons_append, readString, readUnicode_pair hunit hrest]

theorem readString_written (start : Nat) (text cs rest : List Char) {fuel : Nat} (hfuel : cs.length < fuel) :
    readString start text (cs.flatMap writeChar ++ '"' :: rest) fuel =
      .ok (String.ofList (text.reverse ++ cs), rest) := by
  induction cs generalizing text fuel with
  | nil =>
    obtain ⟨fuel, rfl⟩ := Nat.exists_eq_add_of_lt hfuel
    rw [append_nil]
    rfl
  | cons c cs ih =>
    obtain ⟨fuel, rfl⟩ := Nat.exists_eq_add_of_lt hfuel
    rw [flatMap_cons, append_assoc, readString_writeChar start text _ (by simp), ih _ (by rw [length_cons]; omega),
      reverse_cons, append_assoc, singleton_append]

end Strings

/-! ## Numbers -/

def Ends (cs : List Char) : Prop := ∀ c ∈ cs.head?, c = ',' ∨ c = ']' ∨ c = '\x7d'

def signed (s : Bool) (cs : List Char) : List Char := if s then '-' :: cs else cs

section Numbers

variable {s : Bool} {whole places more tail rest ds : List Char}

theorem Ends.isDigit_eq_false (h : Ends rest) : ∀ c ∈ rest.head?, c.isDigit = false := by
  intro c hc
  rcases h c hc with rfl | rfl | rfl <;> rfl

theorem spanDigits_append (hds : ∀ c ∈ ds, c.isDigit = true) (hrest : ∀ c ∈ rest.head?, c.isDigit = false) :
    spanDigits (ds ++ rest) = (ds, rest) := by
  rw [spanDigits, dropWhile_append_of_head hds hrest, takeWhile_append_of_pos hds]
  cases rest with
  | nil => rw [takeWhile_nil, append_nil]
  | cons c rest => rw [takeWhile_cons, hrest c rfl, if_neg Bool.false_ne_true, append_nil]

theorem wholeDigits?_append (hds : ∀ c ∈ ds, c.isDigit = true) (hrest : ∀ c ∈ rest.head?, c.isDigit = false)
    (hfirst : ds = ['0'] ∨ ∃ c cs, ds = c :: cs ∧ c ≠ '0') : wholeDigits? (ds ++ rest) = some (ds, rest) := by
  rcases hfirst with rfl | ⟨c, cs, rfl, hc⟩
  · rfl
  · have hspan := spanDigits_append hds hrest
    rw [wholeDigits?, hspan]
    · rfl
    · exact fun _ h => hc (List.cons.inj h).1

theorem fraction_append (hds : ∀ c ∈ ds, c.isDigit = true) (hne : ds ≠ [])
    (hrest : ∀ c ∈ rest.head?, c.isDigit = false) : fraction ('.' :: ds ++ rest) = (ds, rest) := by
  rw [List.cons_append, fraction, spanDigits_append hds hrest]
  dsimp only
  rw [if_neg (by rwa [List.isEmpty_iff])]

theorem fraction_of_head (h : ∀ c ∈ rest.head?, c ≠ '.') : fraction rest = ([], rest) := by
  rw [fraction]
  intro more hmore
  rw [hmore] at h
  exact h '.' rfl rfl

theorem exponent?_of_ends (h : Ends rest) : exponent? rest = none := by
  cases rest with
  | nil => rfl
  | cons c rest => rcases h c rfl with rfl | rfl | rfl <;> rfl

theorem exponent?_exponentText (e : Int) (h : ∀ c ∈ rest.head?, c.isDigit = false) :
    exponent? ('e' :: exponentText e ++ rest) = some (e, rest) := by
  -- padding to two digits changes neither that they are digits nor what they stand for
  obtain ⟨ds, htext, hdigs, hne, hval⟩ : ∃ ds, exponentText e = (if e < 0 then '-' else '+') :: ds ∧
      (∀ c ∈ ds, c.isDigit = true) ∧ ds ≠ [] ∧ digitsValue ds = e.natAbs := by
    refine ⟨_, rfl, ?_⟩
    have hdigs : ∀ c ∈ Nat.toDigits 10 e.natAbs, c.isDigit = true := fun c hc => isDigit_of_mem_toDigits hc
    split_ifs
    · refine ⟨List.forall_mem_cons.2 ⟨rfl, hdigs⟩, List.cons_ne_nil _ _, ?_⟩
      rw [← List.singleton_append, digitsValue_append, digitsValue_toDigits, show digitsValue ['0'] = 0 from rfl,
        zero_mul, zero_add]
    · exact ⟨hdigs, toDigits_ne_nil, digitsValue_toDigits _⟩
  rw [htext, List.cons_append, List.cons_append, exponent?, if_pos (by decide)]
  by_cases hneg : e < 0
  · rw [if_pos hneg, readSign]
    dsimp only
    rw [spanDigits_append hdigs h]
    rw [if_neg (by rwa [List.isEmpty_iff]), if_pos rfl, hval, Int.ofNat_natAbs_of_nonpos hneg.le, neg_neg]
  · rw [if_neg hneg, readSign]
    dsimp only
    rw [spanDigits_append hdigs h]
    rw [if_neg (by rwa [List.isEmpty_iff]), if_neg Bool.false_ne_true, hval, Int.natAbs_of_nonneg (not_lt.1 hneg)]

theorem readNumber_signed {v : Value} (hdash : ∀ c ∈ (whole ++ more).head?, c ≠ '-')
    (hwhole : wholeDigits? (whole ++ more) = some (whole, more)) (hplaces : fraction more = (places, tail))
    (hv : (∃ e, exponent? tail = some (e, rest) ∧
        v = .float (ofDecimal s (digitsValue (whole ++ places)) (e - (places.length : Nat)))) ∨
      exponent? tail = none ∧ rest = tail ∧
        (places ≠ [] ∧ v = .float (ofDecimal s (digitsValue (whole ++ places)) (-(places.length : Int))) ∨
        places = [] ∧ whole.length ≤ maxDigits ∧
          v = .int (if s then -(digitsValue whole : Int) else digitsValue whole))) :
    readNumber (signed s (whole ++ more)) = .ok (v, rest) := by
  unfold readNumber
  split
  rename_i negative body hsign
  obtain ⟨rfl, rfl⟩ : s = negative ∧ whole ++ more = body := by
    cases s with
    | true =>
      cases hsign
      exact ⟨rfl, rfl⟩
    | false =>
      rw [signed, if_neg Bool.false_ne_true] at hsign
      split at hsign
      · rename_i hcons
        rw [hcons] at hdash
        exact absurd rfl (hdash '-' rfl)
      · cases hsign
        exact ⟨rfl, rfl⟩
  rw [hwhole]
  dsimp only
  rw [hplaces]
  rcases hv with ⟨e, hexp, rfl⟩ | ⟨hexp, rfl, ⟨hne, rfl⟩ | ⟨rfl, hlen, rfl⟩⟩
  · rw [hexp]
  · rw [hexp]
    rw [if_neg (by rwa [List.isEmpty_iff])]
  · rw [hexp]
    rw [if_pos List.isEmpty_nil, if_neg (not_lt.2 hlen)]

theorem head?_append_ne_dash (hds : ∀ c ∈ ds, c.isDigit = true) (hne : ds ≠ []) (rest : List Char) :
    ∀ c ∈ (ds ++ rest).head?, c ≠ '-' := by
  obtain ⟨d, ds, rfl⟩ := exists_cons_of_ne_nil hne
  rintro c hc rfl
  obtain rfl : d = '-' := Option.some.inj hc
  exact false_ne_true (hds '-' mem_cons_self)

theorem first_toDigits (n : Nat) : Nat.toDigits 10 n = ['0'] ∨ ∃ c cs, Nat.toDigits 10 n = c :: cs ∧ c ≠ '0' := by
  rcases Nat.eq_zero_or_pos n with rfl | hn
  · exact .inl rfl
  · exact .inr (exists_toDigits hn)

theorem toList_toString (n : Int) : (toString n).toList = signed (n < 0) (Nat.toDigits 10 n.natAbs) := by
  change n.repr.toList = _
  rw [Int.repr_eq_if, signed]
  by_cases hn : n < 0
  · rw [if_neg (by omega), if_pos (decide_eq_true hn), String.toList_append, toList_repr,
      show (-n).toNat = n.natAbs by omega]
    rfl
  · rw [if_pos (by omega), if_neg (by simpa using hn), toList_repr, show n.toNat = n.natAbs by omega]

theorem readNumber_int {n : Int} (hn : decimalLength n.natAbs ≤ maxDigits) (hrest : Ends rest) :
    readNumber ((toString n).toList ++ rest) = .ok (.int n, rest) := by
  have hdigs : ∀ c ∈ Nat.toDigits 10 n.natAbs, c.isDigit = true := fun c hc => isDigit_of_mem_toDigits hc
  have htext : (toString n).toList ++ rest = signed (n < 0) (Nat.toDigits 10 n.natAbs ++ rest) := by
    rw [toList_toString, signed, signed]
    split_ifs <;> rfl
  have hpoint : ∀ c ∈ rest.head?, c ≠ '.' := by
    rintro c hc rfl
    rcases hrest _ hc with h | h | h <;> cases h
  rw [htext]
  refine readNumber_signed (head?_append_ne_dash hdigs toDigits_ne_nil rest)
    (wholeDigits?_append hdigs hrest.isDigit_eq_false (first_toDigits _)) (fraction_of_head hpoint)
    (.inr ⟨exponent?_of_ends hrest, rfl, .inr ⟨rfl, hn, ?_⟩⟩)
  rw [digitsValue_toDigits]
  congr 1
  split_ifs with hneg
  · rw [decide_eq_true_iff] at hneg
    omega
  · rw [decide_eq_true_iff] at hneg
    omega

end Numbers

/-! ## Floating-point numbers -/

section Floats

open Binary64

variable {s : Bool} {m : Nat} {e : Int} {d : Decimal} {x : ℚ} {rest : List Char}

theorem ofDecimal_of_writes (s : Bool) (h : Proper m e) (hm : 0 < m) (hx : Around m e x) (hd : d.Writes x)
    {zeros n : Nat} {k : Int} (hn : n = digitsValue d.digits * 10 ^ zeros)
    (hk : k = d.exponent + 1 - d.digits.length - zeros) : ofDecimal s n k = .finite s m e := by
  have hval : (n : ℚ) * 10 ^ k = x := by
    rw [← hd.value, hn, hk, zpow_sub₀ (by norm_num), zpow_natCast]
    push_cast
    field_simp
  refine ofDecimal_eq s h hm ?_ (hval ▸ hx)
  rintro rfl
  have hpos : (0 : ℚ) < x := by
    have hone : (1 : ℚ) ≤ m := by exact_mod_cast hm
    exact (mul_pos (by linarith) (zpow_pos two_pos e)).trans_le ((lowEnd_ge hm e).trans hx.low)
  rw [← hval, cast_zero, zero_mul] at hpos
  exact lt_irrefl _ hpos

theorem readNumber_point {whole places : List Char} (s : Bool) (hwhole : ∀ c ∈ whole, c.isDigit = true)
    (hfirst : whole = ['0'] ∨ ∃ c cs, whole = c :: cs ∧ c ≠ '0') (hplaces : ∀ c ∈ places, c.isDigit = true)
    (hne : places ≠ []) (hrest : Ends rest) : readNumber (signed s (whole ++ '.' :: places ++ rest)) =
      .ok (.float (ofDecimal s (digitsValue (whole ++ places)) (-(places.length : Int))), rest) := by
  have hwhole_ne : whole ≠ [] := by rcases hfirst with rfl | ⟨c, cs, rfl, -⟩ <;> exact cons_ne_nil _ _
  have hpoint : ∀ c ∈ ('.' :: places ++ rest).head?, c.isDigit = false := by
    intro c hc
    obtain rfl : '.' = c := Option.some.inj hc
    rfl
  rw [append_assoc]
  exact readNumber_signed (head?_append_ne_dash hwhole hwhole_ne _) (wholeDigits?_append hwhole hpoint hfirst)
    (fraction_append hplaces hne hrest.isDigit_eq_false)
    (.inr ⟨exponent?_of_ends hrest, rfl, .inl ⟨hne, rfl⟩⟩)

theorem isDigit_zeros (n : Nat) : ∀ c ∈ List.replicate n '0', c.isDigit = true := fun c hc => by
  rw [List.eq_of_mem_replicate hc]
  rfl

theorem exists_positional (hd : d.Writes x) : ∃ (whole places : List Char) (zeros : Nat), d.positional = whole ++ '.' :: places ∧
    (∀ c ∈ whole, c.isDigit = true) ∧ (whole = ['0'] ∨ ∃ c cs, whole = c :: cs ∧ c ≠ '0') ∧
    (∀ c ∈ places, c.isDigit = true) ∧ places ≠ [] ∧
    digitsValue (whole ++ places) = digitsValue d.digits * 10 ^ zeros ∧
    -(places.length : Int) = d.exponent + 1 - d.digits.length - zeros := by
  obtain ⟨c, cs, hdigs, hc⟩ := hd.first
  rw [Decimal.positional]
  split_ifs with hneg
  · refine ⟨['0'], List.replicate (-d.exponent - 1).toNat '0' ++ d.digits, 0, rfl, isDigit_zeros 1, .inl rfl,
      List.forall_mem_append.2 ⟨isDigit_zeros _, hd.digits⟩, by simp [hdigs], ?_, ?_⟩
    · rw [← List.append_assoc, digitsValue_append, ← List.replicate_one, List.replicate_append_replicate,
        digitsValue_zeros, zero_mul, zero_add, pow_zero, mul_one]
    · rw [List.length_append, List.length_replicate]
      omega
  · dsimp only
    rcases lt_or_ge (d.exponent.toNat + 1) d.digits.length with hlong | hshort
    · have hback : d.digits.drop (d.exponent.toNat + 1) ≠ [] := by
        rw [ne_eq, List.drop_eq_nil_iff]
        omega
      refine ⟨d.digits.take (d.exponent.toNat + 1), d.digits.drop (d.exponent.toNat + 1), 0, ?_,
        fun c hc => hd.digits c (List.mem_of_mem_take hc), .inr ⟨c, cs.take d.exponent.toNat, ?_, hc⟩,
        fun c hc => hd.digits c (List.mem_of_mem_drop hc), hback, ?_, ?_⟩
      · rw [if_neg (by rwa [List.isEmpty_iff]), List.length_take_of_le (by omega), Nat.sub_self, List.replicate_zero,
          List.append_nil]
      · rw [hdigs, List.take_succ_cons]
      · rw [List.take_append_drop, pow_zero, mul_one]
      · rw [List.length_drop]
        omega
    · refine ⟨d.digits ++ List.replicate (d.exponent.toNat + 1 - d.digits.length) '0', ['0'],
        d.exponent.toNat + 1 - d.digits.length + 1, ?_, List.forall_mem_append.2 ⟨hd.digits, isDigit_zeros _⟩,
        .inr ⟨c, cs ++ List.replicate (d.exponent.toNat + 1 - d.digits.length) '0', ?_, hc⟩, isDigit_zeros 1, by decide,
        ?_, ?_⟩
      · rw [List.drop_eq_nil_of_le hshort, if_pos List.isEmpty_nil, List.take_of_length_le hshort]
      · rw [hdigs, List.cons_append]
      · rw [List.append_assoc, ← List.replicate_one, List.replicate_append_replicate, digitsValue_append,
          digitsValue_zeros, List.length_replicate, add_zero]
      · rw [List.length_singleton]
        omega

theorem readNumber_positional (s : Bool) (h : Proper m e) (hm : 0 < m) (hx : Around m e x) (hd : d.Writes x)
    (hrest : Ends rest) : readNumber (signed s (d.positional ++ rest)) = .ok (.float (.finite s m e), rest) := by
  obtain ⟨whole, places, zeros, htext, hwhole, hfirst, hplaces, hne, hval, hlen⟩ := exists_positional hd
  rw [htext, readNumber_point s hwhole hfirst hplaces hne hrest, ofDecimal_of_writes s h hm hx hd hval hlen]

theorem readNumber_scientific (s : Bool) (h : Proper m e) (hm : 0 < m) (hx : Around m e x) (hd : d.Writes x)
    (hrest : Ends rest) : readNumber (signed s (d.scientific ++ rest)) = .ok (.float (.finite s m e), rest) := by
  obtain ⟨c, cs, hdigs, hc⟩ := hd.first
  have hall := hd.digits
  rw [hdigs, forall_mem_cons] at hall
  have hwhole : ∀ d ∈ [c], d.isDigit = true := by simpa using hall.1
  have hletter : ∀ c ∈ ('e' :: exponentText d.exponent ++ rest).head?, c.isDigit = false ∧ c ≠ '.' := by
    intro c hc
    obtain rfl : 'e' = c := Option.some.inj hc
    exact ⟨rfl, by decide⟩
  have hexp := exponent?_exponentText d.exponent hrest.isDigit_eq_false
  have hval := ofDecimal_of_writes s h hm hx hd (show digitsValue ([c] ++ cs) = _ * 10 ^ 0 by
    rw [hdigs, singleton_append, pow_zero, mul_one])
    (show d.exponent - (cs.length : Nat) = d.exponent + 1 - d.digits.length - (0 : Nat) by
      rw [hdigs, length_cons]
      push_cast
      ring)
  rw [Decimal.scientific, hdigs]
  cases cs with
  | nil =>
    rw [cons_append]
    exact readNumber_signed (head?_append_ne_dash hwhole (cons_ne_nil _ _) _)
      (wholeDigits?_append hwhole (fun c hc => (hletter c hc).1) (.inr ⟨c, [], rfl, hc⟩))
      (fraction_of_head fun c hc => (hletter c hc).2) (.inl ⟨_, hexp, by rw [hval]⟩)
  | cons c' cs =>
    rw [append_assoc]
    change readNumber (signed s ([c] ++ ('.' :: (c' :: cs) ++ ('e' :: exponentText d.exponent ++ rest)))) = _
    refine readNumber_signed (head?_append_ne_dash hwhole (cons_ne_nil _ _) _)
      (wholeDigits?_append hwhole ?_ (.inr ⟨c, [], rfl, hc⟩))
      (fraction_append hall.2 (cons_ne_nil _ _) fun c hc => (hletter c hc).1) (.inl ⟨_, hexp, by rw [hval]⟩)
    intro c hc
    obtain rfl : '.' = c := Option.some.inj hc
    rfl

theorem readNumber_float (s : Bool) (h : Proper m e) (hrest : Ends rest) :
    readNumber ((Binary64.finite s m e).text.toList ++ rest) = .ok (.float (.finite s m e), rest) := by
  have hsign : ∀ cs, ((if s then "-" else "") ++ String.ofList cs).toList ++ rest = signed s (cs ++ rest) := by
    intro cs
    rw [String.toList_append, String.toList_ofList]
    cases s <;> rfl
  rw [Binary64.text]
  by_cases hm : m = 0
  · obtain rfl : e = -1074 := h.full.resolve_right (by rw [hm]; decide)
    rw [if_pos hm, hm, hsign]
    exact readNumber_point s (isDigit_zeros 1) (.inl rfl) (isDigit_zeros 1) (by decide) hrest
  · obtain ⟨x, hx, hd⟩ := shortest_writes h (pos_of_ne_zero hm)
    rw [if_neg hm, hsign]
    split_ifs
    · exact readNumber_positional s h (pos_of_ne_zero hm) hx hd hrest
    · exact readNumber_scientific s h (pos_of_ne_zero hm) hx hd hrest

end Floats

end Transclude.Json
