import Transclude.Number.Decimal
import Transclude.Proofs.Nearest
import Transclude.Proofs.Numerals

/-!
# Decimals that read back

`shortest` gives digits that lie around the number they are written for (`shortest_writes`), because seventeen digits
are always enough (`exists_onGrid`), and `ofDecimal` gives that number for them (`ofDecimal_eq`).
-/

namespace Transclude.Number

open List Text Binary64 Nat

/-! ## Digits -/

section Digits

theorem digitsValue_append (cs ds : List Char) :
    digitsValue (cs ++ ds) = digitsValue cs * 10 ^ ds.length + digitsValue ds := by
  induction ds using List.reverseRecOn with
  | nil => simp [digitsValue]
  | append_singleton ds d ih =>
    rw [← append_assoc, digitsValue_concat, ih, digitsValue_concat, length_append, length_singleton]
    ring

theorem digitsValue_zeros (n : Nat) : digitsValue (List.replicate n '0') = 0 := by
  induction n with
  | zero => rfl
  | succ n ih =>
    rw [replicate_succ', digitsValue_concat, ih]
    rfl

theorem digitsValue_lt (cs : List Char) : digitsValue cs < 10 ^ cs.length := by
  induction cs using List.reverseRecOn with
  | nil => decide
  | append_singleton cs c ih =>
    have hc : (digitValue? c).getD 0 < 10 := by
      cases h : digitValue? c with
      | none => decide
      | some n => exact lt_of_digitValue? h
    rw [digitsValue_concat, length_append, length_singleton]
    omega

theorem isDigit_of_mem_toDigits {n : Nat} {c : Char} (h : c ∈ Nat.toDigits 10 n) : c.isDigit = true :=
  Nat.isDigit_of_mem_toDigits (by decide) (by decide) h

theorem digitsValue_toDigits (n : Nat) : digitsValue (Nat.toDigits 10 n) = n := by
  rw [digitsValue_eq_ofDigitChars fun c hc => isDigit_of_mem_toDigits hc, ofDigitChars_ten_toDigits]

theorem exists_toDigits {n : Nat} (hn : 0 < n) : ∃ c cs, Nat.toDigits 10 n = c :: cs ∧ c ≠ '0' := by
  obtain ⟨c, cs, hcs⟩ := exists_cons_of_ne_nil (toDigits_ne_nil (n := n) (b := 10))
  refine ⟨c, cs, hcs, ?_⟩
  rintro rfl
  have hle := (decimalLength_bounds hn).1
  have hlt := digitsValue_lt cs
  have hval := digitsValue_append ['0'] cs
  rw [singleton_append, ← hcs, digitsValue_toDigits, show digitsValue ['0'] = 0 from rfl] at hval
  rw [decimalLength, hcs, length_cons, Nat.add_sub_cancel] at hle
  omega

theorem exists_dropZeros (cs : List Char) : ∃ n, cs = dropZeros cs ++ List.replicate n '0' := by
  refine ⟨(cs.reverse.takeWhile (· == '0')).length, ?_⟩
  have hzeros : cs.reverse.takeWhile (· == '0') = List.replicate (cs.reverse.takeWhile (· == '0')).length '0' :=
    eq_replicate_of_mem fun c hc => beq_iff_eq.1 (mem_takeWhile_imp (p := (· == '0')) hc)
  rw [dropZeros, ← reverse_replicate, ← hzeros, ← reverse_append, takeWhile_append_dropWhile, reverse_reverse]

end Digits

/-! ## Grids -/

def Within (closed : Bool) (low high x : ℚ) : Prop := if closed then low ≤ x ∧ x ≤ high else low < x ∧ x < high

section Grid

variable {value low high den : Nat} {closed : Bool} {step lead : Int}

theorem within_of_lt {low high x : ℚ} (hlow : low < x) (hhigh : x < high) : Within closed low high x := by
  cases closed
  · exact ⟨hlow, hhigh⟩
  · exact ⟨hlow.le, hhigh.le⟩

theorem cast_grid (hden : 0 < den) (a k : Nat) :
    ((a * Nat.pow 10 (-step).toNat ≤ k * (den * Nat.pow 10 step.toNat)) ↔ (a : ℚ) / den ≤ k * 10 ^ step) ∧
    ((k * (den * Nat.pow 10 step.toNat) ≤ a * Nat.pow 10 (-step).toNat) ↔ (k : ℚ) * 10 ^ step ≤ a / den) := by
  have hpow : (0 : ℚ) < 10 ^ step := zpow_pos (by norm_num) step
  have hunit : (0 : ℚ) < (den * Nat.pow 10 step.toNat : Nat) :=
    Nat.cast_pos.2 (Nat.mul_pos hden (Nat.pow_pos (by decide)))
  have hscaled := scaled_quotient (b := 10) (by decide) a den step
  rw [Nat.cast_ofNat] at hscaled
  constructor
  · rw [← div_le_iff₀ hpow, ← hscaled, div_le_iff₀ hunit, ← cast_mul, cast_le]
  · rw [← le_div_iff₀ hpow, ← hscaled, le_div_iff₀ hunit, ← cast_mul, cast_le]

def inside (closed : Bool) (low high unit k : Nat) : Bool :=
  let point := k * unit
  if closed then low ≤ point && point ≤ high else low < point && point < high

theorem inside_iff (hden : 0 < den) (k : Nat) :
    inside closed (low * Nat.pow 10 (-step).toNat) (high * Nat.pow 10 (-step).toNat) (den * Nat.pow 10 step.toNat) k =
      true ↔ Within closed (low / den) (high / den) (k * 10 ^ step) := by
  rw [inside, Within]
  cases closed
  · simp only [Bool.false_eq_true, if_false, Bool.and_eq_true, decide_eq_true_iff]
    rw [← not_le, ← not_le, (cast_grid hden low k).2, (cast_grid hden high k).1, not_le, not_le]
  · simp only [if_true, Bool.and_eq_true, decide_eq_true_iff]
    rw [(cast_grid hden low k).1, (cast_grid hden high k).2]

theorem chosen_spec (p : Nat → Bool) (floor : Nat) (first : Bool) :
    let chosen := if p floor && p (floor + 1) then if first then some floor else some (floor + 1)
      else if p floor then some floor else if p (floor + 1) then some (floor + 1) else none
    (∀ k, chosen = some k → p k = true) ∧ (p floor = true ∨ p (floor + 1) = true → chosen.isSome = true) := by
  cases hbelow : p floor <;> cases habove : p (floor + 1) <;> cases first <;> simp_all

theorem onGrid?_spec (value low high : Nat) (closed : Bool) (step : Int) (hden : 0 < den) : ∃ floor : Nat,
    (floor : ℚ) * 10 ^ step ≤ value / den ∧ (value : ℚ) / den < (floor + 1 : Nat) * 10 ^ step ∧
    (∀ k, onGrid? value low high den closed step = some k → Within closed (low / den) (high / den) (k * 10 ^ step)) ∧
    (Within closed (low / den) (high / den) (floor * 10 ^ step) ∨
      Within closed (low / den) (high / den) ((floor + 1 : Nat) * 10 ^ step) →
      (onGrid? value low high den closed step).isSome = true) := by
  have hnum : (if step ≥ 0 then 1 else Nat.pow 10 (-step).toNat) = Nat.pow 10 (-step).toNat := by
    split_ifs with h
    · rw [Int.toNat_of_nonpos (by omega)]
    · rfl
  have hunit : (if step ≥ 0 then den * Nat.pow 10 step.toNat else den) = den * Nat.pow 10 step.toNat := by
    split_ifs with h
    · rfl
    · rw [Int.toNat_of_nonpos (by omega)]
      exact (Nat.mul_one den).symm
  have hpos : 0 < den * Nat.pow 10 step.toNat := Nat.mul_pos hden (Nat.pow_pos (by decide))
  refine ⟨value * Nat.pow 10 (-step).toNat / (den * Nat.pow 10 step.toNat), ?_, ?_, ?_⟩
  · exact (cast_grid hden value _).2.1 (Nat.div_mul_le_self _ _)
  · refine lt_of_not_ge fun h => ?_
    have hle := (cast_grid hden value _).2.2 h
    exact not_lt.2 hle (lt_mul_of_div_lt (lt_succ_self _) hpos)
  · rw [onGrid?, hnum, hunit]
    generalize value * Nat.pow 10 (-step).toNat / (den * Nat.pow 10 step.toNat) = floor
    simp only [← inside_iff hden]
    exact chosen_spec (inside closed (low * Nat.pow 10 (-step).toNat) (high * Nat.pow 10 (-step).toNat)
      (den * Nat.pow 10 step.toNat)) floor _

theorem firstGrid_spec {digits fuel : Nat} {last : Nat} (hlast : digits ≤ last ∧ last < digits + fuel)
    (h : (onGrid? value low high den closed (lead - last + 1)).isSome = true) :
    ∃ k step, firstGrid value low high den closed lead digits fuel = (k, step) ∧
      onGrid? value low high den closed step = some k := by
  induction fuel generalizing digits with
  | zero => omega
  | succ fuel ih =>
    rw [firstGrid]
    cases hgrid : onGrid? value low high den closed (lead - digits + 1) with
    | some k => exact ⟨k, _, rfl, hgrid⟩
    | none =>
      refine ih ⟨?_, by omega⟩
      rcases lt_or_eq_of_le hlast.1 with hlt | rfl
      · exact hlt
      · rw [hgrid] at h
        cases h

end Grid

/-! ## Shortest digits -/

section Shortest

variable {m : Nat} {e : Int}

theorem roundingInterval_spec (m : Nat) (e : Int) : ∃ value low high den, 0 < den ∧
    roundingInterval m e = (value, low, high, den) ∧ (value : ℚ) / den = m * 2 ^ e ∧
    (low : ℚ) / den = lowEnd m e ∧ (high : ℚ) / den = highEnd m e := by
  have hquarter : ∀ n : Nat, ((if e ≥ 2 then n * Nat.pow 2 (e - 2).toNat else n : Nat) : ℚ) /
      (if e ≥ 2 then 1 else Nat.pow 2 (2 - e).toNat : Nat) = n * 2 ^ (e - 2) := by
    intro n
    have hpow := pow_toNat_div two_pos (e - 2)
    rw [neg_sub, cast_ofNat] at hpow
    rw [← hpow]
    split_ifs with he
    · rw [Int.toNat_of_nonpos (z := 2 - e) (by omega), cast_mul, show Nat.pow 2 0 = 1 from rfl,
        cast_one, div_one, div_one]
    · rw [Int.toNat_of_nonpos (z := e - 2) (by omega), show Nat.pow 2 0 = 1 from rfl, cast_one, mul_one_div]
  refine ⟨_, _, _, _, ?_, rfl, ?_, hquarter _, hquarter _⟩
  · split_ifs
    · exact one_pos
    · exact Nat.pow_pos two_pos
  · rw [hquarter, zpow_sub₀ two_ne_zero]
    push_cast
    ring

theorem ends_apart (h : Proper m e) (hm : 0 < m) {v g : ℚ} (hv : v = m * 2 ^ e) (hg : g * 10 ^ 16 ≤ v) :
    lowEnd m e < v ∧ v < highEnd m e ∧ g < highEnd m e - lowEnd m e := by
  have hpow : (0 : ℚ) < 2 ^ e := zpow_pos two_pos e
  have hsmall : (m : ℚ) < 2 ^ 53 := by exact_mod_cast h.small
  have hfour : (2 : ℚ) ^ (e - 2) = 2 ^ e / 4 := by
    rw [zpow_sub₀ two_ne_zero]
    norm_num
  rw [highEnd_eq, lowEnd, hfour, hv]
  rw [hv] at hg
  split_ifs with hcarry
  · obtain ⟨rfl, -⟩ := hcarry
    push_cast at hg ⊢
    refine ⟨?_, ?_, ?_⟩ <;> linarith
  · rw [cast_sub (by omega)]
    push_cast
    have hbound : (m : ℚ) * 2 ^ e < 2 ^ 53 * 2 ^ e := mul_lt_mul_of_pos_right hsmall hpow
    refine ⟨?_, ?_, ?_⟩ <;> linarith

theorem exists_onGrid (h : Proper m e) (hm : 0 < m) {value low high den : Nat} (hden : 0 < den)
    (hval : (value : ℚ) / den = m * 2 ^ e) (hlow : (low : ℚ) / den = lowEnd m e)
    (hhigh : (high : ℚ) / den = highEnd m e) (closed : Bool) :
    (onGrid? value low high den closed (decimalExponent value den - (17 : Nat) + 1)).isSome = true := by
  have hpos : 0 < value := by
    refine pos_of_ne_zero ?_
    rintro rfl
    have : (0 : ℚ) < m * 2 ^ e := mul_pos (cast_pos.2 hm) (zpow_pos two_pos e)
    rw [← hval] at this
    simp at this
  have hlead := (leads_decimalExponent hpos hden).le
  generalize decimalExponent value den = lead at hlead
  obtain ⟨floor, hfloor, hceil, -, hsome⟩ := onGrid?_spec value low high closed (lead - (17 : Nat) + 1) hden
  have hstep : (10 : ℚ) ^ (lead - (17 : Nat) + 1) * 10 ^ 16 ≤ value / den := by
    refine le_trans (le_of_eq ?_) hlead
    rw [← zpow_natCast, ← zpow_add₀ (by norm_num)]
    ring
  obtain ⟨hbelow, habove, hapart⟩ := ends_apart h hm hval hstep
  refine hsome ?_
  rw [hlow, hhigh]
  push_cast at hceil ⊢
  by_cases hinside : lowEnd m e < floor * 10 ^ (lead - (17 : Int) + 1)
  · exact .inl (within_of_lt hinside (hfloor.trans_lt habove))
  · refine .inr (within_of_lt (hbelow.trans hceil) ?_)
    push_cast at hapart
    linarith

structure Decimal.Writes (d : Decimal) (x : ℚ) : Prop where
  digits : ∀ c ∈ d.digits, c.isDigit = true
  first : ∃ c cs, d.digits = c :: cs ∧ c ≠ '0'
  value : (digitsValue d.digits : ℚ) * 10 ^ (d.exponent + 1 - d.digits.length) = x

theorem writes_dropZeros {k : Nat} (hk : 0 < k) (step : Int) :
    Decimal.Writes ⟨dropZeros (Nat.toDigits 10 k), step + ((Nat.toDigits 10 k).length - 1 : Nat)⟩ (k * 10 ^ step) := by
  obtain ⟨n, hn⟩ := exists_dropZeros (Nat.toDigits 10 k)
  obtain ⟨c, cs, hcs, hc⟩ := exists_toDigits hk
  have hval : digitsValue (dropZeros (Nat.toDigits 10 k)) * 10 ^ n = k := by
    have happend := digitsValue_append (dropZeros (Nat.toDigits 10 k)) (List.replicate n '0')
    rw [← hn, digitsValue_toDigits, digitsValue_zeros, length_replicate] at happend
    exact happend.symm
  have hlen := congrArg List.length hn
  rw [length_append, length_replicate] at hlen
  have hpos := length_pos_iff.2 (toDigits_ne_nil (n := k) (b := 10))
  generalize hds : dropZeros (Nat.toDigits 10 k) = ds at hn hval hlen
  refine ⟨fun c h => isDigit_of_mem_toDigits (n := k) (by rw [hn]; exact mem_append_left _ h), ?_, ?_⟩
  · cases ds with
    | nil =>
      rw [show digitsValue [] = 0 from rfl] at hval
      omega
    | cons d ds =>
      rw [hcs, cons_append, List.cons.injEq] at hn
      exact ⟨d, ds, rfl, hn.1 ▸ hc⟩
  · have hexp : step + ((Nat.toDigits 10 k).length - 1 : Nat) + 1 - ds.length = (n : Int) + step := by omega
    have hcast : (k : ℚ) = digitsValue ds * 10 ^ n := by exact_mod_cast hval.symm
    rw [hexp, zpow_add₀ (by norm_num), zpow_natCast, hcast, mul_assoc]

theorem shortest_writes (h : Proper m e) (hm : 0 < m) : ∃ x, Around m e x ∧ (shortest m e).Writes x := by
  obtain ⟨value, low, high, den, hden, hinterval, hval, hlow, hhigh⟩ := roundingInterval_spec m e
  obtain ⟨k, step, hfirst, hgrid⟩ := firstGrid_spec (show 1 ≤ 17 ∧ 17 < 1 + 17 by decide)
    (exists_onGrid h hm hden hval hlow hhigh (m % 2 == 0))
  obtain ⟨-, -, -, hsound, -⟩ := onGrid?_spec value low high (m % 2 == 0) step hden
  have hwithin := hsound k hgrid
  rw [hlow, hhigh, Within] at hwithin
  have haround : Around m e (k * 10 ^ step) := by
    split_ifs at hwithin with heven
    · rw [beq_iff_eq] at heven
      exact ⟨hwithin.1, hwithin.2, fun hodd => by omega⟩
    · exact ⟨hwithin.1.le, hwithin.2.le, fun _ => hwithin⟩
  have hk : 0 < k := by
    refine pos_of_ne_zero ?_
    rintro rfl
    have hpow : (0 : ℚ) < 2 ^ e := zpow_pos two_pos e
    have hone : (1 : ℚ) ≤ m := by exact_mod_cast hm
    have := (lowEnd_ge hm e).trans haround.low
    have := mul_pos (show (0 : ℚ) < m - 1 / 2 by linarith) hpow
    linarith
  refine ⟨_, haround, ?_⟩
  rw [shortest, hinterval]
  dsimp only
  rw [hfirst]
  exact writes_dropZeros hk step

end Shortest

/-! ## Reading decimals -/

section OfDecimal

variable {s : Bool} {m n : Nat} {e k : Int}

theorem standard_ofDecimal (s : Bool) (n : Nat) (k : Int) : Standard (ofDecimal s n k) := by
  rw [ofDecimal]
  dsimp only
  split_ifs
  · exact .finite s proper_zero
  · exact .infinite s
  · exact .finite s proper_zero
  · exact standard_ofRatio s _ one_pos
  · exact standard_ofRatio s n (Nat.pow_pos (by decide))

theorem lead_bounds (h : Proper m e) (hm : 0 < m) (hn : 0 < n) (hx : Around m e (n * 10 ^ k)) :
    ¬ k + (decimalLength n : Int) > 400 ∧ ¬ k + (decimalLength n : Int) < -400 := by
  have hpow : (0 : ℚ) < 2 ^ e := zpow_pos two_pos e
  have hone : (1 : ℚ) ≤ m := by exact_mod_cast hm
  have hsmall : (m : ℚ) + 1 ≤ 2 ^ (53 : Int) := by exact_mod_cast h.small
  have height : (2 : ℚ) ^ (1200 : Int) ≤ 10 ^ (400 : Int) := by
    rw [show (1200 : Int) = 3 * 400 from rfl, zpow_mul]
    exact zpow_le_zpow_left₀ (by decide) (by positivity) (by norm_num)
  have hmax : (n : ℚ) * 10 ^ k < 10 ^ (400 : Int) :=
    calc (n : ℚ) * 10 ^ k ≤ (m + 1 / 2) * 2 ^ e := hx.high.trans_eq (highEnd_eq m e)
      _ < 2 ^ (53 : Int) * 2 ^ e := mul_lt_mul_of_pos_right (by linarith) hpow
      _ = 2 ^ (53 + e) := (zpow_add₀ two_ne_zero _ _).symm
      _ ≤ 2 ^ (1200 : Int) := zpow_le_zpow_right₀ one_le_two (by linarith [h.greatest])
      _ ≤ 10 ^ (400 : Int) := height
  have hmin : (10 : ℚ) ^ (-400 : Int) ≤ n * 10 ^ k :=
    calc (10 : ℚ) ^ (-400 : Int) ≤ 2 ^ (-1200 : Int) := by
          rw [zpow_neg, zpow_neg]
          exact inv_anti₀ (zpow_pos two_pos _) height
      _ ≤ 2 ^ (-1 + e) := zpow_le_zpow_right₀ one_le_two (by linarith [h.least])
      _ = 1 / 2 * 2 ^ e := by rw [zpow_add₀ two_ne_zero]; norm_num
      _ ≤ (m - 1 / 2) * 2 ^ e := mul_le_mul_of_nonneg_right (by linarith) hpow.le
      _ ≤ n * 10 ^ k := (lowEnd_ge hm e).trans hx.low
  have hleads : Leads 10 (n * 10 ^ k) ((decimalLength n - 1 : Nat) + k) := by
    obtain ⟨hge, hlt⟩ := decimalLength_bounds hn
    have hk : (0 : ℚ) < 10 ^ k := zpow_pos (by norm_num) k
    constructor
    · rw [zpow_add₀ (by norm_num), zpow_natCast]
      exact mul_le_mul_of_nonneg_right (by exact_mod_cast hge) hk.le
    · rw [add_right_comm, zpow_add₀ (by norm_num)]
      exact mul_lt_mul_of_pos_right (by exact_mod_cast hlt) hk
  have hupper := hleads.le_of_lt (f := 399) (by decide) hmax
  have hlower := hleads.ge_of_le (f := -400) (by decide) hmin
  omega

theorem ofDecimal_eq (s : Bool) (h : Proper m e) (hm : 0 < m) (hn : n ≠ 0) (hx : Around m e (n * 10 ^ k)) :
    ofDecimal s n k = .finite s m e := by
  obtain ⟨hhigh, hlow⟩ := lead_bounds h hm (pos_of_ne_zero hn) hx
  have hquo := pow_toNat_div (b := 10) (by decide) k
  rw [cast_ofNat] at hquo
  rw [← hquo] at hx
  rw [ofDecimal, if_neg hn]
  dsimp only
  split_ifs with hk
  · refine ofRatio_eq s h hm one_pos ?_
    rw [Int.toNat_of_nonpos (z := -k) (by omega), Nat.cast_one, div_one] at hx
    rwa [Nat.cast_one, div_one, Nat.cast_mul]
  · refine ofRatio_eq s h hm (Nat.pow_pos (by decide)) ?_
    rwa [Int.toNat_of_nonpos (z := k) (by omega), Nat.cast_one, mul_one_div] at hx

end OfDecimal

end Transclude.Number
