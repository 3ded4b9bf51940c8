import Mathlib.Algebra.Order.Field.Power
import Mathlib.Data.Rat.Cast.Order
import Mathlib.Tactic.FieldSimp
import Mathlib.Tactic.Linarith
import Mathlib.Tactic.NormNum.Pow
import Mathlib.Tactic.Positivity
import Mathlib.Tactic.Ring
import Transclude.Number.Binary64

/-!
# Nearest numbers

What `Binary64.ofRatio` gives: a number in its one form (`Proper`), and every quotient in the interval around such a
number gives that number (`ofRatio_eq`). Quotients and powers are rational numbers here.
-/

namespace Transclude.Number

open Nat

/-! ## Rounding to natural numbers -/

/-- Whether a natural number is the nearest to a quotient, the even one of two equally near. -/
structure Rounds (x : ℚ) (m : Nat) : Prop where
  near : 2 * |x - m| ≤ 1
  even : 2 * |x - m| = 1 → m % 2 = 0

section Rounds

variable {x : ℚ} {m n num den : Nat}

theorem rounds_roundDiv (num : Nat) (hden : 0 < den) : Rounds (num / den) (roundDiv num den) := by
  have hd : (0 : ℚ) < den := cast_pos.2 hden
  have hquo : (num : ℚ) / den = (num / den : Nat) + (num % den : Nat) / den := by
    rw [← mul_div_cancel_left₀ ((num / den : Nat) : ℚ) hd.ne', ← add_div, ← cast_mul, ← cast_add,
      div_add_mod]
  rw [hquo, roundDiv]
  generalize num / den = q
  have hr : ((num % den : Nat) : ℚ) < den := cast_lt.2 (mod_lt num hden)
  generalize num % den = r at hr
  have hzero : 0 ≤ (r : ℚ) / den := by positivity
  have hone : (r : ℚ) / den < 1 := (div_lt_one hd).2 hr
  have hhalf : den < 2 * r ↔ 1 < 2 * ((r : ℚ) / den) := by
    rw [← mul_div_assoc, one_lt_div hd]
    exact_mod_cast Iff.rfl
  have htie : 2 * r = den ↔ 2 * ((r : ℚ) / den) = 1 := by
    rw [← mul_div_assoc, div_eq_one_iff_eq hd.ne']
    exact_mod_cast Iff.rfl
  split_ifs with hup
  · have hdist : |(q : ℚ) + r / den - (q + 1 : Nat)| = 1 - r / den := by
      rw [abs_of_neg (by push_cast; linarith)]
      push_cast
      ring
    rw [Bool.or_eq_true, Bool.and_eq_true, decide_eq_true_iff, beq_iff_eq, beq_iff_eq, gt_iff_lt, hhalf, htie] at hup
    constructor <;> rw [hdist]
    · rcases hup with hup | hup <;> linarith
    · intro h
      rcases hup with hup | hup
      · linarith
      · omega
  · have hdist : |(q : ℚ) + r / den - q| = r / den := by rw [add_sub_cancel_left, abs_of_nonneg hzero]
    rw [Bool.or_eq_true, Bool.and_eq_true, decide_eq_true_iff, beq_iff_eq, beq_iff_eq, gt_iff_lt, hhalf, htie,
      not_or, not_and] at hup
    constructor <;> rw [hdist]
    · linarith [hup.1]
    · intro h
      have := hup.2 h
      omega

theorem Rounds.le_of_le (h : Rounds x m) (hx : x ≤ n) : m ≤ n := by
  by_contra hlt
  have hnm : (n : ℚ) + 1 ≤ m := by exact_mod_cast Nat.lt_of_not_le hlt
  have hnear := h.near
  rw [abs_of_neg (by linarith)] at hnear
  linarith

theorem Rounds.ge_of_ge (h : Rounds x m) (hx : n ≤ x) : n ≤ m := by
  by_contra hlt
  have hmn : (m : ℚ) + 1 ≤ n := by exact_mod_cast Nat.lt_of_not_le hlt
  have hnear := h.near
  rw [abs_of_pos (by linarith)] at hnear
  linarith

theorem Rounds.le (hm : Rounds x m) (hn : Rounds x n) : m ≤ n := by
  by_contra hlt
  have hnm : (n : ℚ) + 1 ≤ m := by exact_mod_cast Nat.lt_of_not_le hlt
  have habove := (abs_le.1 (le_of_mul_le_mul_left (hm.near.trans_eq (mul_one_div_cancel two_ne_zero).symm) two_pos)).1
  have hbelow := (abs_le.1 (le_of_mul_le_mul_left (hn.near.trans_eq (mul_one_div_cancel two_ne_zero).symm) two_pos)).2
  -- the quotient lies half way between the two, so both would be even
  have hone : (m : ℚ) = (n + 1 : Nat) := by push_cast; linarith
  have hxm : x - m = -(1 / 2) := by linarith
  have hxn : x - n = 1 / 2 := by linarith
  have hm2 := hm.even (by rw [hxm]; norm_num)
  have hn2 := hn.even (by rw [hxn]; norm_num)
  have := cast_injective hone
  omega

theorem Rounds.unique (hm : Rounds x m) (hn : Rounds x n) : m = n := le_antisymm (hm.le hn) (hn.le hm)

end Rounds

/-! ## Powers -/

section Powers

variable {b : Nat} {x : ℚ} {e f k : Int} {num den : Nat}

theorem pow_toNat_div (hb : 0 < b) (k : Int) : (Nat.pow b k.toNat : ℚ) / Nat.pow b (-k).toNat = (b : ℚ) ^ k := by
  have hb' : (b : ℚ) ≠ 0 := cast_ne_zero.2 hb.ne'
  rw [pow_eq, pow_eq, cast_pow, cast_pow, ← zpow_natCast, ← zpow_natCast, ← zpow_sub₀ hb',
    Int.toNat_sub_toNat_neg]

theorem scaled_quotient (hb : 0 < b) (num den : Nat) (k : Int) :
    ((num * Nat.pow b (-k).toNat : Nat) : ℚ) / (den * Nat.pow b k.toNat : Nat) = num / den / (b : ℚ) ^ k := by
  rw [← pow_toNat_div hb, cast_mul, cast_mul]
  field_simp

structure Leads (b : Nat) (x : ℚ) (e : Int) : Prop where
  le : (b : ℚ) ^ e ≤ x
  lt : x < (b : ℚ) ^ (e + 1)

theorem Leads.le_of_lt (h : Leads b x e) (hb : 1 < b) (hx : x < (b : ℚ) ^ (f + 1)) : e ≤ f := by
  have hlt := (zpow_lt_zpow_iff_right₀ (one_lt_cast.2 hb)).1 (h.le.trans_lt hx)
  omega

theorem Leads.ge_of_le (h : Leads b x e) (hb : 1 < b) (hx : (b : ℚ) ^ f ≤ x) : f ≤ e := by
  have hlt := (zpow_lt_zpow_iff_right₀ (one_lt_cast.2 hb)).1 (hx.trans_lt h.lt)
  omega

theorem reaches_iff (hb : 0 < b) (hden : 0 < den) :
    (if k ≥ 0 then num ≥ den * Nat.pow b k.toNat else num * Nat.pow b (-k).toNat ≥ den) ↔ (b : ℚ) ^ k ≤ num / den := by
  have hpow : 0 < (b : ℚ) ^ k := zpow_pos (cast_pos.2 hb) k
  have hpos : (0 : ℚ) < (den * Nat.pow b k.toNat : Nat) := Nat.cast_pos.2 (Nat.mul_pos hden (Nat.pow_pos hb))
  rw [← one_le_div hpow, ← scaled_quotient hb, one_le_div hpos, cast_le]
  split_ifs with hk
  · rw [Int.toNat_of_nonpos (z := -k) (by omega), show Nat.pow b 0 = 1 from rfl, mul_one]
  · rw [Int.toNat_of_nonpos (z := k) (by omega), show Nat.pow b 0 = 1 from rfl, mul_one]

theorem leads_of_bounds (hb : 0 < b) (hden : 0 < den) (hlow : (b : ℚ) ^ (k - 1) ≤ num / den)
    (hhigh : (num : ℚ) / den < (b : ℚ) ^ (k + 1)) :
    Leads b (num / den) (if (if k ≥ 0 then num ≥ den * Nat.pow b k.toNat else num * Nat.pow b (-k).toNat ≥ den)
      then k else k - 1) := by
  by_cases hreached : (b : ℚ) ^ k ≤ num / den
  · rw [if_pos ((reaches_iff hb hden).2 hreached)]
    exact ⟨hreached, hhigh⟩
  · rw [if_neg (mt (reaches_iff hb hden).1 hreached)]
    refine ⟨hlow, ?_⟩
    rw [sub_add_cancel]
    exact lt_of_not_ge hreached

theorem quotient_bounds {i j : Nat} (hb : 0 < b) (hnum : b ^ i ≤ num ∧ num < b ^ (i + 1))
    (hden : b ^ j ≤ den ∧ den < b ^ (j + 1)) :
    (b : ℚ) ^ ((i - j : Int) - 1) ≤ num / den ∧ (num : ℚ) / den < (b : ℚ) ^ ((i - j : Int) + 1) := by
  have hb' : (0 : ℚ) < b := cast_pos.2 hb
  have hd : (0 : ℚ) < den := Nat.cast_pos.2 ((Nat.pow_pos hb).trans_le hden.1)
  have hcast : ∀ {m n : Nat}, b ^ m ≤ n → (b : ℚ) ^ m ≤ n := fun h => by exact_mod_cast h
  have hcast' : ∀ {m n : Nat}, n < b ^ m → (n : ℚ) < (b : ℚ) ^ m := fun h => by exact_mod_cast h
  rw [le_div_iff₀ hd, div_lt_iff₀ hd]
  constructor
  · calc (b : ℚ) ^ ((i - j : Int) - 1) * den ≤ (b : ℚ) ^ ((i - j : Int) - 1) * (b : ℚ) ^ (j + 1) := by
          gcongr
          exact (hcast' hden.2).le
      _ = (b : ℚ) ^ i := by
          rw [← zpow_natCast, ← zpow_natCast, ← zpow_add₀ hb'.ne']
          push_cast
          ring
      _ ≤ num := hcast hnum.1
  · calc (num : ℚ) < (b : ℚ) ^ (i + 1) := hcast' hnum.2
      _ = (b : ℚ) ^ ((i - j : Int) + 1) * (b : ℚ) ^ j := by
          rw [← zpow_natCast, ← zpow_natCast, ← zpow_add₀ hb'.ne']
          push_cast
          ring
      _ ≤ (b : ℚ) ^ ((i - j : Int) + 1) * den := by
          gcongr
          exact hcast hden.1

theorem leads_binaryExponent (hnum : 0 < num) (hden : 0 < den) : Leads 2 (num / den) (binaryExponent num den) := by
  obtain ⟨hlow, hhigh⟩ := quotient_bounds two_pos
    ⟨log2_self_le hnum.ne', lt_log2_self⟩ ⟨log2_self_le hden.ne', lt_log2_self⟩
  exact leads_of_bounds two_pos hden hlow hhigh

theorem decimalLength_bounds {n : Nat} (hn : 0 < n) :
    10 ^ (decimalLength n - 1) ≤ n ∧ n < 10 ^ (decimalLength n - 1 + 1) := by
  have hlen : 0 < decimalLength n := List.length_pos_iff.2 Nat.toDigits_ne_nil
  rw [Nat.sub_add_cancel hlen]
  refine ⟨?_, (Nat.length_toDigits_le_iff (by decide) hlen).1 le_rfl⟩
  rcases Nat.eq_zero_or_pos (decimalLength n - 1) with hzero | hpos
  · rw [hzero]
    exact hn
  · refine Nat.le_of_not_lt fun h => ?_
    have := (Nat.length_toDigits_le_iff (by decide) hpos).2 h
    rw [decimalLength] at this hpos
    omega

theorem leads_decimalExponent (hnum : 0 < num) (hden : 0 < den) : Leads 10 (num / den) (decimalExponent num den) := by
  have hlengths : ((decimalLength num - 1 : Nat) : Int) - (decimalLength den - 1 : Nat) =
      decimalLength num - decimalLength den := by
    have := List.length_pos_iff.2 (toDigits_ne_nil (n := num) (b := 10))
    have := List.length_pos_iff.2 (toDigits_ne_nil (n := den) (b := 10))
    rw [decimalLength, decimalLength]
    omega
  obtain ⟨hlow, hhigh⟩ := quotient_bounds (by decide) (decimalLength_bounds hnum) (decimalLength_bounds hden)
  rw [hlengths] at hlow hhigh
  exact leads_of_bounds (by decide) hden hlow hhigh

end Powers

/-! ## Numbers in their one form -/

namespace Binary64

structure Proper (m : Nat) (e : Int) : Prop where
  small : m < Nat.pow 2 53
  least : -1074 ≤ e
  greatest : e ≤ 971
  full : e = -1074 ∨ Nat.pow 2 52 ≤ m

inductive Standard : Binary64 → Prop
  | nan : Standard (.nan false)
  | infinite (s : Bool) : Standard (.infinite s)
  | finite (s : Bool) {m : Nat} {e : Int} (h : Proper m e) : Standard (.finite s m e)

theorem proper_zero : Proper 0 (-1074) := ⟨by decide, le_rfl, by decide, .inl rfl⟩

section OfRatio

variable {s : Bool} {num den m : Nat} {e : Int} {x : ℚ}

theorem rounds_mantissa (num : Nat) (hden : 0 < den) (e : Int) :
    Rounds (num / den / 2 ^ e) (if e ≥ 0 then roundDiv num (den * Nat.pow 2 e.toNat)
      else roundDiv (num * Nat.pow 2 (-e).toNat) den) := by
  have hpos : 0 < den * Nat.pow 2 e.toNat := Nat.mul_pos hden (Nat.pow_pos two_pos)
  have hrounds := rounds_roundDiv (num * Nat.pow 2 (-e).toNat) hpos
  rw [scaled_quotient two_pos] at hrounds
  split_ifs with he
  · rwa [Int.toNat_of_nonpos (z := -e) (by omega), show Nat.pow 2 0 = 1 from rfl, mul_one] at hrounds
  · rwa [Int.toNat_of_nonpos (z := e) (by omega), show Nat.pow 2 0 = 1 from rfl, mul_one] at hrounds

theorem ofRatio_of_rounds (hnum : num ≠ 0) (hden : 0 < den) (he : max (binaryExponent num den - 52) (-1074) = e)
    (h : Rounds (num / den / 2 ^ e) m) :
    ofRatio s num den = if m = Nat.pow 2 53 then
        if e + 1 > 971 then .infinite s else .finite s (Nat.pow 2 52) (e + 1)
      else if e > 971 then .infinite s else .finite s m e := by
  rw [ofRatio, if_neg hnum]
  dsimp only
  rw [he, (rounds_mantissa num hden e).unique h]
  split_ifs <;> rfl

theorem exists_rounds (hnum : 0 < num) (hden : 0 < den) : ∃ (k e : Int) (m : Nat), max (k - 52) (-1074) = e ∧
    Leads 2 (num / den) k ∧ Rounds (num / den / 2 ^ e) m ∧ ∀ s, ofRatio s num den = if m = Nat.pow 2 53 then
        if e + 1 > 971 then .infinite s else .finite s (Nat.pow 2 52) (e + 1)
      else if e > 971 then .infinite s else .finite s m e := by
  have hround := rounds_mantissa num hden (max (binaryExponent num den - 52) (-1074))
  exact ⟨_, _, _, rfl, leads_binaryExponent hnum hden, hround, fun s => ofRatio_of_rounds hnum.ne' hden rfl hround⟩

theorem standard_ofRatio (s : Bool) (num : Nat) (hden : 0 < den) : Standard (ofRatio s num den) := by
  rcases Nat.eq_zero_or_pos num with rfl | hnum
  · exact .finite s proper_zero
  obtain ⟨k, e, m, he, hleads, hround, heq⟩ := exists_rounds hnum hden
  rw [heq]
  have hpow : (0 : ℚ) < 2 ^ e := zpow_pos two_pos e
  have hsmall : m ≤ Nat.pow 2 53 := by
    refine hround.le_of_le ?_
    rw [div_le_iff₀ hpow, pow_eq, cast_pow, cast_ofNat, ← zpow_natCast, ← zpow_add₀ two_ne_zero]
    exact hleads.lt.le.trans (zpow_le_zpow_right₀ one_le_two (by omega))
  have hfull : e = -1074 ∨ Nat.pow 2 52 ≤ m := by
    rcases le_total (k - 52) (-1074) with hk | hk
    · exact .inl (by omega)
    · refine .inr (hround.ge_of_ge ?_)
      rw [le_div_iff₀ hpow, pow_eq, cast_pow, cast_ofNat, ← zpow_natCast, ← zpow_add₀ two_ne_zero]
      exact (zpow_le_zpow_right₀ one_le_two (by omega)).trans hleads.le
  split_ifs with hcarry
  · exact .infinite s
  · exact .finite s ⟨by decide, by omega, by omega, .inr le_rfl⟩
  · exact .infinite s
  · exact .finite s ⟨lt_of_le_of_ne hsmall hcarry, by omega, by omega, hfull⟩

/-- The lower end of the quotients that round to a number: half way to the number before it. -/
def lowEnd (m : Nat) (e : Int) : ℚ :=
  (if m = Nat.pow 2 52 ∧ e > -1074 then 4 * m - 1 else 4 * m - 2 : Nat) * 2 ^ (e - 2)

def highEnd (m : Nat) (e : Int) : ℚ := (4 * m + 2 : Nat) * 2 ^ (e - 2)

/-- Whether a quotient lies between the ends for a number; an end belongs to the number with the even mantissa. -/
structure Around (m : Nat) (e : Int) (x : ℚ) : Prop where
  low : lowEnd m e ≤ x
  high : x ≤ highEnd m e
  strict : m % 2 = 1 → lowEnd m e < x ∧ x < highEnd m e

theorem lowEnd_ge (hm : 0 < m) (e : Int) : ((m : ℚ) - 1 / 2) * 2 ^ e ≤ lowEnd m e := by
  rw [lowEnd, zpow_sub₀ two_ne_zero]
  have hpow : (0 : ℚ) < 2 ^ e := zpow_pos two_pos e
  split_ifs
  · rw [cast_sub (by omega)]
    push_cast
    linarith
  · rw [cast_sub (by omega)]
    push_cast
    linarith

theorem lowEnd_carry (he : -1074 < e) : lowEnd (Nat.pow 2 52) e = (2 ^ 53 - 1 / 2) * 2 ^ (e - 1) := by
  rw [lowEnd, if_pos ⟨rfl, he⟩, zpow_sub₀ two_ne_zero, zpow_sub₀ two_ne_zero, pow_eq]
  ring

theorem highEnd_eq (m : Nat) (e : Int) : highEnd m e = ((m : ℚ) + 1 / 2) * 2 ^ e := by
  rw [highEnd, zpow_sub₀ two_ne_zero]
  push_cast
  ring

theorem Around.rounds (h : Around m e x) (hm : 0 < m) : Rounds (x / 2 ^ e) m := by
  have hpow : (0 : ℚ) < 2 ^ e := zpow_pos two_pos e
  have hlow := (lowEnd_ge hm e).trans h.low
  have hhigh := h.high
  rw [highEnd_eq] at hhigh
  rw [← le_div_iff₀ hpow] at hlow
  rw [← div_le_iff₀ hpow] at hhigh
  constructor
  · have := abs_le.2 ⟨show -(1 / 2) ≤ x / 2 ^ e - m by linarith, show x / 2 ^ e - m ≤ 1 / 2 by linarith⟩
    linarith
  · intro htie
    by_contra hodd
    obtain ⟨hlow, hhigh⟩ := h.strict (by omega)
    rw [highEnd_eq, ← div_lt_iff₀ hpow] at hhigh
    replace hlow := (lowEnd_ge hm e).trans_lt hlow
    rw [← lt_div_iff₀ hpow] at hlow
    have := abs_lt.2 ⟨show -(1 / 2) < x / 2 ^ e - m by linarith, show x / 2 ^ e - m < 1 / 2 by linarith⟩
    linarith

theorem ofRatio_eq (s : Bool) (h : Proper m e) (hm : 0 < m) (hden : 0 < den) (hx : Around m e (num / den)) :
    ofRatio s num den = .finite s m e := by
  have hpow : (0 : ℚ) < 2 ^ e := zpow_pos two_pos e
  have hone : (1 : ℚ) ≤ m := by exact_mod_cast hm
  have hpos : (0 : ℚ) < num / den := by
    refine lt_of_lt_of_le ?_ ((lowEnd_ge hm e).trans hx.low)
    exact mul_pos (by linarith) hpow
  have hnum : num ≠ 0 := by
    rintro rfl
    simp at hpos
  have hleads := leads_binaryExponent (pos_of_ne_zero hnum) hden
  have hbelow : (num : ℚ) / den < 2 ^ (e + 52 + 1) := by
    have hm53 : (m : ℚ) + 1 ≤ 2 ^ (53 : Nat) := by exact_mod_cast h.small
    refine (hx.high.trans_eq (highEnd_eq m e)).trans_lt ?_
    rw [add_assoc, zpow_add₀ two_ne_zero, mul_comm]
    refine mul_lt_mul_of_pos_left ?_ hpow
    linarith
  have hle : binaryExponent num den ≤ e + 52 := hleads.le_of_lt one_lt_two hbelow
  have hleast := h.least
  have hgreatest := h.greatest
  by_cases hreach : (2 : ℚ) ^ (e + 52) ≤ num / den ∨ e = -1074
  · have he : max (binaryExponent num den - 52) (-1074) = e := by
      rcases hreach with hreach | rfl
      · have := hleads.ge_of_le one_lt_two hreach
        omega
      · omega
    rw [ofRatio_of_rounds hnum hden he (hx.rounds hm), if_neg h.small.ne, if_neg (by omega)]
  · -- only a number with the least full mantissa is reached from below by a carry
    obtain ⟨hreach, hne⟩ := not_or.1 hreach
    obtain hfull := h.full.resolve_left hne
    have hm52 : m = Nat.pow 2 52 := by
      refine le_antisymm ((hx.rounds hm).le_of_le ?_) hfull
      rw [div_le_iff₀ hpow, pow_eq, cast_pow, cast_ofNat, ← zpow_natCast, ← zpow_add₀ two_ne_zero]
      refine (lt_of_not_ge hreach).le.trans_eq ?_
      rw [add_comm]
      rfl
    subst hm52
    have hlow := hx.low
    rw [lowEnd_carry (by omega)] at hlow
    have hpow1 : (0 : ℚ) < 2 ^ (e - 1) := zpow_pos two_pos _
    have he : max (binaryExponent num den - 52) (-1074) = e - 1 := by
      have := hleads.le_of_lt (f := e + 51) one_lt_two (by simpa [add_assoc] using lt_of_not_ge hreach)
      have hreached : ((2 : Nat) : ℚ) ^ (e + 51) ≤ num / den := by
        refine le_trans ?_ hlow
        rw [cast_ofNat, show e + 51 = 52 + (e - 1) by ring, zpow_add₀ two_ne_zero]
        refine mul_le_mul_of_nonneg_right ?_ hpow1.le
        norm_num
      have := hleads.ge_of_le one_lt_two hreached
      omega
    have hround : Rounds (num / den / 2 ^ (e - 1)) (Nat.pow 2 53) := by
      have hlt : (num : ℚ) / den / 2 ^ (e - 1) < 2 ^ 53 := by
        rw [div_lt_iff₀ hpow1]
        refine (lt_of_not_ge hreach).trans_eq ?_
        rw [show e + 52 = 53 + (e - 1) by ring, zpow_add₀ two_ne_zero]
        rfl
      rw [← le_div_iff₀ hpow1] at hlow
      constructor
      · rw [abs_of_neg (by rw [pow_eq]; linarith), pow_eq]
        linarith
      · exact fun _ => by decide
    rw [ofRatio_of_rounds hnum hden he hround, if_pos rfl, if_neg (by omega), sub_add_cancel]

end OfRatio

end Binary64

end Transclude.Number
