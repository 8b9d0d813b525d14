import PMLib.Lib.Rounding
import Mathlib.Tactic.Ring

/-! # Double precision arithmetic on rationals

Rounding to the nearest binary64 number, ties to even, down to the subnormal ones. A magnitude
beyond the largest number is left to the caller. -/
namespace Binary64

open Rounding

def ulp (q : ℚ) : ℚ := 2 ^ max (binade q - 52) (-1074)

def ofRat (q : ℚ) : ℚ := roundHalfEven (q / ulp q) * ulp q

theorem ulp_pos (q : ℚ) : 0 < ulp q := by unfold ulp; positivity

@[simp] theorem ulp_neg (q : ℚ) : ulp (-q) = ulp q := by rw [ulp, ulp, binade_neg]

theorem ofRat_neg (q : ℚ) : ofRat (-q) = -ofRat q := by
  rw [ofRat, ofRat, ulp_neg, neg_div, roundHalfEven_neg]
  push_cast
  ring

theorem ofRat_zero : ofRat 0 = 0 := by simp [ofRat, roundHalfEven]

/-! ## A tenth of a number

The literal `1e-1` is a little more than a tenth, so that the product with it may be rounded to
another number than the quotient by ten. -/

def tenth : ℚ := ofRat (1 / 10)

theorem tenth_eq : tenth = (2 ^ 54 + 1) / (10 * 2 ^ 54) := by decide +kernel

/-- A number, in units of the last place of its tenth. -/
def tenthUnits (x : ℚ) : ℕ := ⌊|x| / ulp (x / 10)⌋.toNat

/-- The remainder of these units by ten is not rounded the other way for the excess of the
literal. -/
def TenthExact (x : ℚ) : Prop :=
  let n := tenthUnits x
  5 < n % 10 ∨ n % 10 = 5 ∧ n / 10 % 2 = 1 ∨ n % 10 * 2 ^ 54 + n < 5 * 2 ^ 54 ∨
    n % 10 * 2 ^ 54 + n = 5 * 2 ^ 54 ∧ n / 10 % 2 = 0

instance (x : ℚ) : Decidable (TenthExact x) := inferInstanceAs (Decidable (_ ∨ _))

theorem divHalfEven_tenth_iff {n c : ℕ} (hn : n < 5 * c) :
    divHalfEven (n * (c + 1)) (10 * c) = divHalfEven n 10 ↔
      5 < n % 10 ∨ n % 10 = 5 ∧ n / 10 % 2 = 1 ∨ n % 10 * c + n < 5 * c ∨
        n % 10 * c + n = 5 * c ∧ n / 10 % 2 = 0 := by
  obtain ⟨r, hr⟩ : ∃ r, n % 10 = r := ⟨_, rfl⟩
  obtain ⟨a, ha⟩ : ∃ a, n / 10 = a := ⟨_, rfl⟩
  have hprod : n * (c + 1) = (r * c + n) + 10 * c * a := by
    have hsplit : n = 10 * a + r := by omega
    calc n * (c + 1) = n * c + n := by ring
      _ = (10 * a + r) * c + n := by rw [← hsplit]
      _ = (r * c + n) + 10 * c * a := by ring
  -- what the remainder adds
  have hlow : r < 5 → r * c ≤ 4 * c := fun h => Nat.mul_le_mul_right c (by omega)
  have hmid : r = 5 → r * c = 5 * c := fun h => by rw [h]
  have hhigh : 5 < r → 6 * c ≤ r * c := fun h => Nat.mul_le_mul_right c h
  have hlt : r * c ≤ 9 * c := Nat.mul_le_mul_right c (by omega)
  unfold divHalfEven
  rw [hprod, Nat.add_mul_div_left _ _ (by omega), Nat.add_mul_mod_self_left, hr, ha]
  generalize r * c = p at *
  rcases lt_or_ge (p + n) (10 * c) with h | h
  · rw [Nat.div_eq_of_lt h, Nat.mod_eq_of_lt h]
    split_ifs <;> omega
  · rw [Nat.div_eq_of_lt_le (k := 1) (by omega) (by omega), Nat.mod_eq_sub_mod h,
      Nat.mod_eq_of_lt (by omega)]
    split_ifs <;> omega

section units

variable {n : ℕ} {u : ℚ}

theorem ofRat_div_ten (hu : u = ulp (n * u / 10)) :
    ofRat (n * u / 10) = divHalfEven n 10 * u := by
  have hpos : 0 < u := hu ▸ ulp_pos _
  have hdiv : n * u / 10 / u = ((n : ℚ) / (10 : ℕ)) := by
    field_simp
    norm_num
  rw [ofRat, ← hu, hdiv, roundHalfEven_div (by decide), Int.cast_natCast]

/-- The product is rounded in the units of the quotient, also where it comes to lie in the next
binade. -/
theorem ofRat_mul_tenth (hn₀ : 0 < n) (hn : n < 5 * 2 ^ 54) (hu : u = ulp (n * u / 10)) :
    ofRat (n * u * tenth) = divHalfEven (n * (2 ^ 54 + 1)) (10 * 2 ^ 54) * u := by
  have hpos : 0 < u := hu ▸ ulp_pos _
  have hn₀' : (0 : ℚ) < n := by exact_mod_cast hn₀
  have hquot : 0 < n * u / 10 := by positivity
  have hprod : n * u * tenth = ((n * (2 ^ 54 + 1) : ℕ) : ℚ) / ((10 * 2 ^ 54 : ℕ) : ℚ) * u := by
    rw [tenth_eq]
    push_cast
    ring
  have hle : n * u / 10 ≤ n * u * tenth := by
    rw [tenth_eq]
    nlinarith
  have hlt : n * u * tenth < 2 * (n * u / 10) := by
    rw [tenth_eq]
    nlinarith
  have hbinade := binade_mono hquot hle
  have hnext : binade (n * u * tenth) ≤ binade (n * u / 10) + 1 := by
    have hlow := (binade_bounds (hquot.trans_le hle)).1
    have hhigh := (binade_bounds hquot).2
    have hpow : (2 : ℚ) ^ binade (n * u * tenth) < 2 ^ (binade (n * u / 10) + 1 + 1) := by
      rw [zpow_add_one₀ two_ne_zero (binade (n * u / 10) + 1)]
      linarith
    have := (zpow_lt_zpow_iff_right₀ (by norm_num : (1 : ℚ) < 2)).mp hpow
    omega
  by_cases hsame : ulp (n * u * tenth) = u
  · rw [ofRat, hsame, hprod, mul_div_cancel_right₀ _ hpos.ne', roundHalfEven_div (by positivity),
      Int.cast_natCast]
  · -- the product is a power of two and a little more
    have hexp : binade (n * u * tenth) = binade (n * u / 10) + 1 ∧
        -1074 ≤ binade (n * u / 10) - 52 := by
      by_contra hno
      refine hsame (Eq.trans ?_ hu.symm)
      rw [ulp, ulp]
      congr 1
      omega
    have hunit : u = 2 ^ (binade (n * u / 10) - 52) := by
      have := hu
      rwa [ulp, max_eq_left hexp.2] at this
    have hdouble : ulp (n * u * tenth) = 2 * u := by
      rw [ulp, hexp.1, max_eq_left (by omega), show binade (n * u / 10) + 1 - 52 =
        binade (n * u / 10) - 52 + 1 by ring, zpow_add_one₀ two_ne_zero, ← hunit, mul_comm]
    have hpow : (2 : ℚ) ^ (binade (n * u / 10) + 1) = 2 ^ 53 * u := by
      rw [show binade (n * u / 10) + 1 = binade (n * u / 10) - 52 + ((53 : ℕ) : ℤ) by
          push_cast
          ring,
        zpow_add₀ two_ne_zero, ← hunit, zpow_natCast, mul_comm]
    have hover : 2 ^ 53 * (10 * 2 ^ 54) ≤ n * (2 ^ 54 + 1) := by
      have hlow := (binade_bounds (hquot.trans_le hle)).1
      rw [hexp.1, hpow, hprod, mul_le_mul_iff_left₀ hpos, le_div_iff₀ (by positivity)] at hlow
      exact_mod_cast hlow
    have hround : divHalfEven (n * (2 ^ 54 + 1)) (10 * 2 ^ 54) = 2 ^ 53 ∧
        divHalfEven (n * (2 ^ 54 + 1)) (2 * (10 * 2 ^ 54)) = 2 ^ 52 := by
      unfold divHalfEven
      norm_num only at hn hover ⊢
      constructor <;> split_ifs <;> omega
    have hdiv : n * u * tenth / (2 * u) =
        ((n * (2 ^ 54 + 1) : ℕ) : ℚ) / ((2 * (10 * 2 ^ 54) : ℕ) : ℚ) := by
      rw [hprod]
      push_cast
      field_simp
      norm_num
    rw [ofRat, hdouble, hdiv, roundHalfEven_div (by positivity), hround.1, hround.2]
    push_cast
    ring

end units

theorem exists_units {q : ℚ} (hq : 0 < q) : ∃ n : ℕ, ∃ u : ℚ, ofRat q = n * u ∧
    u = ulp (n * u / 10) ∧ n < 5 * 2 ^ 54 := by
  obtain ⟨r, hr⟩ : ∃ r : ℕ, roundHalfEven (q / ulp q) = r := by
    refine Int.eq_ofNat_of_zero_le ?_
    have hmono := roundHalfEven_mono (div_pos hq (ulp_pos q)).le
    rwa [show roundHalfEven 0 = 0 by exact_mod_cast roundHalfEven_intCast 0] at hmono
  have hx : ofRat q = r * ulp q := by rw [ofRat, hr, Int.cast_natCast]
  rcases Nat.eq_zero_or_pos r with rfl | hr₀
  · exact ⟨0, ulp 0, by simp [hx], by simp, by decide⟩
  have hr₁ : (1 : ℚ) ≤ r := by exact_mod_cast hr₀
  have hpos : 0 < ofRat q := by
    rw [hx]
    exact mul_pos (by linarith) (ulp_pos q)
  -- rounding to at least one unit does not more than double
  have hle : ofRat q / 10 ≤ q := by
    have hnear := (abs_le.mp (abs_roundHalfEven_sub_le (q / ulp q))).2
    rw [hr, Int.cast_natCast] at hnear
    have hunits : (r : ℚ) ≤ 2 * (q / ulp q) := by linarith
    have hq' : r * ulp q ≤ 2 * q := by
      have := mul_le_mul_of_nonneg_right hunits (ulp_pos q).le
      rwa [mul_assoc, div_mul_cancel₀ q (ulp_pos q).ne'] at this
    rw [hx]
    linarith
  have hbinade := binade_mono (div_pos hpos (by norm_num)) hle
  obtain ⟨j, hj⟩ := Int.eq_ofNat_of_zero_le (a := max (binade q - 52) (-1074) -
    max (binade (ofRat q / 10) - 52) (-1074)) (by omega)
  have hulp : ulp q = 2 ^ j * ulp (ofRat q / 10) := by
    rw [ulp, ulp, ← zpow_natCast, ← hj, ← zpow_add₀ two_ne_zero, sub_add_cancel]
  have hn : ofRat q = (r * 2 ^ j : ℕ) * ulp (ofRat q / 10) := by
    calc ofRat q = r * (2 ^ j * ulp (ofRat q / 10)) := by rw [← hulp, hx]
      _ = (r * 2 ^ j : ℕ) * ulp (ofRat q / 10) := by push_cast; ring
  refine ⟨r * 2 ^ j, ulp (ofRat q / 10), hn, by rw [← hn], ?_⟩
  have hhigh := (binade_bounds (div_pos hpos (by norm_num : (0 : ℚ) < 10))).2
  have hcap : (2 : ℚ) ^ (binade (ofRat q / 10) + 1) ≤ 2 ^ 53 * ulp (ofRat q / 10) := by
    rw [ulp, ← zpow_natCast, ← zpow_add₀ two_ne_zero]
    exact zpow_le_zpow_right₀ (by norm_num) (by push_cast; omega)
  have hlt : ((r * 2 ^ j : ℕ) : ℚ) < 10 * 2 ^ 53 := by
    have := hhigh.trans_le hcap
    nth_rewrite 1 [hn] at this
    have hu := ulp_pos (ofRat q / 10)
    by_contra hno
    push Not at hno
    nlinarith
  calc r * 2 ^ j < 10 * 2 ^ 53 := by exact_mod_cast hlt
    _ = 5 * 2 ^ 54 := by norm_num

theorem mul_tenth_eq_iff (q : ℚ) :
    ofRat (ofRat q * tenth) = ofRat (ofRat q / 10) ↔ TenthExact (ofRat q) := by
  have hpositive : ∀ q : ℚ, 0 < q →
      (ofRat (ofRat q * tenth) = ofRat (ofRat q / 10) ↔ TenthExact (ofRat q)) := by
    intro q hq
    obtain ⟨n, u, hx, hu, hn⟩ := exists_units hq
    have hpos : 0 < u := hu ▸ ulp_pos _
    have hunits : tenthUnits (ofRat q) = n := by
      rw [tenthUnits, hx, ← hu, abs_of_nonneg (by positivity), mul_div_cancel_right₀ _ hpos.ne',
        Int.floor_natCast, Int.toNat_natCast]
    rw [TenthExact, hunits, hx, ofRat_div_ten hu]
    rcases Nat.eq_zero_or_pos n with rfl | hn₀
    · simp [ofRat_zero, divHalfEven]
    · rw [ofRat_mul_tenth hn₀ hn hu, mul_left_inj' hpos.ne', Nat.cast_inj,
        divHalfEven_tenth_iff hn]
  rcases lt_trichotomy q 0 with hq | rfl | hq
  · have hneg : TenthExact (ofRat (-q)) ↔ TenthExact (ofRat q) := by
      simp only [TenthExact, tenthUnits, ofRat_neg, abs_neg, neg_div, ulp_neg]
    rw [← hneg, ← hpositive (-q) (by linarith), ofRat_neg, neg_mul, ofRat_neg, neg_div, ofRat_neg,
      neg_inj]
  · rw [ofRat_zero, zero_mul, zero_div]
    exact iff_of_true rfl (by decide +kernel)
  · exact hpositive q hq

end Binary64
