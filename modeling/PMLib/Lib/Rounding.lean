import Mathlib.Data.Rat.Floor
import Mathlib.Algebra.Order.Field.Power
import Mathlib.Algebra.Order.Floor.Div
import Mathlib.Tactic.Linarith
import Mathlib.Tactic.Positivity
import Mathlib.Tactic.FieldSimp

/-! # Rounding rationals to a binary format

Rounding to the nearest number whose significand has `k` bits after the leading one, ties to
even, for magnitudes in the normal range of the format. -/
namespace Rounding

def roundHalfEven (q : ℚ) : ℤ :=
  if q - ⌊q⌋ < 1 / 2 then ⌊q⌋
  else if 1 / 2 < q - ⌊q⌋ then ⌊q⌋ + 1
  else if ⌊q⌋ % 2 = 0 then ⌊q⌋ else ⌊q⌋ + 1

/-- The exponent `e` with `2 ^ e ≤ |q| < 2 ^ (e + 1)`, from the lengths of the numerator
and the denominator. -/
def binade (q : ℚ) : ℤ :=
  let e : ℤ := (q.num.natAbs.log2 : ℤ) - q.den.log2
  if (2 : ℚ) ^ e ≤ |q| then e else e - 1

theorem binade_neg (q : ℚ) : binade (-q) = binade q := by simp [binade]

def ulp (k : ℕ) (q : ℚ) : ℚ := 2 ^ (binade q - k)

def ofRat (k : ℕ) (q : ℚ) : ℚ :=
  if q = 0 then 0 else roundHalfEven (q / ulp k q) * ulp k q

theorem roundHalfEven_intCast (n : ℤ) : roundHalfEven n = n := by
  simp [roundHalfEven]

theorem roundHalfEven_neg (q : ℚ) : roundHalfEven (-q) = -roundHalfEven q := by
  by_cases hq : (⌊q⌋ : ℚ) = q
  · rw [← hq, ← Int.cast_neg, roundHalfEven_intCast, roundHalfEven_intCast]
  have hl : (⌊q⌋ : ℚ) < q := lt_of_le_of_ne (Int.floor_le q) hq
  have hu := Int.lt_floor_add_one q
  have hfloor : ⌊-q⌋ = -⌊q⌋ - 1 := by
    rw [Int.floor_eq_iff]
    push_cast
    constructor <;> linarith
  -- the distances to the two neighbours are exchanged
  unfold roundHalfEven
  rw [hfloor]
  push_cast
  split_ifs <;> first | omega | (exfalso; linarith)

theorem floor_le_roundHalfEven (q : ℚ) : ⌊q⌋ ≤ roundHalfEven q := by
  unfold roundHalfEven
  split_ifs <;> omega

theorem roundHalfEven_le_floor_add_one (q : ℚ) : roundHalfEven q ≤ ⌊q⌋ + 1 := by
  unfold roundHalfEven
  split_ifs <;> omega

theorem roundHalfEven_mono {x y : ℚ} (h : x ≤ y) : roundHalfEven x ≤ roundHalfEven y := by
  rcases (Int.floor_le_floor h).lt_or_eq with hlt | heq
  · have hx := roundHalfEven_le_floor_add_one x
    have hy := floor_le_roundHalfEven y
    omega
  · -- In one unit interval only the comparison with the midpoint decides.
    unfold roundHalfEven
    rw [← heq]
    split_ifs <;> first | omega | (exfalso; linarith)

theorem pow_log2_bounds {n : ℕ} (hn : n ≠ 0) :
    (2 : ℚ) ^ (n.log2 : ℤ) ≤ n ∧ (n : ℚ) < 2 ^ ((n.log2 : ℤ) + 1) := by
  have hl : 2 ^ n.log2 ≤ n := Nat.log2_self_le hn
  have hu : n < 2 ^ (n.log2 + 1) := Nat.lt_log2_self
  constructor
  · rw [zpow_natCast]; exact_mod_cast hl
  · rw [← Nat.cast_succ, zpow_natCast]; exact_mod_cast hu

theorem binade_bounds {q : ℚ} (hq : 0 < q) :
    (2 : ℚ) ^ binade q ≤ q ∧ q < 2 ^ (binade q + 1) := by
  have hnum : q.num.natAbs ≠ 0 := Int.natAbs_ne_zero.mpr (Rat.num_pos.mpr hq).ne'
  obtain ⟨nl, nu⟩ := pow_log2_bounds hnum
  obtain ⟨dl, du⟩ := pow_log2_bounds q.den_nz
  set a : ℤ := (q.num.natAbs.log2 : ℤ)
  set b : ℤ := (q.den.log2 : ℤ)
  have hden : (0 : ℚ) < q.den := by exact_mod_cast q.den_pos
  have hcast : ((q.num.natAbs : ℕ) : ℚ) = q.num := by
    rw [← Int.cast_natCast, Int.natAbs_of_nonneg (Rat.num_nonneg.mpr hq.le)]
  have hval : q * q.den = (q.num.natAbs : ℚ) := by rw [hcast]; exact Rat.mul_den_eq_num q
  -- The quotient of the two lengths is off by one binade at most.
  have hlow : (2 : ℚ) ^ (a - b - 1) < q := by
    have h : (2 : ℚ) ^ (a - b - 1) * 2 ^ (b + 1) = 2 ^ a := by
      rw [← zpow_add₀ two_ne_zero]; congr 1; omega
    have hp : (0 : ℚ) < 2 ^ (a - b - 1) := by positivity
    by_contra hle
    push Not at hle
    have := mul_lt_mul' hle du hden.le hp
    linarith
  have hhigh : q < 2 ^ (a - b + 1) := by
    have h : (2 : ℚ) ^ (a - b + 1) * 2 ^ b = 2 ^ (a + 1) := by
      rw [← zpow_add₀ two_ne_zero]; congr 1; omega
    have hp : (0 : ℚ) < 2 ^ (a - b + 1) := by positivity
    by_contra hle
    push Not at hle
    have := mul_le_mul hle dl (by positivity) (hp.le.trans hle)
    linarith
  unfold binade
  rw [abs_of_pos hq]
  change (2 : ℚ) ^ (if (2 : ℚ) ^ (a - b) ≤ q then a - b else a - b - 1) ≤ q ∧
    q < 2 ^ ((if (2 : ℚ) ^ (a - b) ≤ q then a - b else a - b - 1) + 1)
  split_ifs with h
  · exact ⟨h, hhigh⟩
  · push Not at h
    exact ⟨hlow.le, by rwa [sub_add_cancel]⟩

theorem binade_mono {x y : ℚ} (hx : 0 < x) (h : x ≤ y) : binade x ≤ binade y := by
  have hlt : (2 : ℚ) ^ binade x < 2 ^ (binade y + 1) :=
    (binade_bounds hx).1.trans_lt (h.trans_lt (binade_bounds (hx.trans_le h)).2)
  have := (zpow_lt_zpow_iff_right₀ (by norm_num : (1 : ℚ) < 2)).mp hlt
  omega

variable (k : ℕ)

theorem ulp_pos (q : ℚ) : 0 < ulp k q := by unfold ulp; positivity

theorem pow_binade_div_ulp (q : ℚ) (j : ℕ) :
    (2 : ℚ) ^ (binade q + j) / ulp k q = ((2 ^ (k + j) : ℤ) : ℚ) := by
  unfold ulp
  rw [← zpow_sub₀ two_ne_zero, show binade q + j - (binade q - k) = ((k + j : ℕ) : ℤ) by omega,
    zpow_natCast]
  norm_num

theorem ofRat_bounds {q : ℚ} (hq : 0 < q) :
    (2 : ℚ) ^ binade q ≤ ofRat k q ∧ ofRat k q ≤ 2 ^ (binade q + 1) := by
  have hu := ulp_pos k q
  obtain ⟨hl, hh⟩ := binade_bounds hq
  have hlow : (2 : ℚ) ^ binade q / ulp k q ≤ roundHalfEven (q / ulp k q) := by
    have h0 := pow_binade_div_ulp k q 0
    simp only [Nat.cast_zero, add_zero] at h0
    rw [h0]
    have := roundHalfEven_mono (h0 ▸ (div_le_div_iff_of_pos_right hu).mpr hl)
    rw [roundHalfEven_intCast] at this
    exact_mod_cast this
  have hhigh : (roundHalfEven (q / ulp k q) : ℚ) ≤ 2 ^ (binade q + 1) / ulp k q := by
    have h1 := pow_binade_div_ulp k q 1
    simp only [Nat.cast_one] at h1
    rw [h1]
    have := roundHalfEven_mono (h1 ▸ (div_le_div_iff_of_pos_right hu).mpr hh.le)
    rw [roundHalfEven_intCast] at this
    exact_mod_cast this
  rw [ofRat, if_neg hq.ne']
  exact ⟨(div_le_iff₀ hu).mp hlow, (le_div_iff₀ hu).mp hhigh⟩

theorem ofRat_zero : ofRat k 0 = 0 := by simp [ofRat]

theorem ofRat_pos {q : ℚ} (hq : 0 < q) : 0 < ofRat k q :=
  lt_of_lt_of_le (by positivity) (ofRat_bounds k hq).1

theorem ofRat_mono {x y : ℚ} (hx : 0 < x) (h : x ≤ y) : ofRat k x ≤ ofRat k y := by
  have hy := hx.trans_le h
  rcases (binade_mono hx h).lt_or_eq with hlt | heq
  · calc ofRat k x ≤ 2 ^ (binade x + 1) := (ofRat_bounds k hx).2
      _ ≤ 2 ^ binade y := zpow_le_zpow_right₀ (by norm_num) hlt
      _ ≤ ofRat k y := (ofRat_bounds k hy).1
  · have hulp : ulp k x = ulp k y := by unfold ulp; rw [heq]
    have hu := ulp_pos k y
    rw [ofRat, ofRat, if_neg hx.ne', if_neg hy.ne', hulp]
    have hr := roundHalfEven_mono ((div_le_div_iff_of_pos_right hu).mpr h)
    exact mul_le_mul_of_nonneg_right (by exact_mod_cast hr) hu.le

/-! ## Exact values and the error of the others -/

theorem abs_roundHalfEven_sub_le (q : ℚ) : |(roundHalfEven q : ℚ) - q| ≤ 1 / 2 := by
  have hl := Int.floor_le q
  have hu := Int.lt_floor_add_one q
  rw [abs_le]
  unfold roundHalfEven
  split_ifs <;> push_cast <;> constructor <;> linarith

theorem abs_ofRat_sub_le {q : ℚ} (hq : 0 < q) : |ofRat k q - q| ≤ q / 2 ^ (k + 1) := by
  have hu := ulp_pos k q
  have hdiff : ofRat k q - q = (roundHalfEven (q / ulp k q) - q / ulp k q) * ulp k q := by
    rw [ofRat, if_neg hq.ne', sub_mul, div_mul_cancel₀ q hu.ne']
  have hulp : ulp k q ≤ q / 2 ^ k := by
    rw [ulp, zpow_sub₀ two_ne_zero, zpow_natCast]
    exact div_le_div_of_nonneg_right (binade_bounds hq).1 (by positivity)
  rw [hdiff, abs_mul, abs_of_pos hu]
  calc |(roundHalfEven (q / ulp k q) : ℚ) - q / ulp k q| * ulp k q
      ≤ 1 / 2 * (q / 2 ^ k) :=
        mul_le_mul (abs_roundHalfEven_sub_le _) hulp hu.le (by norm_num)
    _ = q / 2 ^ (k + 1) := by rw [pow_succ]; ring

/-- A number with a short enough significand is not changed. -/
theorem ofRat_mul_zpow {n : ℕ} (hn : 0 < n) (h : n < 2 ^ (k + 1)) (z : ℤ) :
    ofRat k (n * 2 ^ z) = n * 2 ^ z := by
  have hz : (0 : ℚ) < 2 ^ z := by positivity
  have hq : (0 : ℚ) < n * 2 ^ z := mul_pos (by exact_mod_cast hn) hz
  have hlt : (2 : ℚ) ^ binade (n * 2 ^ z : ℚ) < 2 ^ (k + 1 + z : ℤ) := by
    calc (2 : ℚ) ^ binade (n * 2 ^ z : ℚ) ≤ n * 2 ^ z := (binade_bounds hq).1
      _ < 2 ^ (k + 1) * 2 ^ z := (mul_lt_mul_iff_left₀ hz).mpr (by exact_mod_cast h)
      _ = 2 ^ (k + 1 + z : ℤ) := by
        rw [zpow_add₀ two_ne_zero, zpow_add₀ two_ne_zero, zpow_natCast, zpow_one, pow_succ]
  have hb := (zpow_lt_zpow_iff_right₀ (by norm_num : (1 : ℚ) < 2)).mp hlt
  obtain ⟨j, hj⟩ := Int.eq_ofNat_of_zero_le (a := z - (binade (n * 2 ^ z : ℚ) - k)) (by omega)
  have hu := ulp_pos k (n * 2 ^ z : ℚ)
  have hdiv : (n * 2 ^ z : ℚ) / ulp k (n * 2 ^ z : ℚ) = ((n * 2 ^ j : ℤ) : ℚ) := by
    rw [ulp, mul_div_assoc, ← zpow_sub₀ two_ne_zero, hj]
    push_cast
    rw [zpow_natCast]
  rw [ofRat, if_neg hq.ne', hdiv, roundHalfEven_intCast, ← hdiv, div_mul_cancel₀ _ hu.ne']

theorem ofRat_natCast {n : ℕ} (h : n < 2 ^ (k + 1)) : ofRat k n = n := by
  rcases Nat.eq_zero_or_pos n with rfl | hn
  · exact_mod_cast ofRat_zero k
  · have := ofRat_mul_zpow k hn h 0
    rwa [zpow_zero, mul_one] at this

theorem ofRat_two_pow (n : ℕ) : ofRat k (2 ^ n) = 2 ^ n := by
  have := ofRat_mul_zpow k (n := 1) one_pos (Nat.one_lt_two_pow (by omega)) n
  rwa [Nat.cast_one, one_mul, zpow_natCast] at this

theorem natCast_lt_ofRat_div {a b n : ℕ} (hb : 0 < b) (ha : a < 2 ^ (k + 1)) (h : b * n < a) :
    (n : ℚ) < ofRat k (a / b) := by
  have hb' : (0 : ℚ) < b := by exact_mod_cast hb
  have hq : (0 : ℚ) < a / b := div_pos (by exact_mod_cast (Nat.zero_le _).trans_lt h) hb'
  have herr := (abs_le.mp (abs_ofRat_sub_le k hq)).1
  have hgap : (n : ℚ) + 1 / b ≤ a / b := by
    rw [le_div_iff₀ hb', add_mul, one_div_mul_cancel hb'.ne', mul_comm]
    exact_mod_cast h
  have hsmall : (a : ℚ) / b / 2 ^ (k + 1) < 1 / b := by
    rw [div_div, div_lt_div_iff₀ (by positivity) hb', one_mul, mul_comm]
    exact (mul_lt_mul_iff_right₀ hb').mpr (by exact_mod_cast ha)
  linarith

theorem ofRat_div_le_natCast {a b n : ℕ} (hb : 0 < b) (ha : 0 < a) (hn : n < 2 ^ (k + 1))
    (h : a ≤ b * n) : ofRat k (a / b) ≤ n := by
  have hb' : (0 : ℚ) < b := by exact_mod_cast hb
  have hq : (0 : ℚ) < a / b := div_pos (by exact_mod_cast ha) hb'
  rw [← ofRat_natCast k hn]
  apply ofRat_mono k hq
  rw [div_le_iff₀' hb']
  exact_mod_cast h

/-- Rounding up after a division of whole numbers is not disturbed by the rounding of the
operands and of the quotient. -/
theorem ceil_ofRat_div {a b : ℕ} (hb : 0 < b) (ha : a < 2 ^ (k + 1)) :
    ⌈ofRat k (ofRat k a / ofRat k b)⌉ = ((a ⌈/⌉ b : ℕ) : ℤ) := by
  rcases Nat.eq_zero_or_pos a with rfl | hpos
  · simp [ofRat_zero]
  have hle : a ≤ b * (a ⌈/⌉ b) := (ceilDiv_le_iff_le_mul hb).mp le_rfl
  obtain ⟨n, hn⟩ := Nat.exists_eq_succ_of_ne_zero (n := a ⌈/⌉ b) fun hzero => by
    rw [hzero] at hle
    omega
  have hlt : b * n < a := by
    by_contra hno
    have := (ceilDiv_le_iff_le_mul hb).mpr (not_lt.mp hno)
    omega
  rw [hn] at hle ⊢
  rw [ofRat_natCast k ha, Int.ceil_eq_iff]
  push_cast
  rw [add_sub_cancel_right]
  by_cases hfit : b < 2 ^ (k + 1)
  · rw [ofRat_natCast k hfit]
    have hna : n + 1 ≤ a := (Nat.le_mul_of_pos_left n hb).trans_lt hlt
    refine ⟨natCast_lt_ofRat_div k hb ha hlt, ?_⟩
    exact_mod_cast ofRat_div_le_natCast k hb hpos (by omega) hle
  · -- the divisor exceeds the dividend, whatever it is rounded to
    have hbig : (a : ℚ) ≤ ofRat k b := by
      have hmono : ofRat k (2 ^ (k + 1)) ≤ ofRat k b :=
        ofRat_mono k (by positivity) (by exact_mod_cast not_lt.mp hfit)
      rw [ofRat_two_pow] at hmono
      exact le_trans (by exact_mod_cast ha.le) hmono
    have ha' : (0 : ℚ) < a := by exact_mod_cast hpos
    have hb' : 0 < ofRat k b := ha'.trans_le hbig
    have hn : n = 0 := by
      by_contra hne
      have := Nat.le_mul_of_pos_right b (Nat.pos_of_ne_zero hne)
      omega
    have hone := ofRat_mono k (div_pos ha' hb') ((div_le_one hb').mpr hbig)
    have hunit := ofRat_two_pow k 0
    rw [pow_zero] at hunit
    rw [hn, Nat.cast_zero, zero_add, ← hunit]
    exact ⟨ofRat_pos k (div_pos ha' hb'), hone⟩

/-! ## Rounding in whole numbers -/

theorem binade_eq {q : ℚ} {e : ℤ} (hl : (2 : ℚ) ^ e ≤ q) (hu : q < 2 ^ (e + 1)) :
    binade q = e := by
  obtain ⟨hl', hu'⟩ := binade_bounds ((by positivity : (0 : ℚ) < 2 ^ e).trans_le hl)
  have h₁ := (zpow_lt_zpow_iff_right₀ (by norm_num : (1 : ℚ) < 2)).mp (hl.trans_lt hu')
  have h₂ := (zpow_lt_zpow_iff_right₀ (by norm_num : (1 : ℚ) < 2)).mp (hl'.trans_lt hu)
  omega

def divHalfEven (a b : ℕ) : ℕ :=
  if 2 * (a % b) < b ∨ 2 * (a % b) = b ∧ a / b % 2 = 0 then a / b else a / b + 1

theorem roundHalfEven_div {a b : ℕ} (hb : 0 < b) :
    roundHalfEven (a / b) = divHalfEven a b := by
  have hb' : (0 : ℚ) < b := by exact_mod_cast hb
  have hfloor : ⌊(a / b : ℚ)⌋ = (a / b : ℕ) := by
    rw [Int.floor_eq_iff, le_div_iff₀ hb', div_lt_iff₀ hb']
    constructor
    · exact_mod_cast Nat.div_mul_le_self a b
    · exact_mod_cast (show a < (a / b + 1) * b by
        rw [add_mul, one_mul, Nat.mul_comm]
        exact Nat.lt_mul_div_succ a hb)
  have hfrac : (a / b : ℚ) - (a / b : ℕ) = (a % b : ℕ) / b := by
    rw [eq_div_iff hb'.ne', sub_mul, div_mul_cancel₀ _ hb'.ne', sub_eq_iff_eq_add]
    exact_mod_cast (Nat.mod_add_div' a b).symm
  have hlt : ((a % b : ℕ) / b : ℚ) < 1 / 2 ↔ 2 * (a % b) < b := by
    rw [div_lt_div_iff₀ hb' two_pos, one_mul, mul_comm]
    exact_mod_cast Iff.rfl
  have hgt : (1 / 2 : ℚ) < (a % b : ℕ) / b ↔ b < 2 * (a % b) := by
    rw [div_lt_div_iff₀ two_pos hb', one_mul, mul_comm]
    exact_mod_cast Iff.rfl
  unfold roundHalfEven divHalfEven
  rw [hfloor, Int.cast_natCast, hfrac]
  simp only [hlt, hgt]
  split_ifs <;> omega

def shorten (n : ℕ) : ℕ :=
  divHalfEven n (2 ^ (n.log2 - k)) * 2 ^ (n.log2 - k)

theorem ofRat_natCast_eq (n : ℕ) : ofRat k n = shorten k n := by
  rcases Nat.eq_zero_or_pos n with rfl | hn
  · simp [ofRat_zero, shorten, divHalfEven]
  by_cases hshort : n.log2 < k + 1
  · rw [ofRat_natCast k ((Nat.log2_lt hn.ne').mp hshort), shorten,
      show n.log2 - k = 0 by omega]
    simp [divHalfEven, Nat.mod_one]
  · obtain ⟨s, hs⟩ := Nat.exists_eq_add_of_le (show k ≤ n.log2 by omega)
    obtain ⟨hl, hu⟩ := pow_log2_bounds hn.ne'
    have hulp : ulp k n = ((2 ^ s : ℕ) : ℚ) := by
      rw [ulp, binade_eq hl hu, show (n.log2 : ℤ) - k = (s : ℕ) by omega, zpow_natCast]
      norm_num
    rw [ofRat, if_neg (by exact_mod_cast hn.ne'), hulp, roundHalfEven_div (by positivity), shorten,
      show n.log2 - k = s by omega]
    push_cast
    rfl

/-- The numbers that are rounded to `d + 1` units or more: those above the middle of the last
unit, and the middle when `d` is odd. -/
theorem ofRat_cases {d : ℕ} (hl : 2 ^ k ≤ d) (hu : d < 2 ^ (k + 1)) (z : ℤ) {x : ℚ} (hx : 0 < x) :
    (((d + 1 / 2) * 2 ^ z < x ∨ (d + 1 / 2) * 2 ^ z = x ∧ d % 2 = 1) ∧
        (d + 1) * 2 ^ z ≤ ofRat k x) ∨
      (¬ ((d + 1 / 2) * 2 ^ z < x ∨ (d + 1 / 2) * 2 ^ z = x ∧ d % 2 = 1) ∧
        ofRat k x ≤ d * 2 ^ z) := by
  have hz : (0 : ℚ) < 2 ^ z := by positivity
  have hd : 0 < d := (Nat.two_pow_pos k).trans_le hl
  have hd' : (0 : ℚ) < d := by exact_mod_cast hd
  rcases lt_or_ge x (d * 2 ^ z) with hlow | hlow
  · refine .inr ⟨?_, ?_⟩
    · rintro (h | ⟨h, -⟩) <;> nlinarith
    · have := ofRat_mono k hx hlow.le
      rwa [ofRat_mul_zpow k hd hu] at this
  rcases le_or_gt (((d : ℚ) + 1) * 2 ^ z) x with hhigh | hhigh
  · refine .inl ⟨.inl (by nlinarith), ?_⟩
    have hexact : ofRat k ((d + 1) * 2 ^ z) = (d + 1) * 2 ^ z := by
      rcases (show d + 1 < 2 ^ (k + 1) ∨ d + 1 = 2 ^ (k + 1) by omega) with hlt | heq
      · have := ofRat_mul_zpow k (Nat.succ_pos d) hlt z
        push_cast at this
        exact this
      · have hpow : ((d : ℚ) + 1) * 2 ^ z = ((1 : ℕ) : ℚ) * 2 ^ ((k + 1 : ℕ) + z) := by
          rw [zpow_add₀ two_ne_zero, zpow_natCast, Nat.cast_one, one_mul]
          exact_mod_cast congrArg (fun a : ℕ => (a : ℚ) * 2 ^ z) heq
        rw [hpow, ofRat_mul_zpow k one_pos (Nat.one_lt_two_pow (by omega))]
    rw [← hexact]
    exact ofRat_mono k (by positivity) hhigh
  · -- in between, the units are those of the binade
    have hbinade : binade x = z + k := by
      apply binade_eq
      · calc (2 : ℚ) ^ (z + k) = (2 ^ k : ℕ) * 2 ^ z := by
              rw [zpow_add₀ two_ne_zero, zpow_natCast, mul_comm]
              norm_num
          _ ≤ d * 2 ^ z := mul_le_mul_of_nonneg_right (by exact_mod_cast hl) hz.le
          _ ≤ x := hlow
      · calc x < (d + 1) * 2 ^ z := hhigh
          _ ≤ (2 ^ (k + 1) : ℕ) * 2 ^ z :=
            mul_le_mul_of_nonneg_right (by exact_mod_cast hu) hz.le
          _ = 2 ^ (z + k + 1) := by
            rw [add_assoc, zpow_add₀ two_ne_zero, mul_comm]
            norm_cast
    have hulp : ulp k x = 2 ^ z := by rw [ulp, hbinade, add_sub_cancel_right]
    have hfloor : ⌊x / 2 ^ z⌋ = d := by
      rw [Int.floor_eq_iff, le_div_iff₀ hz, div_lt_iff₀ hz]
      exact ⟨by exact_mod_cast hlow, by exact_mod_cast hhigh⟩
    have hlt : x / 2 ^ z - d < 1 / 2 ↔ x < (d + 1 / 2) * 2 ^ z := by
      rw [sub_lt_iff_lt_add, div_lt_iff₀ hz, add_comm]
    have hgt : 1 / 2 < x / 2 ^ z - d ↔ (d + 1 / 2) * 2 ^ z < x := by
      rw [lt_sub_iff_add_lt, lt_div_iff₀ hz, add_comm]
    have heven : (d : ℤ) % 2 = 0 ↔ ¬ d % 2 = 1 := by omega
    rw [ofRat, if_neg hx.ne', hulp, roundHalfEven, hfloor, Int.cast_natCast]
    simp only [hlt, hgt, heven]
    split_ifs with h₁ h₂ h₃
    · refine .inr ⟨?_, le_rfl⟩
      rintro (h | ⟨h, -⟩) <;> linarith
    · exact .inl ⟨.inl h₂, by push_cast; exact le_rfl⟩
    · refine .inl ⟨.inr ⟨le_antisymm (not_lt.mp h₁) (not_lt.mp h₂), h₃⟩, ?_⟩
      push_cast
      exact le_rfl
    · refine .inr ⟨?_, le_rfl⟩
      rintro (h | ⟨-, h⟩)
      · exact h₂ h
      · exact h₃ h

/-! ## Rounding twice

A number is rounded to the format first and to a whole number then. -/

theorem ofRat_nonpos {q : ℚ} (hq : q ≤ 0) : ofRat k q ≤ 0 := by
  have hu := ulp_pos k q
  have hr := roundHalfEven_mono (div_nonpos_of_nonpos_of_nonneg hq hu.le)
  have hzero : roundHalfEven 0 = 0 := by exact_mod_cast roundHalfEven_intCast 0
  rw [hzero] at hr
  unfold ofRat
  split_ifs
  · exact le_rfl
  · exact mul_nonpos_of_nonpos_of_nonneg (by exact_mod_cast hr) hu.le

def Nearest (x : ℚ) (i : ℤ) : Prop := ∀ j : ℤ, |x - i| ≤ |x - j|

theorem nearest_iff {x : ℚ} {i : ℤ} : Nearest x i ↔ |x - i| ≤ 1 / 2 := by
  constructor
  · intro h
    exact (h (round x)).trans (abs_sub_round x)
  · intro h j
    by_cases hij : i = j
    · rw [hij]
    have hone : (1 : ℚ) ≤ |(i : ℚ) - j| := by
      have := abs_pos.mpr (sub_ne_zero.mpr hij)
      exact_mod_cast (show (1 : ℤ) ≤ |i - j| by omega)
    have htri := abs_sub_le (i : ℚ) x j
    rw [abs_sub_comm (i : ℚ) x] at htri
    linarith

/-- The middle of two neighbouring whole numbers separates `y` from `x`. At the middle itself
`y` belongs to the upper side. -/
def MidpointBetween (x y : ℚ) : Prop :=
  ∃ n : ℤ, (x < n + 1 / 2 ∧ n + 1 / 2 ≤ y) ∨ (y < n + 1 / 2 ∧ n + 1 / 2 < x)

theorem nearest_floor_iff {x y : ℚ} : Nearest x ⌊y + 1 / 2⌋ ↔ ¬ MidpointBetween x y := by
  have hl := Int.floor_le (y + 1 / 2)
  have hu := Int.lt_floor_add_one (y + 1 / 2)
  generalize ⌊y + 1 / 2⌋ = i at hl hu ⊢
  rw [nearest_iff, abs_le]
  constructor
  · rintro ⟨hlow, hhigh⟩ ⟨n, ⟨hx, hy⟩ | ⟨hy, hx⟩⟩
    · have hlt : (n : ℚ) < i := by linarith
      have hle : (n : ℚ) + 1 ≤ i := by exact_mod_cast hlt
      linarith
    · have hlt : (i : ℚ) < n + 1 := by linarith
      have hle : (i : ℚ) ≤ n := by
        have : i < n + 1 := by exact_mod_cast hlt
        exact_mod_cast (show i ≤ n by omega)
      linarith
  · intro hno
    constructor
    · by_contra hlow
      refine hno ⟨i - 1, .inl ⟨?_, ?_⟩⟩ <;> push_cast <;> linarith
    · by_contra hhigh
      exact hno ⟨i, .inr ⟨by linarith, by linarith⟩⟩

theorem le_abs_sub_midpoint {a b n : ℤ} (hb : 0 < b) (h : (a : ℚ) / b ≠ n + 1 / 2) :
    1 / (2 * b : ℚ) ≤ |(a : ℚ) / b - (n + 1 / 2)| := by
  have hb' : (0 : ℚ) < b := by exact_mod_cast hb
  have heq : (a : ℚ) / b - (n + 1 / 2) = ((2 * a - (2 * n + 1) * b : ℤ) : ℚ) / (2 * b) := by
    push_cast
    field_simp
  have hnum : 2 * a - (2 * n + 1) * b ≠ 0 := by
    intro hzero
    rw [hzero, Int.cast_zero, zero_div] at heq
    exact h (sub_eq_zero.mp heq)
  have hone : (1 : ℚ) ≤ |((2 * a - (2 * n + 1) * b : ℤ) : ℚ)| := by
    exact_mod_cast Int.one_le_abs hnum
  rw [heq, abs_div, abs_of_pos (show (0 : ℚ) < 2 * b by positivity)]
  exact div_le_div_of_nonneg_right hone (by positivity)

/-- The quotient of whole numbers with short significands is not rounded over the middle of
two whole numbers: it is away from it by more than its rounding error. -/
theorem not_midpointBetween_ofRat_div {a b : ℕ} (hb : 0 < b) (ha : 0 < a) (hk : a < 2 ^ k) :
    ¬ MidpointBetween (a / b) (ofRat k (a / b)) := by
  have hb' : (0 : ℚ) < b := by exact_mod_cast hb
  have hq : (0 : ℚ) < a / b := div_pos (by exact_mod_cast ha) hb'
  obtain ⟨hlow, hhigh⟩ := abs_le.mp (abs_ofRat_sub_le k hq)
  have hsmall : (a : ℚ) / b / 2 ^ (k + 1) < 1 / (2 * b) := by
    rw [div_div, div_lt_div_iff₀ (by positivity) (by positivity), pow_succ]
    have : (a : ℚ) < 2 ^ k := by exact_mod_cast hk
    nlinarith
  rintro ⟨n, hn⟩
  have hne : ((a : ℤ) : ℚ) / (b : ℤ) ≠ n + 1 / 2 := by
    rw [Int.cast_natCast, Int.cast_natCast]
    rcases hn with ⟨hx, -⟩ | ⟨-, hx⟩
    · exact hx.ne
    · exact hx.ne'
  have hgap := le_abs_sub_midpoint (by omega) hne
  rw [Int.cast_natCast, Int.cast_natCast] at hgap
  rcases hn with ⟨hx, hy⟩ | ⟨hy, hx⟩
  · rw [abs_of_neg (by linarith)] at hgap
    linarith
  · rw [abs_of_pos (by linarith)] at hgap
    linarith

theorem floor_eq_of_not_midpointBetween {x y : ℚ} (hx : ∀ n : ℤ, x ≠ n + 1 / 2)
    (h : ¬ MidpointBetween x y) : ⌊y + 1 / 2⌋ = ⌊x + 1 / 2⌋ := by
  have hnear := abs_le.mp (nearest_iff.mp (nearest_floor_iff.mpr h))
  have hne := hx (⌊y + 1 / 2⌋ - 1)
  have hne' := hx ⌊y + 1 / 2⌋
  push_cast at hne
  refine (Int.floor_eq_iff.mpr ⟨by linarith, ?_⟩).symm
  rcases lt_or_eq_of_le hnear.2 with hlt | heq
  · linarith
  · exact absurd (by linarith) hne'

theorem floor_ofRat_div {a b : ℕ} (hb : 0 < b) (ha : 0 < a) (hk : a < 2 ^ k) :
    ⌊ofRat k (a / b : ℚ) + 1 / 2⌋ = ⌊(a / b : ℚ) + 1 / 2⌋ := by
  by_cases hx : ∀ n : ℤ, (a / b : ℚ) ≠ n + 1 / 2
  · exact floor_eq_of_not_midpointBetween hx (not_midpointBetween_ofRat_div k hb ha hk)
  -- a middle is a short number of halves
  · obtain ⟨n, hn⟩ := not_forall_not.mp hx
    have hb' : (1 : ℚ) ≤ b := by exact_mod_cast hb
    have hpos : (0 : ℚ) ≤ a / b := by positivity
    have hle : (a : ℚ) / b ≤ a := div_le_self (by positivity) hb'
    have hn₀ : 0 ≤ n := by
      by_contra hneg
      have : (n : ℚ) ≤ -1 := by exact_mod_cast (show n ≤ -1 by omega)
      linarith
    obtain ⟨m, rfl⟩ := Int.eq_ofNat_of_zero_le hn₀
    rw [Int.cast_natCast] at hn
    have hm : m < a := by
      have : (m : ℚ) < a := by linarith
      exact_mod_cast this
    have hhalf : (a / b : ℚ) = ((2 * m + 1 : ℕ) : ℚ) * 2 ^ (-1 : ℤ) := by
      rw [hn]
      push_cast
      rw [zpow_neg_one]
      ring
    rw [hhalf, ofRat_mul_zpow k (by omega) (by rw [pow_succ]; omega)]

end Rounding
