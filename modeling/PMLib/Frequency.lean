import PMLib.Measurements

/-! # Strides of accepted frequencies

CREATE refuses a frequency above the one of its device and divides the two otherwise. What
comes out is the step of every later GET, and GET divides by it. -/
namespace PMLib

open Int32Conv

variable {V : Type}

namespace Counter

/-- The frequency arrives in an `unsigned int` and is passed on as an `int`. -/
def receivedFrequency (frequency : ℤ) : ℤ := wrap32 (frequency % 2 ^ 32)

theorem receivedFrequency_of_fits {f : ℤ} (h : FitsInt f) : receivedFrequency f = f := by
  have hmod : wrap32 (f % 2 ^ 32) = wrap32 f := by
    unfold wrap32
    exact_mod_cast Int.emod_bmod f (2 ^ 32)
  rw [receivedFrequency, hmod, wrap32_of_fits h]

/-- The frequency that a counter works at, zero standing for the one of the device. -/
def effectiveFrequency (maxFrequency frequency : ℤ) : ℤ :=
  if frequency = 0 then maxFrequency else frequency

/-- The frequency is rejected, or it gives a stride of at least one that no whole number is
closer to the quotient than. -/
def GivesStride (maxFrequency frequency : ℤ) : Prop :=
  setFrequency maxFrequency (receivedFrequency frequency) = .failed ∨
    ∃ interval, setFrequency maxFrequency (receivedFrequency frequency) = .done interval ∧
      1 ≤ interval ∧
      Rounding.Nearest (maxFrequency / effectiveFrequency maxFrequency frequency) interval

variable (V) in
/-- Wherever a counter of this frequency waits for an operation in a run of a server with
this device, the divisor of its next GET is positive. -/
def DividesSafely [Zero V] [Add V] (maxFrequency frequency : ℤ) : Prop :=
  ∀ (ρ : Run V) (es : List (Event V)) (t : Server V),
    Trace.exec Server.next ρ.start es = .done t → t.dev.maxFrequency = maxFrequency →
      ∀ (k : ℕ) (c : Counter), t.sessions[k]? = some ⟨c, .serving⟩ →
        c.frequency = frequency → 1 ≤ c.interval

def quotient (maxFrequency frequency : ℤ) : ℚ :=
  Binary32.ofRat (Binary32.ofRat maxFrequency / Binary32.ofRat frequency)

def short (n : ℤ) : ℕ := Rounding.shorten 23 n.toNat

/-- The last number of 24 binary digits below `n + 1 / 2`, in units of `2 ^ (n.log2 - 23)`. -/
def belowMiddle (n : ℕ) : ℕ :=
  if n.log2 < 23 then (2 * n + 1) * 2 ^ (22 - n.log2) - 1 else n / 2 ^ (n.log2 - 23)

/-- `a / b` exceeds the number below `n + 1 / 2` by more than half a unit, or by half a unit if
that number is odd. -/
def ReachesMiddle (a b n : ℕ) : Prop :=
  b * (2 * belowMiddle n + 1) * 2 ^ n.log2 < a * 2 ^ 24 ∨
    b * (2 * belowMiddle n + 1) * 2 ^ n.log2 = a * 2 ^ 24 ∧ belowMiddle n % 2 = 1

/-- The frequency is not negative and, on a device of 2^23 Hz or more, 24 binary digits of both
frequencies are enough to tell on which side of each middle of two strides they lie. -/
def UsableFrequency (maxFrequency frequency : ℤ) : Prop :=
  0 ≤ frequency ∧ (2 ^ 23 ≤ maxFrequency → 0 < frequency → frequency ≤ maxFrequency →
    ∀ n : ℕ, 0 < n →
      (2 * maxFrequency < (2 * n + 1) * frequency →
        ¬ ReachesMiddle (short maxFrequency) (short frequency) n) ∧
      ((2 * n + 1) * frequency < 2 * maxFrequency →
        ReachesMiddle (short maxFrequency) (short frequency) n))

section division

variable {m f : ℤ}

theorem setFrequency_eq (hf : f ≤ m) (h : effectiveFrequency m f ≠ 0) :
    setFrequency m f =
      if FitsInt (Binary32.roundAway (quotient m (effectiveFrequency m f))) then
        .done (Binary32.roundAway (quotient m (effectiveFrequency m f)))
      else .undefined := by
  unfold setFrequency
  rw [if_neg (by omega)]
  exact if_neg h

theorem setFrequency_above (hm : 1 ≤ m) (hf : m < f) : setFrequency m f = .failed :=
  if_pos ⟨by omega, hf⟩

theorem one_le_quotient (hf : 0 < f) (hfm : f ≤ m) : 1 ≤ quotient m f :=
  Binary32.one_le_ofRat_div (by exact_mod_cast hf) (by exact_mod_cast hfm)

theorem setFrequency_negative (hm : 1 ≤ m) (hf : f < 0) {interval : ℤ}
    (h : setFrequency m f = .done interval) : interval ≤ 0 := by
  have heff : effectiveFrequency m f = f := if_neg (by omega)
  rw [setFrequency_eq (by omega) (by omega), heff] at h
  split_ifs at h
  obtain rfl := Outcome.done.inj h
  have hnum : 0 < Binary32.ofRat m := Binary32.ofRat_pos (by exact_mod_cast hm)
  have hden : Binary32.ofRat f ≤ 0 :=
    Rounding.ofRat_nonpos 23 (by exact_mod_cast hf.le)
  apply Binary32.roundAway_nonpos
  exact Rounding.ofRat_nonpos 23 (div_nonpos_of_nonneg_of_nonpos hnum.le hden)

/-- Operands and quotient of frequencies below 2^23 keep their side of every middle. -/
theorem not_midpointBetween_quotient (hf : 0 < f) (hfm : f ≤ m) (hm : m < 2 ^ 23) :
    ¬ Rounding.MidpointBetween (m / f) (quotient m f) := by
  obtain ⟨a, rfl⟩ := Int.eq_ofNat_of_zero_le (show 0 ≤ m by omega)
  obtain ⟨b, rfl⟩ := Int.eq_ofNat_of_zero_le hf.le
  have ha : Binary32.ofRat a = a := Rounding.ofRat_natCast 23 (by omega)
  have hb : Binary32.ofRat b = b := Rounding.ofRat_natCast 23 (by omega)
  rw [quotient, Int.cast_natCast, Int.cast_natCast, ha, hb]
  exact Rounding.not_midpointBetween_ofRat_div 23 (by omega) (by omega) (by omega)

theorem belowMiddle_bounds {n : ℕ} (hn : 0 < n) :
    2 ^ 23 ≤ belowMiddle n ∧ belowMiddle n < 2 ^ 24 ∧
      (belowMiddle n : ℚ) * 2 ^ ((n.log2 : ℤ) - 23) < n + 1 / 2 ∧
      (n : ℚ) + 1 / 2 ≤ (belowMiddle n + 1) * 2 ^ ((n.log2 : ℤ) - 23) := by
  have hl : 2 ^ n.log2 ≤ n := Nat.log2_self_le hn.ne'
  have hu : n < 2 ^ (n.log2 + 1) := Nat.lt_log2_self
  unfold belowMiddle
  generalize n.log2 = e at hl hu ⊢
  split_ifs with he
  · -- the middle has 24 digits itself
    obtain ⟨j, hj⟩ : ∃ j, e + j = 22 := ⟨22 - e, by omega⟩
    rw [show 22 - e = j by omega]
    have hpow : 2 ^ e * 2 ^ j = 2 ^ 22 := by rw [← Nat.pow_add, hj]
    have hmore : 2 ^ 23 < (2 * n + 1) * 2 ^ j := by
      have := Nat.mul_lt_mul_of_pos_right (show 2 * 2 ^ e < 2 * n + 1 by omega)
        (Nat.two_pow_pos j)
      rw [Nat.mul_assoc, hpow] at this
      exact this
    have hless : (2 * n + 1) * 2 ^ j < 2 ^ 24 := by
      have := Nat.mul_lt_mul_of_pos_right
        (show 2 * n + 1 < 4 * 2 ^ e by rw [Nat.pow_succ] at hu; omega) (Nat.two_pow_pos j)
      rw [Nat.mul_assoc 4, hpow] at this
      exact this
    have hunit : (((2 * n + 1) * 2 ^ j : ℕ) : ℚ) * 2 ^ ((e : ℤ) - 23) = n + 1 / 2 := by
      have hpow' : (2 : ℚ) ^ e * 2 ^ j = 2 ^ 22 := by exact_mod_cast hpow
      rw [zpow_sub₀ two_ne_zero, zpow_natCast]
      push_cast
      calc (2 * (n : ℚ) + 1) * 2 ^ j * (2 ^ e / 2 ^ (23 : ℤ)) =
          (2 * n + 1) * (2 ^ e * 2 ^ j) / 2 ^ (23 : ℤ) := by ring
        _ = n + 1 / 2 := by rw [hpow']; norm_num; ring
    have hz : (0 : ℚ) < 2 ^ ((e : ℤ) - 23) := by positivity
    have hcast : (((2 * n + 1) * 2 ^ j - 1 : ℕ) : ℚ) = ((2 * n + 1) * 2 ^ j : ℕ) - 1 := by
      rw [Nat.cast_sub (by omega), Nat.cast_one]
    rw [hcast]
    refine ⟨by omega, by omega, ?_, ?_⟩
    · linarith
    · rw [sub_add_cancel, hunit]
  · obtain ⟨t, rfl⟩ := Nat.exists_eq_add_of_le (show 23 ≤ e by omega)
    have ht : (2 : ℚ) ^ (((23 + t : ℕ) : ℤ) - 23) = ((2 ^ t : ℕ) : ℚ) := by
      rw [show ((23 + t : ℕ) : ℤ) - 23 = (t : ℕ) by omega, zpow_natCast]
      norm_num
    rw [ht, Nat.add_sub_cancel_left]
    have hpos : 0 < 2 ^ t := Nat.two_pow_pos t
    have hlow : n / 2 ^ t * 2 ^ t ≤ n := Nat.div_mul_le_self n (2 ^ t)
    have hhigh : n + 1 ≤ (n / 2 ^ t + 1) * 2 ^ t := by
      rw [Nat.mul_comm]
      exact Nat.lt_mul_div_succ n hpos
    refine ⟨?_, ?_, ?_, ?_⟩
    · rw [Nat.le_div_iff_mul_le hpos, ← Nat.pow_add]
      exact hl
    · rw [Nat.div_lt_iff_lt_mul hpos, ← Nat.pow_add]
      rwa [show 24 + t = 23 + t + 1 by omega]
    · have : ((n / 2 ^ t : ℕ) : ℚ) * (2 ^ t : ℕ) ≤ n := by exact_mod_cast hlow
      linarith
    · have : (n : ℚ) + 1 ≤ ((n / 2 ^ t : ℕ) + 1) * (2 ^ t : ℕ) := by exact_mod_cast hhigh
      linarith

theorem reachesMiddle_iff {a b n : ℕ} (ha : 0 < a) (hb : 0 < b) (hn : 0 < n) :
    ReachesMiddle a b n ↔ (n : ℚ) + 1 / 2 ≤ Binary32.ofRat (a / b) := by
  obtain ⟨hl, hu, hbelow, habove⟩ := belowMiddle_bounds hn
  have hb' : (0 : ℚ) < b := by exact_mod_cast hb
  have hpow : (2 : ℚ) ^ ((n.log2 : ℤ) - 23) = 2 ^ n.log2 / 2 ^ 23 := by
    rw [zpow_sub₀ two_ne_zero, zpow_natCast]
    norm_num
  have hside : ∀ {x y : ℚ}, x * 2 ^ 24 * b = y → (x < a / b ↔ y < a * 2 ^ 24) ∧
      (x = a / b ↔ y = a * 2 ^ 24) := by
    rintro x _ rfl
    rw [lt_div_iff₀ hb', eq_div_iff hb'.ne', mul_right_comm]
    constructor
    · exact (mul_lt_mul_iff_left₀ (by norm_num)).symm
    · exact (mul_left_inj' (by norm_num)).symm
  obtain ⟨hlt, heq⟩ := hside (x := (belowMiddle n + 1 / 2) * 2 ^ ((n.log2 : ℤ) - 23))
    (y := ((b * (2 * belowMiddle n + 1) * 2 ^ n.log2 : ℕ) : ℚ)) (by
      rw [hpow]
      push_cast
      ring)
  have hreach : ReachesMiddle a b n ↔
      ((belowMiddle n + 1 / 2) * 2 ^ ((n.log2 : ℤ) - 23) < (a / b : ℚ) ∨
        (belowMiddle n + 1 / 2) * 2 ^ ((n.log2 : ℤ) - 23) = (a / b : ℚ) ∧
          belowMiddle n % 2 = 1) := by
    rw [ReachesMiddle, hlt, heq]
    norm_cast
  rw [hreach]
  rcases Rounding.ofRat_cases 23 hl hu ((n.log2 : ℤ) - 23)
    (show (0 : ℚ) < a / b by positivity) with ⟨h, hle⟩ | ⟨h, hle⟩
  · exact iff_of_true h (habove.trans hle)
  · exact iff_of_false h (not_le.mpr (hle.trans_lt hbelow))

/-- No middle is crossed on the way from the quotient of the frequencies to that of their 24
digits and to the 24 digits of it. -/
theorem not_midpointBetween_iff (hf : 0 < f) (hfm : f ≤ m) :
    ¬ Rounding.MidpointBetween (m / f) (quotient m f) ↔ ∀ n : ℕ, 0 < n →
      (2 * m < (2 * n + 1) * f → ¬ ReachesMiddle (short m) (short f) n) ∧
      ((2 * n + 1) * f < 2 * m → ReachesMiddle (short m) (short f) n) := by
  have hf' : (0 : ℚ) < f := by exact_mod_cast hf
  have hshort : ∀ {x : ℤ}, 0 < x → Binary32.ofRat x = short x ∧ 0 < short x := by
    intro x hx
    obtain ⟨a, rfl⟩ := Int.eq_ofNat_of_zero_le hx.le
    have heq : Binary32.ofRat ((a : ℤ) : ℚ) = short a := Rounding.ofRat_natCast_eq 23 a
    have hpos : 0 < Binary32.ofRat ((a : ℤ) : ℚ) := Binary32.ofRat_pos (by exact_mod_cast hx)
    rw [heq] at hpos
    exact ⟨heq, by exact_mod_cast hpos⟩
  obtain ⟨hm, hm₀⟩ := hshort (hf.trans_le hfm)
  obtain ⟨hs, hs₀⟩ := hshort hf
  have hreach : ∀ {n : ℕ}, 0 < n →
      (ReachesMiddle (short m) (short f) n ↔ (n : ℚ) + 1 / 2 ≤ quotient m f) := by
    intro n hn
    rw [quotient, hm, hs]
    exact reachesMiddle_iff hm₀ hs₀ hn
  have hless : ∀ n : ℕ, 2 * m < (2 * n + 1) * f ↔ (m / f : ℚ) < n + 1 / 2 := by
    intro n
    rw [div_lt_iff₀ hf']
    constructor
    · intro h
      have : (2 : ℚ) * m < (2 * n + 1) * f := by exact_mod_cast h
      linarith
    · intro h
      have : (2 : ℚ) * m < (2 * n + 1) * f := by linarith
      exact_mod_cast this
  have hgreater : ∀ n : ℕ, (2 * n + 1) * f < 2 * m ↔ (n + 1 / 2 : ℚ) < m / f := by
    intro n
    rw [lt_div_iff₀ hf']
    constructor
    · intro h
      have : (2 * n + 1 : ℚ) * f < 2 * m := by exact_mod_cast h
      linarith
    · intro h
      have : (2 * n + 1 : ℚ) * f < 2 * m := by linarith
      exact_mod_cast this
  constructor
  · intro h n hn
    rw [hless, hgreater, hreach hn]
    exact ⟨fun hx hy => h ⟨n, .inl ⟨by exact_mod_cast hx, by exact_mod_cast hy⟩⟩,
      fun hx => not_lt.mp fun hy => h ⟨n, .inr ⟨by exact_mod_cast hy, by exact_mod_cast hx⟩⟩⟩
  · rintro h ⟨n, hn⟩
    have hone := one_le_quotient hf hfm
    have hone' : (1 : ℚ) ≤ m / f := by
      rw [one_le_div hf']
      exact_mod_cast hfm
    rcases le_or_gt n 0 with hneg | hpos
    · have : (n : ℚ) ≤ 0 := by exact_mod_cast hneg
      rcases hn with ⟨hx, -⟩ | ⟨hy, -⟩ <;> linarith
    · obtain ⟨a, rfl⟩ := Int.eq_ofNat_of_zero_le hpos.le
      obtain ⟨hno, hyes⟩ := h a (by exact_mod_cast hpos)
      rw [hless, hreach (by exact_mod_cast hpos)] at hno
      rw [hgreater, hreach (by exact_mod_cast hpos)] at hyes
      rcases hn with ⟨hx, hy⟩ | ⟨hy, hx⟩
      · exact hno (by exact_mod_cast hx) (by exact_mod_cast hy)
      · exact absurd (hyes (by exact_mod_cast hx)) (not_le.mpr (by exact_mod_cast hy))

theorem givesStride_iff (hm : FitsInt m) (hf : 0 < f) (hfm : f ≤ m) :
    GivesStride m f ↔ ¬ Rounding.MidpointBetween (m / f) (quotient m f) := by
  have hfit : FitsInt f := ⟨by omega, by unfold FitsInt at hm; omega⟩
  have heff : effectiveFrequency m f = f := if_neg hf.ne'
  have hone := one_le_quotient hf hfm
  have hset := setFrequency_eq hfm (by omega)
  rw [heff] at hset
  rw [GivesStride, receivedFrequency_of_fits hfit, heff, hset,
    ← Binary32.nearest_roundAway_iff (by linarith)]
  constructor
  · rintro (h | ⟨interval, h, _, hnear⟩)
    · split_ifs at h
    · split_ifs at h
      obtain rfl := Outcome.done.inj h
      exact hnear
  · intro hnear
    have hpos : 1 ≤ Binary32.roundAway (quotient m f) := Binary32.one_le_roundAway hone
    have hle : Binary32.roundAway (quotient m f) ≤ m := by
      have hf' : (1 : ℚ) ≤ f := by exact_mod_cast hf
      have hm' : (0 : ℚ) ≤ m := by exact_mod_cast (show 0 ≤ m by omega)
      have hq : (m : ℚ) / f ≤ m := div_le_self hm' hf'
      have hdist := (abs_le.mp (Rounding.nearest_iff.mp hnear)).1
      have hlt : (Binary32.roundAway (quotient m f) : ℚ) < m + 1 := by linarith
      have : Binary32.roundAway (quotient m f) < m + 1 := by exact_mod_cast hlt
      omega
    have hfits : FitsInt (Binary32.roundAway (quotient m f)) := by
      unfold FitsInt at hm ⊢
      omega
    exact .inr ⟨_, if_pos hfits, hpos, hnear⟩

theorem setFrequency_zero (hm : 1 ≤ m) : setFrequency m 0 = .done 1 := by
  have heff : effectiveFrequency m 0 = m := if_pos rfl
  have hpos : 0 < Binary32.ofRat m := Binary32.ofRat_pos (by exact_mod_cast hm)
  have hq : quotient m m = 1 := by
    rw [quotient, div_self hpos.ne', Binary32.ofRat_one]
  have hround : Binary32.roundAway 1 = 1 := by decide +kernel
  rw [setFrequency_eq (by omega) (by omega), heff, hq, hround]
  exact if_pos (by decide)

theorem dividesSafely [Zero V] [Add V] (hm : 1 ≤ m) (hf : 0 ≤ f) : DividesSafely V m f := by
  rintro ρ es t ht rfl k c hk rfl
  obtain ⟨hw, -⟩ := ρ.follows ht
  have hreg := (hw.sessions k _ hk).live_registered (.retval .error) (.inl rfl)
  have hset : setFrequency t.dev.maxFrequency c.frequency = .done c.interval :=
    ρ.interval_eq ht hk hreg
  have hle : c.frequency ≤ t.dev.maxFrequency := by
    by_contra hgt
    rw [setFrequency_above hm (by omega)] at hset
    cases hset
  exact one_le_interval hset hf hle

/-- The stride of a CREATE is right, and all its divisions are, exactly for a usable
frequency. -/
theorem usableFrequency_iff [Zero V] [Add V] (hm : 1 ≤ m) (hfm : FitsInt m)
    (hff : FitsInt f) : GivesStride m f ∧ DividesSafely V m f ↔ UsableFrequency m f := by
  have hreceived := receivedFrequency_of_fits hff
  constructor
  · rintro ⟨hgives, -⟩
    have hf : 0 ≤ f := by
      by_contra hneg
      rw [GivesStride, hreceived] at hgives
      rcases hgives with h | ⟨interval, h, hone, -⟩
      · rw [setFrequency_eq (by omega) (by rw [effectiveFrequency, if_neg] <;> omega)] at h
        split_ifs at h
      · have := setFrequency_negative hm (by omega) h
        omega
    refine ⟨hf, fun _ hpos hle => (not_midpointBetween_iff hpos hle).mp ?_⟩
    exact (givesStride_iff hfm hpos hle).mp hgives
  · rintro ⟨hf, hmid⟩
    refine ⟨?_, dividesSafely hm hf⟩
    rcases hf.eq_or_lt with rfl | hpos
    · have heff : effectiveFrequency m 0 = m := if_pos rfl
      have hm' : (m : ℚ) ≠ 0 := by exact_mod_cast (show m ≠ 0 by omega)
      refine .inr ⟨1, ?_, le_rfl, ?_⟩
      · rw [hreceived, setFrequency_zero hm]
      · rw [heff, div_self hm']
        apply Rounding.nearest_iff.mpr
        norm_num
    · by_cases hle : f ≤ m
      · apply (givesStride_iff hfm hpos hle).mpr
        by_cases hbig : 2 ^ 23 ≤ m
        · exact (not_midpointBetween_iff hpos hle).mpr (hmid hbig hpos hle)
        · exact not_midpointBetween_quotient hpos hle (by omega)
      · exact .inl (by rw [hreceived, setFrequency_above hm (by omega)])

end division

theorem usableFrequency_third :
    GivesStride 1000 300 ∧ DividesSafely ℤ 1000 300 := by
  refine (usableFrequency_iff (by decide) (by decide) (by decide)).mpr ⟨by decide, ?_⟩
  intro h
  exact absurd h (by decide)

end Counter

def recordNegative : List (Event ℤ) :=
  [.connection 0 (some ⟨[], -3, false, [1#8]⟩), .send 0 true, .receive 0 (some 1), .send 0 true,
    .sample fun _ => 7, .receive 0 (some 3), .send 0 true]

/-- The request is accepted, its stride is zero, and the GET divides by it. -/
theorem usableFrequency_fails :
    ¬ (Counter.GivesStride 1 (-3) ∧ Counter.DividesSafely ℤ 1 (-3)) ∧ ∃ t c,
      Trace.exec Server.next (.configured [] 1 1) recordNegative = .done t ∧
        t.waiting 0 = some c ∧ c.interval = 0 ∧
        c.getData Counter.plain t.dev = .undefined := by
  have hset : Counter.setFrequency 1 (Counter.receivedFrequency (-3)) = .done 0 := by
    decide +kernel
  have hrun : (Trace.exec Server.next (.configured [] 1 1) recordNegative).check (fun s =>
      (s.waiting 0).any fun c => c.interval == 0 &&
        (c.getData Counter.plain s.dev == .undefined)) = true := by decide +kernel
  constructor
  · rintro ⟨h | ⟨interval, h, hone, -⟩, -⟩
    · rw [hset] at h
      cases h
    · rw [hset] at h
      obtain rfl := Outcome.done.inj h
      omega
  · obtain ⟨t, ht, hp⟩ := Outcome.check_eq_true.mp hrun
    obtain ⟨c, hc, hp⟩ := (Option.any_eq_true _ _).mp hp
    simp only [Bool.and_eq_true, beq_iff_eq] at hp
    exact ⟨t, c, ht, hc, hp.1, hp.2⟩

end PMLib
