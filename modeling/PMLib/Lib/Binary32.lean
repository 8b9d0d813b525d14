import PMLib.Lib.Rounding

/-! # Single precision arithmetic on rationals

Rounding of a rational to the nearest binary32 number, ties to even, for magnitudes in
the normal range. -/
namespace Binary32

open Rounding (roundHalfEven binade)

def ulp (q : ℚ) : ℚ := 2 ^ (binade q - 23)

def ofRat (q : ℚ) : ℚ := if q = 0 then 0 else roundHalfEven (q / ulp q) * ulp q

/-- Rounding to an integer with halves away from zero, as `round` does. -/
def roundAway (q : ℚ) : ℤ := if 0 ≤ q then ⌊q + 1 / 2⌋ else -⌊-q + 1 / 2⌋

theorem ofRat_pos {q : ℚ} (hq : 0 < q) : 0 < ofRat q := Rounding.ofRat_pos 23 hq

theorem ofRat_mono {x y : ℚ} (hx : 0 < x) (h : x ≤ y) : ofRat x ≤ ofRat y :=
  Rounding.ofRat_mono 23 hx h

theorem ofRat_one : ofRat 1 = 1 := by decide +kernel

theorem one_le_ofRat {q : ℚ} (h : 1 ≤ q) : 1 ≤ ofRat q :=
  ofRat_one ▸ ofRat_mono one_pos h

theorem one_le_roundAway {q : ℚ} (h : 1 ≤ q) : 1 ≤ roundAway q := by
  rw [roundAway, if_pos (by linarith), Int.le_floor]
  push_cast
  linarith

theorem roundAway_nonpos {q : ℚ} (h : q ≤ 0) : roundAway q ≤ 0 := by
  unfold roundAway
  split_ifs with hz
  · obtain rfl : q = 0 := le_antisymm h hz
    norm_num
  · have : 0 ≤ ⌊-q + 1 / 2⌋ := Int.floor_nonneg.mpr (by linarith)
    omega

theorem nearest_roundAway_iff {x y : ℚ} (hy : 0 ≤ y) :
    Rounding.Nearest x (roundAway y) ↔ ¬ Rounding.MidpointBetween x y := by
  rw [roundAway, if_pos hy]
  exact Rounding.nearest_floor_iff

theorem one_le_ofRat_div {x y : ℚ} (hx : 0 < x) (h : x ≤ y) :
    1 ≤ ofRat (ofRat y / ofRat x) :=
  one_le_ofRat ((one_le_div (ofRat_pos hx)).mpr (ofRat_mono hx h))

end Binary32
