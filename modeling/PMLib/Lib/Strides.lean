import Mathlib.Algebra.Order.Floor.Div
import Mathlib.Data.List.Basic
import Mathlib.Data.List.Sort
import Mathlib.Data.Rat.Floor
import Mathlib.Tactic.FieldSimp

/-! # Indices at a stride

The indices `b`, `b + k`, `b + 2 * k` and so on below `e`. There are as many of them as
`(e - b) / k` rounded up. -/
namespace Strides

variable {k m n : ℕ}

theorem lt_ceilDiv_iff (hk : 0 < k) {j : ℕ} : j < n ⌈/⌉ k ↔ j * k < n := by
  rw [← not_le, ceilDiv_le_iff_le_mul hk, not_le, Nat.mul_comm]

theorem ceilDiv_le_self (hk : 0 < k) : n ⌈/⌉ k ≤ n :=
  (ceilDiv_le_iff_le_mul hk).mpr (Nat.le_mul_of_pos_left n hk)

theorem ceilDiv_mono (k : ℕ) (h : m ≤ n) : m ⌈/⌉ k ≤ n ⌈/⌉ k := by
  rw [Nat.ceilDiv_eq_add_pred_div, Nat.ceilDiv_eq_add_pred_div]
  exact Nat.div_le_div_right (by omega)

theorem ceilDiv_eq (hk : 0 < k) : n ⌈/⌉ k = if k ∣ n then n / k else n / k + 1 := by
  split_ifs with h
  · obtain ⟨c, rfl⟩ := h
    rw [Nat.mul_div_cancel_left c hk, ← smul_eq_mul, smul_ceilDiv hk]
  · have hlt : n / k * k < n :=
      Nat.lt_of_le_of_ne (Nat.div_mul_le_self n k) fun heq => h ⟨n / k, by rw [Nat.mul_comm, heq]⟩
    apply le_antisymm
    · rw [ceilDiv_le_iff_le_mul hk]
      exact (Nat.lt_mul_div_succ n hk).le
    · exact (lt_ceilDiv_iff hk).mpr hlt

theorem ceilDiv_eq_self_iff (hk : 0 < k) : n ⌈/⌉ k = n ↔ k = 1 ∨ n ≤ 1 := by
  constructor
  · intro h
    by_contra hno
    push Not at hno
    obtain ⟨hk₁, hn⟩ := hno
    have hlt := (lt_ceilDiv_iff hk (n := n) (j := n - 1)).mp (by omega)
    have : (n - 1) * 2 ≤ (n - 1) * k := Nat.mul_le_mul_left _ (by omega)
    omega
  · rintro (rfl | hn)
    · exact ceilDiv_one n
    · rw [ceilDiv_eq hk]
      rcases Nat.le_one_iff_eq_zero_or_eq_one.mp hn with rfl | rfl
      · simp
      · split_ifs with h
        · rw [Nat.dvd_one.mp h]
        · have hk₁ : k ≠ 1 := fun h₁ => h (Nat.dvd_one.mpr h₁)
          rw [Nat.div_eq_of_lt (by omega)]

theorem ceil_natCast_div (hk : 0 < k) (n : ℕ) : ⌈(n : ℚ) / k⌉ = ((n ⌈/⌉ k : ℕ) : ℤ) := by
  have hk' : (0 : ℚ) < k := by exact_mod_cast hk
  rw [Int.ceil_eq_iff, lt_div_iff₀ hk', div_le_iff₀' hk']
  constructor
  · rcases Nat.eq_zero_or_pos (n ⌈/⌉ k) with hzero | hpos
    · rw [hzero]
      have hn : (0 : ℚ) ≤ n := Nat.cast_nonneg n
      push_cast
      linarith
    · have hlt := (lt_ceilDiv_iff hk).mp (Nat.sub_lt hpos one_pos)
      have hcast : (((n ⌈/⌉ k - 1 : ℕ) : ℤ) : ℚ) = ((n ⌈/⌉ k : ℕ) : ℤ) - 1 := by
        push_cast [hpos]
        ring
      rw [← hcast]
      exact_mod_cast hlt
  · exact_mod_cast (ceilDiv_le_iff_le_mul hk).mp (le_refl (n ⌈/⌉ k))

def indices (k b e : ℕ) : List ℕ := (List.range e).filter fun x => b ≤ x ∧ (x - b) % k = 0

theorem indices_eq (hk : 0 < k) (b e : ℕ) :
    indices k b e = (List.range ((e - b) ⌈/⌉ k)).map fun j => b + j * k := by
  have hleft : (indices k b e).Pairwise (· < ·) := List.pairwise_lt_range.filter _
  have hright : ((List.range ((e - b) ⌈/⌉ k)).map fun j => b + j * k).Pairwise (· < ·) :=
    List.pairwise_map.mpr <| List.pairwise_lt_range.imp fun h =>
      Nat.add_lt_add_left (Nat.mul_lt_mul_of_pos_right h hk) b
  refine hleft.eq_of_mem_iff hright fun x => ?_
  simp only [indices, List.mem_filter, List.mem_range, decide_eq_true_eq, List.mem_map,
    lt_ceilDiv_iff hk]
  constructor
  · rintro ⟨hlt, hb, hmod⟩
    have hx : (x - b) / k * k = x - b := Nat.div_mul_cancel (Nat.dvd_of_mod_eq_zero hmod)
    exact ⟨(x - b) / k, by omega, by omega⟩
  · rintro ⟨j, hlt, rfl⟩
    refine ⟨by omega, by omega, ?_⟩
    rw [Nat.add_sub_cancel_left, Nat.mul_mod_left]

theorem length_indices (hk : 0 < k) (b e : ℕ) : (indices k b e).length = (e - b) ⌈/⌉ k := by
  rw [indices_eq hk, List.length_map, List.length_range]

theorem filter_range (hk : 0 < k) (n : ℕ) :
    ((List.range n).filter fun x => x % k = 0) = (List.range (n ⌈/⌉ k)).map (· * k) := by
  have := indices_eq hk 0 n
  simpa [indices] using this

end Strides
