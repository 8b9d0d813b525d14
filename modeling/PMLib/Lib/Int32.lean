import Mathlib.Data.Int.Basic
import Mathlib.Data.List.Forall2
import Mathlib.Algebra.Order.BigOperators.Group.List
import Mathlib.Algebra.Order.Ring.Nat

/-! # Conversions to a 32-bit signed integer -/
namespace Int32Conv

def wrap32 (x : ℤ) : ℤ := x.bmod (2 ^ 32)

def FitsInt (x : ℤ) : Prop := -2 ^ 31 ≤ x ∧ x < 2 ^ 31

instance (x : ℤ) : Decidable (FitsInt x) := inferInstanceAs (Decidable (_ ∧ _))

theorem wrap32_fits (x : ℤ) : FitsInt (wrap32 x) := by
  have hl := Int.le_bmod (x := x) (m := 2 ^ 32) (by decide)
  have hu := Int.bmod_lt (x := x) (m := 2 ^ 32) (by decide)
  unfold FitsInt wrap32
  omega

theorem wrap32_of_fits {x : ℤ} (h : FitsInt x) : wrap32 x = x := by
  unfold FitsInt at h
  exact Int.bmod_eq_of_le (by omega) (by omega)

theorem wrap32_eq_self_iff {x : ℤ} : wrap32 x = x ↔ FitsInt x :=
  ⟨fun h => h ▸ wrap32_fits x, wrap32_of_fits⟩

theorem wrap32_natCast {n : ℕ} (h : n < 2 ^ 31) : wrap32 n = n :=
  wrap32_of_fits ⟨by omega, by omega⟩

theorem wrap32_eq_sub_mul (x : ℤ) : ∃ k : ℤ, wrap32 x = x - k * 2 ^ 32 :=
  ⟨x.bdiv (2 ^ 32), by simp [wrap32, Int.bmod_eq_self_sub_bdiv_mul]⟩

/-- Running totals that are converted at every step are exact while the total fits. -/
theorem scanl_wrap32 (ns : List ℕ) (b : ℕ) (h : b + ns.sum < 2 ^ 31) :
    (ns.map fun n : ℕ => (n : ℤ)).scanl (fun back n => wrap32 (n + back)) (b : ℤ) =
      (ns.scanl (· + ·) b).map fun n : ℕ => (n : ℤ) := by
  induction ns generalizing b with
  | nil => rfl
  | cons n ns ih =>
    rw [List.sum_cons] at h
    have hstep : wrap32 ((n : ℤ) + b) = ((b + n : ℕ) : ℤ) := by
      rw [← wrap32_natCast (show b + n < 2 ^ 31 by omega)]
      congr 1
      omega
    simp only [List.map_cons, List.scanl_cons, hstep, ih (b + n) (by omega)]

/-! ## What running totals say about their steps -/

def diffs (totals : List ℤ) : List ℤ := List.zipWith (· - ·) totals.tail totals

theorem diffs_cons_scanl (a b : ℤ) (f : ℤ → ℤ → ℤ) (ns : List ℤ) :
    diffs (a :: ns.scanl f b) = (b - a) :: diffs (ns.scanl f b) := by
  cases ns with
  | nil => rfl
  | cons n ns => rw [List.scanl_cons]; rfl

def totals (b : ℤ) (fs : List ℕ) : List ℤ :=
  (fs.map fun n : ℕ => (n : ℤ)).scanl (fun back n => wrap32 (n + back)) b

theorem diffs_totals_cons (b : ℤ) (f : ℕ) (fs : List ℕ) :
    diffs (totals b (f :: fs)) =
      (wrap32 (f + b) - b) :: diffs (totals (wrap32 (f + b)) fs) := by
  rw [totals, List.map_cons, List.scanl_cons, diffs_cons_scanl, totals]

theorem sum_lt_of_diffs {fs cs : List ℕ} {b : ℤ} (hb : b < 2 ^ 31)
    (h : diffs (totals b fs) = cs.map fun n : ℕ => (n : ℤ)) : b + cs.sum < 2 ^ 31 := by
  induction fs generalizing b cs with
  | nil =>
    obtain rfl : cs = [] := by simpa [totals, diffs] using h
    simpa using hb
  | cons f fs ih =>
    cases cs with
    | nil => simp [diffs_totals_cons] at h
    | cons c cs =>
      rw [diffs_totals_cons, List.map_cons] at h
      obtain ⟨hc, hrest⟩ := List.cons.inj h
      have := ih (wrap32_fits (f + b)).2 hrest
      rw [List.sum_cons]
      omega

/-- Converted totals show steps that are close to the true ones only where they are exact. -/
theorem diffs_totals_iff {fs cs : List ℕ} {b : ℤ} (hb₀ : 0 ≤ b) (hb : b < 2 ^ 31)
    (h : List.Forall₂ (fun f c => f < c + 2 ^ 32 ∧ c < f + 2 ^ 32) fs cs) :
    (diffs (totals b fs) = cs.map fun n : ℕ => (n : ℤ)) ↔ fs = cs ∧ b + fs.sum < 2 ^ 31 := by
  induction h generalizing b with
  | nil => simpa [totals, diffs] using hb
  | @cons f c fs cs hfc _ ih =>
    rw [diffs_totals_cons, List.map_cons, List.cons.injEq, List.cons.injEq, List.sum_cons]
    obtain ⟨k, hk⟩ := wrap32_eq_sub_mul (f + b)
    have hfit := wrap32_fits (f + b)
    unfold FitsInt at hfit
    constructor
    · rintro ⟨hc, hrest⟩
      obtain rfl : f = c := by omega
      obtain ⟨rfl, hsum⟩ := (ih (by omega) hfit.2).mp hrest
      exact ⟨⟨rfl, rfl⟩, by omega⟩
    · rintro ⟨⟨rfl, rfl⟩, hsum⟩
      have hexact : wrap32 (f + b) = f + b := wrap32_of_fits ⟨by omega, by omega⟩
      rw [hexact]
      refine ⟨by omega, (ih (by omega) (by omega)).mpr ⟨rfl, by omega⟩⟩

theorem length_diffs_totals (b : ℤ) (fs : List ℕ) : (diffs (totals b fs)).length = fs.length := by
  induction fs generalizing b with
  | nil => rfl
  | cons f fs ih => rw [diffs_totals_cons, List.length_cons, ih, List.length_cons]

theorem diffs_totals_eq_iff {fs cs : List ℕ} (h : ∀ f ∈ fs, f < 2 ^ 31) :
    (diffs (totals 0 fs) = cs.map fun n : ℕ => (n : ℤ)) ↔ fs = cs ∧ fs.sum < 2 ^ 31 := by
  have hiff : ∀ cs : List ℕ, cs.length = fs.length → (∀ c ∈ cs, c < 2 ^ 31) →
      ((diffs (totals 0 fs) = cs.map fun n : ℕ => (n : ℤ)) ↔ fs = cs ∧ fs.sum < 2 ^ 31) := by
    intro cs hlen hcs
    rw [diffs_totals_iff (by omega) (by omega)]
    · refine and_congr_right fun _ => ?_
      omega
    · refine List.forall₂_iff_zip.mpr ⟨hlen.symm, fun hmem => ?_⟩
      have hf := h _ (List.of_mem_zip hmem).1
      have hc := hcs _ (List.of_mem_zip hmem).2
      omega
  constructor
  · intro heq
    have hlen := congrArg List.length heq
    rw [length_diffs_totals, List.length_map] at hlen
    have hsum := sum_lt_of_diffs (by omega) heq
    refine (hiff cs hlen.symm fun c hc => ?_).mp heq
    have := List.le_sum_of_mem hc
    omega
  · rintro ⟨rfl, hsum⟩
    exact (hiff fs rfl h).mpr ⟨rfl, hsum⟩

theorem getLast?_totals {fs : List ℕ} (h : fs.sum < 2 ^ 31) :
    (totals 0 fs).getLast? = some (fs.sum : ℤ) := by
  have hexact := scanl_wrap32 fs 0 (by omega)
  rw [Int.natCast_zero] at hexact
  rw [totals, hexact, List.getLast?_map, List.getLast?_scanl, ← List.sum_eq_foldl]
  rfl

end Int32Conv
