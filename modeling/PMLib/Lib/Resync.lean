import Mathlib.Data.List.Basic
import Mathlib.Order.Basic
import Mathlib.Order.Nat

/-! # Getting into step with marked frames

A stream consists of frames of one size, each marked on its first element only. A reader that
does not know where they begin looks for the first mark among the next `size` elements and
takes the `size` elements from there, or skips those that it looked at. What it took is used
if it has no other mark. -/
namespace Resync

universe u

variable {α : Type u} (mark : α → Bool) (size : ℕ) (σ : ℕ → α)

def Frame (q : ℕ) : Prop := ∀ r < size, mark (σ (q + r)) = true ↔ r = 0

instance (q : ℕ) : Decidable (Frame mark size σ q) :=
  Nat.decidableBallLT size fun r _ => mark (σ (q + r)) = true ↔ r = 0

def find (p : ℕ) : Option ℕ := ((List.range size).find? fun k => mark (σ (p + k))).map (p + ·)

/-- Where a pass from `p` ends, and where the frame begins that it used. -/
def step (p : ℕ) : ℕ × Option ℕ :=
  match find mark size σ p with
  | none => (p + size, none)
  | some q => (q + size, if Frame mark size σ q then some q else none)

def run (p : ℕ) : ℕ → ℕ × List ℕ
  | 0 => (p, [])
  | k + 1 =>
    let r := run p k
    let s := step mark size σ r.1
    (s.1, r.2 ++ s.2.toList)

def Framed (g : ℕ) : Prop := ∀ q, mark (σ (g + q)) = true ↔ size ∣ q

/-- Frame `i` holds the next mark, and a pass from `p` sees it. -/
structure Ready (g i p : ℕ) : Prop where
  before : p ≤ g + i * size
  seen : g + i * size < p + size
  unmarked : ∀ x, p ≤ x → x < g + i * size → mark (σ x) = false

variable {mark size σ} {g i p q : ℕ}

theorem find_eq_some_iff :
    find mark size σ p = some q ↔
      p ≤ q ∧ q < p + size ∧ mark (σ q) = true ∧ ∀ x, p ≤ x → x < q → mark (σ x) = false := by
  simp only [find, Option.map_eq_some_iff, List.find?_range_eq_some, List.mem_range,
    Bool.not_eq_true']
  constructor
  · rintro ⟨k, ⟨hmark, hk, hbefore⟩, rfl⟩
    refine ⟨by omega, by omega, hmark, fun x hpx hx => ?_⟩
    obtain ⟨d, rfl⟩ := Nat.exists_eq_add_of_le hpx
    exact hbefore d (by omega)
  · rintro ⟨hpq, hq, hmark, hbefore⟩
    obtain ⟨k, rfl⟩ := Nat.exists_eq_add_of_le hpq
    exact ⟨k, ⟨hmark, by omega, fun j hj => hbefore _ (by omega) (by omega)⟩, rfl⟩

theorem find_eq_none_iff :
    find mark size σ p = none ↔ ∀ x, p ≤ x → x < p + size → mark (σ x) = false := by
  simp only [find, Option.map_eq_none_iff, List.find?_range_eq_none, Bool.not_eq_true']
  constructor
  · intro h x hpx hx
    obtain ⟨k, rfl⟩ := Nat.exists_eq_add_of_le hpx
    exact h k (by omega)
  · intro h k hk
    exact h _ (by omega) (by omega)

/-! ## What is used -/

theorem step_some (h : (step mark size σ p).2 = some q) :
    p ≤ q ∧ Frame mark size σ q ∧ (step mark size σ p).1 = q + size := by
  unfold step at h ⊢
  cases hfind : find mark size σ p with
  | none => simp [hfind] at h
  | some q' =>
    simp only [hfind] at h ⊢
    split_ifs at h with hframe
    obtain rfl := Option.some.inj h
    exact ⟨(find_eq_some_iff.mp hfind).1, hframe, rfl⟩

theorem le_step (mark : α → Bool) (size : ℕ) (σ : ℕ → α) (p : ℕ) :
    p + size ≤ (step mark size σ p).1 := by
  unfold step
  cases hfind : find mark size σ p with
  | none => exact le_rfl
  | some q => exact Nat.add_le_add_right (find_eq_some_iff.mp hfind).1 size

theorem frame_of_mem_run {k : ℕ} (h : q ∈ (run mark size σ p k).2) :
    Frame mark size σ q ∧ q + size ≤ (run mark size σ p k).1 := by
  induction k with
  | zero => cases h
  | succ k ih =>
    simp only [run] at h ⊢
    rcases List.mem_append.mp h with h | h
    · obtain ⟨hframe, hle⟩ := ih h
      have := le_step mark size σ (run mark size σ p k).1
      exact ⟨hframe, by omega⟩
    · obtain ⟨-, hframe, hpos⟩ := step_some (Option.mem_toList.mp h)
      exact ⟨hframe, hpos.ge⟩

theorem run_add (a b : ℕ) :
    run mark size σ p (a + b) =
      ((run mark size σ (run mark size σ p a).1 b).1,
        (run mark size σ p a).2 ++ (run mark size σ (run mark size σ p a).1 b).2) := by
  induction b with
  | zero => simp [run]
  | succ b ih => simp [run, ih]

/-! ## In step -/

section Framed

variable (hg : Framed mark size σ g)
include hg

theorem Framed.frame (i : ℕ) : Frame mark size σ (g + i * size) := by
  intro r hr
  rw [Nat.add_assoc, hg, Nat.dvd_add_right (Nat.dvd_mul_left size i)]
  constructor
  · intro h
    exact Nat.eq_zero_of_dvd_of_lt h hr
  · rintro rfl
    exact Nat.dvd_zero size

theorem Framed.ready (hlt : g + i * size < p + size) (hle : p ≤ g + i * size) (hgp : g < p) :
    Ready mark size σ g i p := by
  refine ⟨hle, hlt, fun x hpx hx => ?_⟩
  obtain ⟨d, rfl⟩ := Nat.exists_eq_add_of_le (show g ≤ x by omega)
  rw [← Bool.not_eq_true, hg]
  rintro ⟨c, rfl⟩
  -- a multiple of the size strictly between two neighbouring ones
  have hlow : i * size < (c + 1) * size := by rw [Nat.add_mul, Nat.mul_comm c]; omega
  have hhigh : c * size < i * size := by rw [Nat.mul_comm c]; omega
  have := Nat.lt_of_mul_lt_mul_right hlow
  have := Nat.lt_of_mul_lt_mul_right hhigh
  omega

theorem Framed.step_ready (h : Ready mark size σ g i p) :
    step mark size σ p = (g + (i + 1) * size, some (g + i * size)) := by
  have hmark : mark (σ (g + i * size)) = true := (hg _).mpr (Nat.dvd_mul_left size i)
  have hfind : find mark size σ p = some (g + i * size) :=
    find_eq_some_iff.mpr ⟨h.before, h.seen, hmark, h.unmarked⟩
  simp only [step, hfind, hg.frame i, if_true, Nat.succ_mul, Nat.add_assoc]

/-- Every frame from the one that is ready is used once, in order, and nothing else is. -/
theorem Framed.run_ready (h : Ready mark size σ g i p) (m : ℕ) :
    Ready mark size σ g (i + m) (run mark size σ p m).1 ∧
      (run mark size σ p m).2 = (List.range m).map fun r => g + (i + r) * size := by
  induction m with
  | zero => exact ⟨h, rfl⟩
  | succ m ih =>
    obtain ⟨hready, hused⟩ := ih
    have hstep : step mark size σ (run mark size σ p m).1 =
        (g + (i + (m + 1)) * size, some (g + (i + m) * size)) := hg.step_ready hready
    have hpos : 0 < size := by have := hready.before; have := hready.seen; omega
    simp only [run, hstep, hused, List.range_succ, List.map_append, List.map_singleton,
      Option.toList_some, and_true]
    exact ⟨le_rfl, by omega, fun x hx hlt => absurd hlt (Nat.not_lt.mpr hx)⟩

theorem Framed.mark_start : mark (σ g) = true := (hg 0).mpr (Nat.dvd_zero size)

/-- No pass from in front of the frames looks beyond the mark of the first one. -/
theorem Framed.find_le (hp : p ≤ g) (h : find mark size σ p = some q) : q ≤ g := by
  by_contra hlt
  have := (find_eq_some_iff.mp h).2.2.2 g hp (by omega)
  rw [hg.mark_start] at this
  cases this

theorem Framed.le_of_find_none (hp : p ≤ g) (h : find mark size σ p = none) : p + size ≤ g := by
  by_contra hlt
  have := find_eq_none_iff.mp h g hp (by omega)
  rw [hg.mark_start] at this
  cases this

theorem Framed.not_frame (hq : q < g) (hin : g < q + size) : ¬ Frame mark size σ q := by
  intro hframe
  have hmark : mark (σ (q + (g - q))) = true := by
    rw [Nat.add_sub_cancel' hq.le]
    exact hg.mark_start
  have := (hframe (g - q) (by omega)).mp hmark
  omega

/-- A reader in front of the frames is ready for the first or the second of them after a
while. What it has used by then lies in front of them. -/
theorem Framed.exists_ready (hsize : 0 < size) (hp : p ≤ g) :
    ∃ k, ∃ i < 2, Ready mark size σ g i (run mark size σ p k).1 ∧
      ∀ q ∈ (run mark size σ p k).2, q + size ≤ g := by
  -- by the number of elements in front of the frames; a pass skips at least one
  induction hd : g - p using Nat.strongRecOn generalizing p with
  | _ d ih =>
  have hagain : ∀ p', (step mark size σ p).1 = p' → p < p' → p' ≤ g →
      (∀ q ∈ (step mark size σ p).2, q + size ≤ g) →
      ∃ k, ∃ i < 2, Ready mark size σ g i (run mark size σ p k).1 ∧
        ∀ q ∈ (run mark size σ p k).2, q + size ≤ g := by
    rintro p' rfl hlt hle hused
    obtain ⟨k, i, hi, hready, hrest⟩ := ih _ (by omega) hle rfl
    refine ⟨1 + k, i, hi, ?_⟩
    simp only [run_add, run, List.nil_append, List.mem_append, Option.mem_toList]
    exact ⟨hready, fun q hq => hq.elim (hused q) (hrest q)⟩
  cases hfind : find mark size σ p with
  | none =>
    exact hagain (p + size) (by simp [step, hfind]) (by omega) (hg.le_of_find_none hp hfind)
      (by simp [step, hfind])
  | some q =>
    obtain ⟨hpq, hqp, -, hbefore⟩ := find_eq_some_iff.mp hfind
    have hqg := hg.find_le hp hfind
    have hstep : (step mark size σ p).1 = q + size := by simp [step, hfind]
    rcases Nat.lt_or_ge g (q + size) with hin | hout
    · rcases Nat.lt_or_ge q g with hlt | hge
      · -- the mark of the first frame is inside of what was taken
        have hno := hg.not_frame hlt hin
        refine ⟨1, 1, by omega, ?_, by simp [run, step, hfind, hno]⟩
        simp only [run, hstep]
        exact hg.ready (by omega) (by omega) hin
      · obtain rfl : q = g := by omega
        exact ⟨0, 0, by omega, ⟨by simpa [run] using hpq, by simpa [run] using hqp,
          by simpa [run] using hbefore⟩, by simp [run]⟩
    · refine hagain (q + size) hstep (by omega) hout fun q' hq' => ?_
      have := step_some (Option.mem_def.mp hq')
      omega

end Framed

end Resync
