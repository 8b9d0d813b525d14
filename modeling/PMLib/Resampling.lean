import PMLib.Objects
import PMLib.Lib.Strides

/-! # Sets whose lines have different lengths

A set may have more samples on one line than on another. The shortest line says how many
values of each line go into a reply. -/
namespace PMLib

/-- What a set has on each line: how many samples, and the value at each distance from the
start. -/
structure Window (V : Type) where
  length : ℕ → ℕ
  value : ℕ → ℕ → V

def Window.empty {V : Type} [Zero V] : Window V := ⟨fun _ => 0, fun _ _ => 0⟩

def Window.ofSet {V : Type} [Zero V] (buffer : ℕ → List V) (p : SetT × SetT) : Window V where
  length l := (p.2.getD l 0 - p.1.getD l 0).toNat
  value l x := (buffer l).getD ((p.1.getD l 0).toNat + x) 0

/-- The least of the values that the lines have. Without lines it is zero. -/
def least (q : ℕ → ℕ) (lines : List ℕ) : ℕ := (lines.map q).min?.getD 0

theorem least_nil (q : ℕ → ℕ) : least q [] = 0 := rfl

theorem least_cons (q : ℕ → ℕ) (l : ℕ) (lines : List ℕ) :
    least q (l :: lines) = lines.foldl (fun m l => min (q l) m) (q l) := by
  rw [least, List.map_cons, List.min?_cons', Option.getD_some, List.foldl_map]
  simp only [Nat.min_comm]

theorem least_le (q : ℕ → ℕ) {l : ℕ} {lines : List ℕ} (hl : l ∈ lines) : least q lines ≤ q l := by
  obtain ⟨m, hm⟩ : ∃ m, (lines.map q).min? = some m := by
    rw [← Option.isSome_iff_exists, List.isSome_min?_iff]
    exact List.ne_nil_of_mem (List.mem_map_of_mem hl)
  rw [least, hm, Option.getD_some]
  exact (List.min?_eq_some_iff.mp hm).2 _ (List.mem_map_of_mem hl)

theorem exists_least (q : ℕ → ℕ) {lines : List ℕ} (h : lines ≠ []) :
    ∃ l ∈ lines, least q lines = q l := by
  obtain ⟨m, hm⟩ : ∃ m, (lines.map q).min? = some m := by
    rw [← Option.isSome_iff_exists, List.isSome_min?_iff]
    simpa using h
  obtain ⟨l, hl, rfl⟩ := List.mem_map.mp (List.min?_eq_some_iff.mp hm).1
  exact ⟨l, hl, by rw [least, hm, Option.getD_some]⟩

theorem least_congr {q q' : ℕ → ℕ} {lines : List ℕ} (h : ∀ l ∈ lines, q l = q' l) :
    least q lines = least q' lines := by
  rw [least, least, List.map_congr_left h]

theorem least_comp {f : ℕ → ℕ} (hf : Monotone f) (h₀ : f 0 = 0) (q : ℕ → ℕ) (lines : List ℕ) :
    least (fun l => f (q l)) lines = f (least q lines) := by
  by_cases h : lines = []
  · rw [h, least_nil, least_nil, h₀]
  · obtain ⟨l, hl, hmin⟩ := exists_least (fun l => f (q l)) h
    obtain ⟨l', hl', hmin'⟩ := exists_least q h
    apply le_antisymm
    · rw [hmin']
      exact least_le (fun l => f (q l)) hl'
    · rw [hmin]
      exact hf (least_le q hl)

theorem foldlM_least {α : Type} {f : ℤ → α → Outcome ℤ} {q : ℕ → ℕ} {g : α → ℕ} {a : α}
    {rest : List α} (m₀ : ℤ) (hfirst : f m₀ a = .done (q (g a)))
    (hrest : ∀ (m : ℤ), ∀ b ∈ rest, f m b = .done (min (q (g b) : ℤ) m)) :
    (a :: rest).foldlM f m₀ = .done (least q ((a :: rest).map g) : ℤ) := by
  rw [List.foldlM_cons, hfirst, Outcome.done_bind, List.map_cons, least_cons]
  generalize q (g a) = m
  clear hfirst
  induction rest generalizing m with
  | nil => rfl
  | cons b rest ih =>
    rw [List.foldlM_cons, hrest _ b (by simp), Outcome.done_bind, ← Nat.cast_min,
      ih fun m x hx => hrest m x (by simp [hx])]
    rfl

theorem modify_map_range {V : Type} [Add V] (g : ℕ → V) (m j : ℕ) (v : V) :
    ((List.range m).map g).modify j (· + v) =
      (List.range m).map fun x => if x = j then g x + v else g x := by
  refine List.ext_getElem (by simp) fun x h₁ h₂ => ?_
  by_cases hx : x = j
  · subst hx; simp
  · simp [hx, Ne.symm hx]

namespace Window

variable {V : Type} (w : Window V) (k : ℕ)

def count (lines : List ℕ) : ℕ := least (fun l => w.length l ⌈/⌉ k) lines

def block (n l : ℕ) : List V := (List.range n).map fun j => w.value l (j * k)

def sums [Zero V] [Add V] (n : ℕ) (lines : List ℕ) : List V :=
  (List.range n).map fun j => lines.foldl (fun sum l => sum + w.value l (j * k)) 0

@[simp] theorem length_block (n l : ℕ) : (w.block k n l).length = n := by simp [block]

@[simp] theorem length_sums [Zero V] [Add V] (n : ℕ) (lines : List ℕ) :
    (w.sums k n lines).length = n := by simp [sums]

theorem count_le {l : ℕ} {lines : List ℕ} (hl : l ∈ lines) :
    w.count k lines ≤ w.length l ⌈/⌉ k := least_le _ hl

end Window

end PMLib
