import Mathlib.Data.List.Infix
import Mathlib.Data.List.Sort
import Mathlib.Logic.Function.Basic

/-! # Recordings of one numbered sequence

Several tapes record items of the same sequence by their numbers. Each may begin and end at
its own time, and may miss items. -/
namespace Tapes

universe u

def Agree (x y : List ℕ) : Prop := x <+: y ∨ y <+: x

variable {x y : List ℕ}

theorem Agree.symm (h : Agree x y) : Agree y x := Or.symm h

theorem agree_nil : Agree [] x := .inl List.nil_prefix

theorem Agree.getElem?_eq (h : Agree x y) {k : ℕ} (hx : k < x.length) (hy : k < y.length) :
    x[k]? = y[k]? := by
  rcases h with h | h
  · rw [List.getElem?_eq_getElem hx, h.getElem hx, List.getElem?_eq_getElem hy]
  · rw [List.getElem?_eq_getElem hy, h.getElem hy, List.getElem?_eq_getElem hx]

/-- A recording may go on with item `t` when it has all the earlier items of the other one. -/
theorem Agree.snoc {t : ℕ} (h : Agree x y) (hy : y.Pairwise (· < ·)) (hle : ∀ u ∈ y, u ≤ t)
    (hmissed : ∀ u ∈ y, u < t → u ∈ x) : Agree (x ++ [t]) y := by
  rcases h with ⟨z, rfl⟩ | h
  · cases z with
    | nil => exact .inr (by simp)
    | cons a z =>
      obtain ⟨-, haz, hxaz⟩ := List.pairwise_append.mp hy
      have hnew : ∀ u ∈ a :: z, u = t := by
        intro u hu
        have hmem : u ∈ x ++ a :: z := List.mem_append_right x hu
        by_contra hne
        have hx := hmissed u hmem (lt_of_le_of_ne (hle u hmem) hne)
        exact lt_irrefl u (hxaz u hx u hu)
      obtain rfl := hnew a (by simp)
      have hz : z = [] := by
        apply List.eq_nil_iff_forall_not_mem.mpr
        intro u hu
        have hlt := (List.pairwise_cons.mp haz).1 u hu
        have := hnew u (by simp [hu])
        omega
      subst hz
      exact .inl (List.prefix_refl _)
  · exact .inr (h.trans (List.prefix_append x [t]))

variable {ι : Type u}

/-- `tape i` is what tape `i` has recorded, if it has begun to. `coming i` is the number of
the item that it meets next. A tape that is `held` has missed nothing from `due` on. -/
structure Synchronous (due : ℕ) (coming : ι → ℕ) (held : ι → Prop)
    (tape : ι → Option (List ℕ)) : Prop where
  due_le : ∀ {i x}, tape i = some x → due ≤ coming i
  sorted : ∀ {i x}, tape i = some x → x.Pairwise (· < ·)
  bounds : ∀ {i x}, tape i = some x → ∀ u ∈ x, due ≤ u ∧ u < coming i
  full : ∀ {i x}, tape i = some x → held i → x = List.range' due (coming i - due)
  agree : ∀ {i j x y}, tape i = some x → tape j = some y → Agree x y

variable {due : ℕ} {coming : ι → ℕ} {held : ι → Prop} {tape : ι → Option (List ℕ)}

theorem Synchronous.of_blank (h : ∀ i, tape i = none) : Synchronous due coming held tape := by
  constructor <;> simp [h]

theorem Synchronous.weaken (h : Synchronous due coming held tape) {held' : ι → Prop}
    (hh : ∀ i, held' i → held i) : Synchronous due coming held' tape where
  due_le := h.due_le
  sorted := h.sorted
  bounds := h.bounds
  full hi hheld := h.full hi (hh _ hheld)
  agree := h.agree

/-- Only the tapes that have begun have to meet the same items next. -/
theorem Synchronous.congr (h : Synchronous due coming held tape) {coming' : ι → ℕ}
    (hc : ∀ i x, tape i = some x → coming' i = coming i) :
    Synchronous due coming' held tape where
  due_le hi := (hc _ _ hi).symm ▸ h.due_le hi
  sorted := h.sorted
  bounds hi := (hc _ _ hi).symm ▸ h.bounds hi
  full hi hheld := (hc _ _ hi).symm ▸ h.full hi hheld
  agree := h.agree

variable [DecidableEq ι] {i : ι} {t : ℕ}

private theorem update_eq_some {v : Option (List ℕ)} {j : ι}
    (h : Function.update tape i v j = some x) :
    (j = i ∧ v = some x) ∨ (j ≠ i ∧ tape j = some x) := by
  by_cases hji : j = i
  · subst hji
    exact .inl ⟨rfl, by rwa [Function.update_self] at h⟩
  · exact .inr ⟨hji, by rwa [Function.update_of_ne hji] at h⟩

theorem Synchronous.begin (h : Synchronous due coming held tape) (hi : coming i = due) :
    Synchronous due coming held (Function.update tape i (some [])) where
  due_le hj := by
    rcases update_eq_some hj with ⟨rfl, -⟩ | ⟨-, hj⟩
    · exact hi.ge
    · exact h.due_le hj
  sorted hj := by
    rcases update_eq_some hj with ⟨-, hx⟩ | ⟨-, hj⟩
    · cases hx
      exact List.Pairwise.nil
    · exact h.sorted hj
  bounds hj := by
    rcases update_eq_some hj with ⟨-, hx⟩ | ⟨-, hj⟩
    · cases hx
      simp
    · exact h.bounds hj
  full hj hheld := by
    rcases update_eq_some hj with ⟨rfl, hx⟩ | ⟨-, hj⟩
    · cases hx
      simp [hi]
    · exact h.full hj hheld
  agree hj hl := by
    rcases update_eq_some hj with ⟨-, hx⟩ | ⟨-, hj⟩
    · cases hx
      exact agree_nil
    · rcases update_eq_some hl with ⟨-, hy⟩ | ⟨-, hl⟩
      · cases hy
        exact agree_nil.symm
      · exact h.agree hj hl

theorem Synchronous.miss (h : Synchronous due coming held tape) (hi : coming i = t)
    (hheld : ¬ held i) : Synchronous due (Function.update coming i (t + 1)) held tape where
  due_le {j x} hj := by
    have := h.due_le hj
    by_cases hji : j = i
    · subst hji
      rw [Function.update_self]
      omega
    · rwa [Function.update_of_ne hji]
  sorted := h.sorted
  bounds {j x} hj u hu := by
    have := h.bounds hj u hu
    by_cases hji : j = i
    · subst hji
      rw [Function.update_self]
      omega
    · rwa [Function.update_of_ne hji]
  full {j x} hj hj' := by
    have hji : j ≠ i := by rintro rfl; exact hheld hj'
    rw [Function.update_of_ne hji]
    exact h.full hj hj'
  agree := h.agree

omit [DecidableEq ι] in
theorem Synchronous.agree_snoc (h : Synchronous due coming held tape) (hi : coming i = t)
    (hnear : ∀ j, coming j ≤ t + 1)
    (hmissed : ¬ held i → ∀ x, tape i = some x →
      ∀ j y, tape j = some y → ∀ u ∈ y, u < t → u ∈ x) {j : ι}
    (hx : tape i = some x) (hy : tape j = some y) : Agree (x ++ [t]) y := by
  apply (h.agree hx hy).snoc (h.sorted hy)
  · intro u hu
    have := (h.bounds hy u hu).2
    have := hnear j
    omega
  · intro u hu hlt
    by_cases hheld : held i
    · rw [h.full hx hheld, hi, List.mem_range'_1]
      have := (h.bounds hy u hu).1
      omega
    · exact hmissed hheld x hx j y hy u hu hlt

/-- A tape records item `t`. If it is not held, it must not have missed an item that another
tape has recorded. -/
theorem Synchronous.record (h : Synchronous due coming held tape) (hi : coming i = t)
    (hnear : ∀ j, coming j ≤ t + 1)
    (hmissed : ¬ held i → ∀ x, tape i = some x →
      ∀ j y, tape j = some y → ∀ u ∈ y, u < t → u ∈ x) :
    Synchronous due (Function.update coming i (t + 1)) held
      (Function.update tape i ((tape i).map (· ++ [t]))) := by
  have hagree : ∀ {x j y}, tape i = some x → tape j = some y → Agree (x ++ [t]) y :=
    h.agree_snoc hi hnear hmissed
  constructor
  · intro j x hj
    rcases update_eq_some hj with ⟨rfl, hx⟩ | ⟨hji, hj⟩
    · obtain ⟨x₀, h₀, rfl⟩ := Option.map_eq_some_iff.mp hx
      have := h.due_le h₀
      rw [Function.update_self]
      omega
    · rw [Function.update_of_ne hji]
      exact h.due_le hj
  · intro j x hj
    rcases update_eq_some hj with ⟨rfl, hx⟩ | ⟨-, hj⟩
    · obtain ⟨x₀, h₀, rfl⟩ := Option.map_eq_some_iff.mp hx
      rw [List.pairwise_append]
      refine ⟨h.sorted h₀, List.pairwise_singleton _ _, fun u hu v hv => ?_⟩
      have := (h.bounds h₀ u hu).2
      obtain rfl := List.mem_singleton.mp hv
      omega
    · exact h.sorted hj
  · intro j x hj u hu
    rcases update_eq_some hj with ⟨rfl, hx⟩ | ⟨hji, hj⟩
    · obtain ⟨x₀, h₀, rfl⟩ := Option.map_eq_some_iff.mp hx
      rw [Function.update_self]
      rcases List.mem_append.mp hu with hu | hu
      · have := h.bounds h₀ u hu
        omega
      · obtain rfl := List.mem_singleton.mp hu
        have := h.due_le h₀
        omega
    · rw [Function.update_of_ne hji]
      exact h.bounds hj u hu
  · intro j x hj hheld
    rcases update_eq_some hj with ⟨rfl, hx⟩ | ⟨hji, hj⟩
    · obtain ⟨x₀, h₀, rfl⟩ := Option.map_eq_some_iff.mp hx
      have hle := h.due_le h₀
      rw [Function.update_self, h.full h₀ hheld, hi,
        show t + 1 - due = (t - due) + 1 by omega, List.range'_1_concat,
        show due + (t - due) = t by omega]
    · rw [Function.update_of_ne hji]
      exact h.full hj hheld
  · intro j l x y hj hl
    rcases update_eq_some hj with ⟨rfl, hx⟩ | ⟨-, hx⟩
    · obtain ⟨x₀, h₀, rfl⟩ := Option.map_eq_some_iff.mp hx
      rcases update_eq_some hl with ⟨rfl, hy⟩ | ⟨-, hy⟩
      · obtain rfl := Option.some.inj (hx.symm.trans hy)
        exact .inl (List.prefix_refl _)
      · exact hagree h₀ hy
    · rcases update_eq_some hl with ⟨rfl, hy⟩ | ⟨-, hy⟩
      · obtain ⟨y₀, h₀, rfl⟩ := Option.map_eq_some_iff.mp hy
        exact (hagree h₀ hx).symm
      · exact h.agree hx hy

end Tapes
