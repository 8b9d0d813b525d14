import Mathlib.Algebra.Order.BigOperators.Group.List
import Mathlib.Algebra.Order.Ring.Nat

/-! # Blocks of a flat list

A list of blocks is laid out in one flat list. `offset` is where a block begins there; every
position of the flat list lies in exactly one block. -/
namespace Blocks

universe u

variable {α : Type u}

def offset (bs : List (List α)) (s : ℕ) : ℕ := ((bs.take s).map List.length).sum

@[simp] theorem offset_zero (bs : List (List α)) : offset bs 0 = 0 := rfl

@[simp] theorem offset_cons (b : List α) (bs : List (List α)) (s : ℕ) :
    offset (b :: bs) (s + 1) = b.length + offset bs s := by
  simp [offset]

theorem getElem?_flatten {bs : List (List α)} {s i : ℕ} {b : List α} (hs : bs[s]? = some b)
    (hi : i < b.length) : bs.flatten[offset bs s + i]? = b[i]? := by
  induction bs generalizing s with
  | nil => simp at hs
  | cons b' bs ih =>
    cases s with
    | zero =>
      obtain rfl : b' = b := by simpa using hs
      rw [offset_zero, Nat.zero_add, List.flatten_cons, List.getElem?_append_left hi]
    | succ s =>
      rw [List.getElem?_cons_succ] at hs
      rw [offset_cons, List.flatten_cons, Nat.add_assoc, List.getElem?_append_right (by omega),
        Nat.add_sub_cancel_left]
      exact ih hs

theorem exists_offset {bs : List (List α)} {k : ℕ} (hk : k < bs.flatten.length) :
    ∃ s i b, bs[s]? = some b ∧ i < b.length ∧ k = offset bs s + i := by
  induction bs generalizing k with
  | nil => simp at hk
  | cons b bs ih =>
    by_cases h : k < b.length
    · exact ⟨0, k, b, rfl, h, by simp⟩
    · have hrest : k - b.length < bs.flatten.length := by
        rw [List.flatten_cons, List.length_append] at hk
        omega
      obtain ⟨s, i, b', hs, hi, heq⟩ := ih hrest
      refine ⟨s + 1, i, b', hs, hi, ?_⟩
      rw [offset_cons]
      omega

theorem offset_uniform {bs : List (List α)} {n : ℕ} (h : ∀ b ∈ bs, b.length = n) {s : ℕ}
    (hs : s ≤ bs.length) : offset bs s = s * n := by
  have hall : ∀ x ∈ (bs.take s).map List.length, x = n := by
    intro x hx
    obtain ⟨b, hb, rfl⟩ := List.mem_map.mp hx
    exact h b (List.mem_of_mem_take hb)
  rw [offset, List.eq_replicate_of_mem hall, List.sum_replicate_nat,
    List.length_map, List.length_take, Nat.min_eq_left hs]

/-- Blocks that make up one flat list, none of them shorter than its counterpart, are the
same. -/
theorem eq_of_flatMap_eq {β : Type u} {f g : β → List α} {l : List β}
    (hle : ∀ a ∈ l, (f a).length ≤ (g a).length) (h : l.flatMap f = l.flatMap g) :
    ∀ a ∈ l, f a = g a := by
  induction l with
  | nil => simp
  | cons b l ih =>
    rw [List.flatMap_cons, List.flatMap_cons] at h
    have hb := hle b (by simp)
    have hrest : (l.flatMap f).length ≤ (l.flatMap g).length := by
      rw [List.length_flatMap, List.length_flatMap]
      exact List.sum_le_sum fun a ha => hle a (by simp [ha])
    have hlen := congrArg List.length h
    rw [List.length_append, List.length_append] at hlen
    obtain ⟨hhead, htail⟩ := List.append_inj h (by omega)
    intro a ha
    rcases List.mem_cons.mp ha with rfl | ha
    · exact hhead
    · exact ih (fun a ha => hle a (by simp [ha])) htail a ha

theorem chunks_flatMap {β : Type u} {f : β → List α} {n : ℕ} {l : List β}
    (h : ∀ a ∈ l, (f a).length = n) :
    ((List.range l.length).map fun i => ((l.flatMap f).drop (i * n)).take n) = l.map f := by
  induction l with
  | nil => rfl
  | cons a l ih =>
    have ha := h a (by simp)
    have hrest := ih fun b hb => h b (by simp [hb])
    have htail : ∀ i, ((f a ++ l.flatMap f).drop ((i + 1) * n)).take n =
        ((l.flatMap f).drop (i * n)).take n := by
      intro i
      rw [Nat.succ_mul, Nat.add_comm, ← ha, ← List.drop_drop, List.drop_left]
    rw [List.length_cons, List.range_succ_eq_map, List.map_cons, List.map_map, List.flatMap_cons,
      List.map_cons, ← hrest]
    congr 1
    · simp [← ha]
    · exact List.map_congr_left fun i _ => htail i

end Blocks
