import Mathlib.Data.List.Basic

/-! # Windows of an append-only log

A log only grows at its end. A window is a pair of positions; once both are inside the
log, what lies between them never changes. -/
namespace Windows

universe u

variable {α : Type u}

def slice (data : List α) (w : ℕ × ℕ) : List α := (data.drop w.1).take (w.2 - w.1)

theorem slice_append {data : List α} {w : ℕ × ℕ} (hw : w.2 ≤ data.length) (more : List α) :
    slice (data ++ more) w = slice data w := by
  unfold slice
  by_cases h : w.1 ≤ data.length
  · rw [List.drop_append_of_le_length h, List.take_append_of_le_length]
    simp only [List.length_drop]
    omega
  · have hz : w.2 - w.1 = 0 := by omega
    simp [hz]

theorem slice_to_end (data : List α) (b : ℕ) : slice data (b, data.length) = data.drop b :=
  List.take_of_length_le (by simp)

theorem length_slice {data : List α} {w : ℕ × ℕ} (hw : w.2 ≤ data.length) :
    (slice data w).length = w.2 - w.1 := by
  simp only [slice, List.length_take, List.length_drop]
  omega

theorem getElem?_slice {data : List α} {w : ℕ × ℕ} {x : ℕ} (hx : w.1 + x < w.2) :
    (slice data w)[x]? = data[w.1 + x]? := by
  rw [slice, List.getElem?_take_of_lt (by omega), List.getElem?_drop]

/-- Closed windows, in order and apart from each other, with what they contain. -/
structure Recorded (data : List α) (spans : List (ℕ × ℕ)) (contents : List (List α)) :
    Prop where
  ordered : spans.Pairwise (fun x y => x.2 ≤ y.1)
  inside : ∀ x ∈ spans, x.1 ≤ x.2 ∧ x.2 ≤ data.length
  content : spans.map (slice data) = contents

/-- A window that is still open: it starts at `b` and reaches to the end of the log. -/
structure Open (data : List α) (spans : List (ℕ × ℕ)) (b : ℕ) (content : List α) : Prop where
  after : ∀ x ∈ spans, x.2 ≤ b
  inside : b ≤ data.length
  content : data.drop b = content

theorem Recorded.nil (data : List α) : Recorded data [] [] :=
  ⟨.nil, by simp, rfl⟩

theorem Recorded.append {data : List α} {spans : List (ℕ × ℕ)} {contents : List (List α)}
    (h : Recorded data spans contents) (more : List α) :
    Recorded (data ++ more) spans contents := by
  refine ⟨h.ordered, fun x hx => ?_, ?_⟩
  · have := h.inside x hx
    simp only [List.length_append]
    omega
  · rw [← h.content]
    exact List.map_congr_left fun x hx => slice_append (h.inside x hx).2 more

theorem Recorded.start {data : List α} {spans : List (ℕ × ℕ)} {contents : List (List α)}
    (h : Recorded data spans contents) : Open data spans data.length [] :=
  ⟨fun x hx => (h.inside x hx).2, Nat.le_refl _, List.drop_length⟩

theorem Open.append {data : List α} {spans : List (ℕ × ℕ)} {b : ℕ} {content : List α}
    (h : Open data spans b content) (more : List α) :
    Open (data ++ more) spans b (content ++ more) := by
  refine ⟨h.after, ?_, ?_⟩
  · have := h.inside
    simp only [List.length_append]
    omega
  · rw [List.drop_append_of_le_length h.inside, h.content]

theorem Recorded.close {data : List α} {spans : List (ℕ × ℕ)} {contents : List (List α)}
    {b : ℕ} {content : List α} (h : Recorded data spans contents)
    (ho : Open data spans b content) :
    Recorded data (spans ++ [(b, data.length)]) (contents ++ [content]) := by
  refine ⟨?_, ?_, ?_⟩
  · rw [List.pairwise_append]
    refine ⟨h.ordered, List.pairwise_singleton _ _, fun x hx y hy => ?_⟩
    obtain rfl := List.mem_singleton.mp hy
    exact ho.after x hx
  · intro x hx
    rcases List.mem_append.mp hx with hx | hx
    · exact h.inside x hx
    · obtain rfl := List.mem_singleton.mp hx
      exact ⟨ho.inside, Nat.le_refl _⟩
  · simp [h.content, slice_to_end, ho.content]

theorem Recorded.snoc {data : List α} {spans : List (ℕ × ℕ)} {contents : List (List α)}
    (h : Recorded data spans contents) (w rest : List α) :
    ∃ spans', Recorded (data ++ (w ++ rest)) spans' (contents ++ [w]) := by
  rw [← List.append_assoc]
  exact ⟨_, ((h.append w).close (h.start.append w)).append rest⟩

end Windows
