import Mathlib.Data.List.Basic

/-! # Reads through a pointer

A computation that reads memory, which has some value at every position, and notes the
positions. `Within` says that none of them is beyond a bound, and what holds of the result. -/
namespace ReadLog

variable {α β σ ρ : Type}

abbrev Reading (α : Type) := StateM (List ℕ) α

def readAt (mem : ℕ → α) (i : ℕ) : Reading α := fun reads => (mem i, reads ++ [i])

/-- The passes of a loop, at most `n` of them. A pass goes on from a state or has a result. -/
def loop (body : σ → Reading (σ ⊕ ρ)) : ℕ → σ ⊕ ρ → Reading (σ ⊕ ρ)
  | 0, s => pure s
  | n + 1, .inl s => do
    let t ← body s
    loop body n t
  | _ + 1, .inr r => pure (.inr r)

def Within (bound : ℕ) (x : Reading α) (post : α → Prop) : Prop :=
  ∀ reads, (∀ i ∈ reads, i ≤ bound) → post (x reads).1 ∧ ∀ i ∈ (x reads).2, i ≤ bound

namespace Within

variable {bound : ℕ} {x : Reading α} {f : α → Reading β} {mid post : α → Prop} {post' : β → Prop}

theorem pure {a : α} (h : post a) : Within bound (Pure.pure a) post :=
  fun _ hreads => ⟨h, hreads⟩

theorem readAt {mem : ℕ → α} {i : ℕ} (hi : i ≤ bound) :
    Within bound (readAt mem i) fun a => a = mem i := by
  intro reads hreads
  refine ⟨rfl, fun k hk => ?_⟩
  rcases List.mem_append.mp hk with hk | hk
  · exact hreads k hk
  · rwa [List.mem_singleton.mp hk]

theorem bind (hx : Within bound x mid) (hf : ∀ a, mid a → Within bound (f a) post') :
    Within bound (x >>= f) post' := by
  intro reads hreads
  obtain ⟨hmid, hreads⟩ := hx reads hreads
  exact hf _ hmid _ hreads

/-- A loop whose passes keep an invariant and come nearer to the end has a result. -/
theorem loop {body : σ → Reading (σ ⊕ ρ)} {inv : σ → Prop} {final : ρ → Prop} (measure : σ → ℕ)
    (hbody : ∀ s, inv s → Within bound (body s)
      (Sum.elim (fun t => inv t ∧ measure t < measure s) final))
    {s : σ} (hs : inv s) {n : ℕ} (hn : measure s < n) :
    Within bound (loop body n (.inl s)) fun t => ∃ r, t = .inr r ∧ final r := by
  induction n generalizing s with
  | zero => omega
  | succ n ih =>
    refine (hbody s hs).bind fun t ht => ?_
    cases t with
    | inl t => exact ih ht.1 (by have := ht.2; omega)
    | inr r =>
      cases n with
      | zero => exact pure ⟨r, rfl, ht⟩
      | succ n => exact pure ⟨r, rfl, ht⟩

end Within

end ReadLog
