import PMLib.Lib.Simulation

/-! # A bounded queue between two threads

One thread offers elements and the other one takes them. Of the queue itself only its
documentation is known. -/
namespace Spsc

universe u

open Trace

structure Queue (α : Type u) where
  State : Type u
  empty : State
  push : State → α → State
  pop : State → Option (α × State)
  isEmpty : State → Bool

variable {α : Type u}

/-- The documentation of a queue with room for `n` elements. `items` are the elements in it, the
oldest first. -/
structure Queue.Documented (Q : Queue α) (n : ℕ) (items : Q.State → List α) : Prop where
  empty : items Q.empty = []
  push_room : ∀ q a, (items q).length < n → items (Q.push q a) = items q ++ [a]
  push_full : ∀ q a, n ≤ (items q).length → items (Q.push q a) = items q
  pop_some : ∀ q a q', Q.pop q = some (a, q') → items q = a :: items q'
  pop_none : ∀ q, Q.pop q = none → items q = []
  isEmpty_false : ∀ q, Q.isEmpty q = false → items q ≠ []

inductive Op (α : Type u) where
  | push (a : α)
  | pop

def next (Q : Queue α) (q : Q.State) : Op α → Outcome Q.State
  | .push a => .done (Q.push q a)
  | .pop =>
    match Q.pop q with
    | some (_, q) => .done q
    | none => .failed

def takes (Q : Queue α) (q : Q.State) : Op α → List α
  | .push _ => []
  | .pop => (Q.pop q).toList.map Prod.fst

section runs

variable {Q : Queue α} {n : ℕ} (items : Q.State → List α)

def accepts (n : ℕ) (q : Q.State) : Op α → List α
  | .push a => if (items q).length < n then [a] else []
  | .pop => []

variable {items} {q q' : Q.State} {op : Op α} {ops : List (Op α)}

theorem next_conserves (hq : Q.Documented n items) (h : next Q q op = .done q') :
    items q ++ accepts items n q op = takes Q q op ++ items q' := by
  cases op with
  | push a =>
    obtain rfl := Outcome.done.inj h
    rw [accepts, takes, List.nil_append]
    split_ifs with hroom
    · rw [hq.push_room q a hroom]
    · rw [hq.push_full q a (by omega), List.append_nil]
  | pop =>
    rw [accepts, takes, List.append_nil]
    cases hpop : Q.pop q with
    | none => simp [next, hpop] at h
    | some taken =>
      obtain ⟨a, q₁⟩ := taken
      simp only [next, hpop] at h
      obtain rfl := Outcome.done.inj h
      exact hq.pop_some q a q₁ hpop

/-- Nothing is lost inside of the queue, nothing comes twice, and the order stays. -/
theorem run_conserves (hq : Q.Documented n items) (h : exec (next Q) q ops = .done q') :
    items q ++ Simulation.viewed (next Q) (accepts items n) q ops =
      Simulation.viewed (next Q) (takes Q) q ops ++ items q' := by
  refine exec_invariant (next Q)
    (fun ops q' => items q ++ Simulation.viewed (next Q) (accepts items n) q ops =
      Simulation.viewed (next Q) (takes Q) q ops ++ items q') (List.append_nil _) ?_ h
  intro ops t op u ht ih hu
  rw [Simulation.viewed_snoc ht, Simulation.viewed_snoc ht, ← List.append_assoc, ih,
    List.append_assoc, next_conserves hq hu, List.append_assoc]

end runs

def listQueue (α : Type u) (n : ℕ) : Queue α where
  State := List α
  empty := []
  push q a := if q.length < n then q ++ [a] else q
  pop q := q.head?.map fun a => (a, q.tail)
  isEmpty := List.isEmpty

theorem listQueue_documented (n : ℕ) : (listQueue α n).Documented n id where
  empty := rfl
  push_room _ _ h := if_pos h
  push_full _ _ h := if_neg (Nat.not_lt.mpr h)
  pop_some q a q' h := by
    cases q with
    | nil => cases h
    | cons b q =>
      cases h
      rfl
  pop_none q h := by
    cases q with
    | nil => rfl
    | cons b q => cases h
  isEmpty_false _ h := List.isEmpty_eq_false_iff.mp h

end Spsc
