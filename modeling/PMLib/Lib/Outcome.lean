import Mathlib.Data.List.Basic
import Mathlib.Data.List.Forall2

/-! # Outcomes of imperative code

A call returns, leaves by an exception (or by the exit of its process), or meets a
situation to which the language gives no meaning. Only the first one is a value. -/

universe u v

inductive Outcome (α : Type u) where
  | done (a : α)
  | failed
  | undefined
  deriving DecidableEq, Repr

namespace Outcome

variable {α β : Type u} {σ ε : Type v}

def bind (x : Outcome α) (f : α → Outcome β) : Outcome β :=
  match x with
  | .done a => f a
  | .failed => .failed
  | .undefined => .undefined

instance : Monad Outcome where
  pure := .done
  bind := bind

@[simp] theorem pure_done (a : α) : (pure a : Outcome α) = .done a := rfl
@[simp] theorem done_bind (a : α) (f : α → Outcome β) : (Outcome.done a >>= f) = f a := rfl
@[simp] theorem failed_bind (f : α → Outcome β) :
    ((Outcome.failed : Outcome α) >>= f) = .failed := rfl
@[simp] theorem undefined_bind (f : α → Outcome β) :
    ((Outcome.undefined : Outcome α) >>= f) = .undefined := rfl

instance : LawfulMonad Outcome := LawfulMonad.mk' Outcome
  (by intro α x; cases x <;> rfl)
  (by intro α β a f; rfl)
  (by intro α β γ x f g; cases x <;> rfl)

/-- Every step of a computation that returned has itself returned. -/
theorem bind_eq_done {x : Outcome α} {f : α → Outcome β} {b : β} :
    (x >>= f) = .done b ↔ ∃ a, x = .done a ∧ f a = .done b := by
  cases x with
  | done a => simp
  | failed => simp
  | undefined => simp

@[simp] theorem map_done (f : α → β) (a : α) : (f <$> Outcome.done a) = .done (f a) := rfl

/-- Reading through a pointer that may name no object. -/
def ofOption : Option α → Outcome α
  | some a => .done a
  | none => .undefined

@[simp] theorem ofOption_some (a : α) : ofOption (some a) = .done a := rfl
@[simp] theorem ofOption_none : (ofOption none : Outcome α) = .undefined := rfl

@[simp] theorem ofOption_eq_done {o : Option α} {a : α} : ofOption o = .done a ↔ o = some a := by
  cases o <;> simp [ofOption]

def check (x : Outcome α) (p : α → Bool) : Bool :=
  match x with
  | .done a => p a
  | _ => false

theorem check_eq_true {x : Outcome α} {p : α → Bool} :
    x.check p = true ↔ ∃ a, x = .done a ∧ p a = true := by
  cases x <;> simp [check]

/-- A loop whose body always returns and keeps `P` (of the state and of the items still
to come) returns with `P`. -/
theorem foldlM_rule {f : σ → ε → Outcome σ} (P : σ → List ε → Prop)
    (body : ∀ s a as, P s (a :: as) → ∃ t, f s a = .done t ∧ P t as)
    {s : σ} {l : List ε} (h : P s l) : ∃ t, l.foldlM f s = .done t ∧ P t [] := by
  induction l generalizing s with
  | nil => exact ⟨s, rfl, h⟩
  | cons a as ih =>
    obtain ⟨t, ht, hp⟩ := body s a as h
    obtain ⟨u, hu, hq⟩ := ih hp
    exact ⟨u, by rw [List.foldlM_cons, ht, done_bind, hu], hq⟩

/-- A body that returns `g a` on every item maps the list. -/
theorem mapM_eq_map {f : σ → Outcome β} {g : σ → β} {as : List σ}
    (h : ∀ a ∈ as, f a = .done (g a)) : as.mapM f = .done (as.map g) := by
  induction as with
  | nil => rfl
  | cons a as ih =>
    rw [List.mapM_cons, h a (by simp), ih (fun b hb => h b (by simp [hb]))]
    rfl

theorem mapM_eq_done {f : σ → Outcome β} {as : List σ} {bs : List β} :
    as.mapM f = .done bs ↔ List.Forall₂ (fun a b => f a = .done b) as bs := by
  induction as generalizing bs with
  | nil => cases bs <;> simp [eq_comm]
  | cons a as ih =>
    rw [List.mapM_cons, bind_eq_done]
    constructor
    · rintro ⟨b, hb, h⟩
      obtain ⟨bs', hbs, h⟩ := bind_eq_done.mp h
      obtain rfl : b :: bs' = bs := by simpa using h
      exact .cons hb (ih.mp hbs)
    · intro h
      cases h with
      | cons hb hbs => exact ⟨_, hb, by rw [ih.mpr hbs]; rfl⟩

theorem exists_of_mem_mapM {f : σ → Outcome β} {as : List σ} {bs : List β}
    (h : as.mapM f = .done bs) {b : β} (hb : b ∈ bs) : ∃ a ∈ as, f a = .done b := by
  induction mapM_eq_done.mp h with
  | nil => cases hb
  | cons hfb hbs ih =>
    rcases List.mem_cons.mp hb with rfl | hb
    · exact ⟨_, List.mem_cons_self, hfb⟩
    · obtain ⟨a, ha, hfa⟩ := ih (mapM_eq_done.mpr hbs) hb
      exact ⟨a, List.mem_cons_of_mem _ ha, hfa⟩

theorem mapM_eq_map_iff {f : σ → Outcome β} {g : σ → β} {as : List σ} :
    as.mapM f = .done (as.map g) ↔ ∀ a ∈ as, f a = .done (g a) := by
  rw [mapM_eq_done, List.forall₂_map_right_iff, List.forall₂_same]

theorem mapM_range_eq_map_iff {γ : Type v} {f : ℕ → Outcome β} {g : γ → β} {as : List γ} :
    (List.range as.length).mapM f = .done (as.map g) ↔
      ∀ i a, as[i]? = some a → f i = .done (g a) := by
  rw [mapM_eq_done, List.forall₂_iff_get]
  constructor
  · rintro ⟨_, h⟩ i a hi
    obtain ⟨hlt, rfl⟩ := List.getElem?_eq_some_iff.mp hi
    simpa using h i (by simpa using hlt) (by simpa using hlt)
  · intro h
    refine ⟨by simp, fun i h₁ h₂ => ?_⟩
    have hlt : i < as.length := by simpa using h₁
    simpa using h i as[i] (List.getElem?_eq_getElem hlt)

theorem mapM_congr {f g : σ → Outcome β} {as : List σ} (h : ∀ a ∈ as, f a = g a) :
    as.mapM f = as.mapM g := by
  induction as with
  | nil => rfl
  | cons a as ih =>
    rw [List.mapM_cons, List.mapM_cons, h a (by simp), ih (fun b hb => h b (by simp [hb]))]

theorem mapM_range_ofOption {γ : Type u} {f : γ → Outcome β} (as : List γ) :
    ((List.range as.length).mapM fun i => do
      let a ← ofOption as[i]?
      f a) = as.mapM f := by
  induction as with
  | nil => rfl
  | cons a as ih =>
    rw [List.length_cons, List.range_succ_eq_map, List.mapM_cons, List.mapM_map, List.mapM_cons]
    simp only [Function.comp_def, List.getElem?_cons_succ, List.getElem?_cons_zero, ih]
    rfl

/-! ## Whether a computation returns -/

def Returns (x : Outcome α) : Prop := ∃ a, x = .done a

@[simp] theorem returns_done (a : α) : (Outcome.done a).Returns := ⟨a, rfl⟩

@[simp] theorem not_returns_undefined : ¬ (Outcome.undefined : Outcome α).Returns := nofun

theorem returns_bind {x : Outcome α} {f : α → Outcome β} :
    (x >>= f).Returns ↔ ∃ a, x = .done a ∧ (f a).Returns := by
  cases x with
  | done a => simp
  | failed => simp [Returns]
  | undefined => simp

theorem Returns.of_bind {x : Outcome α} {f : α → Outcome β} (h : (x >>= f).Returns) :
    x.Returns := by
  obtain ⟨a, ha, _⟩ := returns_bind.mp h
  exact ⟨a, ha⟩

theorem returns_bind_of_forall {x : Outcome α} {f : α → Outcome β} {P : Prop}
    (h : ∀ a, x = .done a → ((f a).Returns ↔ P)) : (x >>= f).Returns ↔ x.Returns ∧ P := by
  rw [returns_bind]
  constructor
  · rintro ⟨a, ha, hf⟩
    exact ⟨⟨a, ha⟩, (h a ha).mp hf⟩
  · rintro ⟨⟨a, ha⟩, hp⟩
    exact ⟨a, ha, (h a ha).mpr hp⟩

@[simp] theorem returns_bind_done {x : Outcome α} {g : α → β} :
    (x >>= fun a => .done (g a)).Returns ↔ x.Returns := by
  rw [returns_bind_of_forall (P := True) fun _ _ => iff_of_true (returns_done _) trivial, and_true]

@[simp] theorem returns_ofOption {o : Option α} : (ofOption o).Returns ↔ o.isSome = true := by
  cases o <;> simp

theorem returns_mapM {f : σ → Outcome β} {as : List σ} :
    (as.mapM f).Returns ↔ ∀ a ∈ as, (f a).Returns := by
  induction as with
  | nil => simp
  | cons a as ih =>
    rw [List.mapM_cons, returns_bind_of_forall (P := ∀ b ∈ as, (f b).Returns)]
    · simp
    · intro b _
      rw [← ih]
      exact returns_bind_done

theorem returns_foldlM {f : σ → ε → Outcome σ} {P : ε → Prop} {as : List ε}
    (h : ∀ a ∈ as, ∀ s, (f s a).Returns ↔ P a) (s : σ) :
    (as.foldlM f s).Returns ↔ ∀ a ∈ as, P a := by
  induction as generalizing s with
  | nil => simp
  | cons a as ih =>
    rw [List.foldlM_cons, returns_bind_of_forall fun t _ =>
      ih (fun b hb => h b (List.mem_cons_of_mem a hb)) t, h a List.mem_cons_self s]
    simp

end Outcome
