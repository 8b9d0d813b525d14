import PMLib.Lib.Outcome
import Mathlib.Data.List.Infix

/-! # Finite runs of a deterministic machine

`next s e` is the state after event `e`; an event that is not offered in `s`, or whose
effect has no meaning, has no successor. -/
namespace Trace

universe u v

variable {σ : Type u} {ε : Type v} (next : σ → ε → Outcome σ)

def exec (s : σ) (es : List ε) : Outcome σ := es.foldlM next s

@[simp] theorem exec_nil (s : σ) : exec next s [] = .done s := rfl

theorem exec_append (s : σ) (es fs : List ε) :
    exec next s (es ++ fs) = (exec next s es >>= fun t => exec next t fs) :=
  List.foldlM_append

theorem exec_append_eq_done {s u : σ} {es fs : List ε} :
    exec next s (es ++ fs) = .done u ↔
      ∃ t, exec next s es = .done t ∧ exec next t fs = .done u := by
  rw [exec_append, Outcome.bind_eq_done]

@[simp] theorem exec_singleton (s : σ) (e : ε) : exec next s [e] = next s e := by
  rw [exec, List.foldlM_cons]
  cases next s e <;> rfl

theorem exec_snoc {s u : σ} {es : List ε} {e : ε} :
    exec next s (es ++ [e]) = .done u ↔ ∃ t, exec next s es = .done t ∧ next t e = .done u := by
  simp [exec_append_eq_done]

theorem exec_cons {s u : σ} {es : List ε} {e : ε} :
    exec next s (e :: es) = .done u ↔ ∃ t, next s e = .done t ∧ exec next t es = .done u := by
  rw [exec, List.foldlM_cons, Outcome.bind_eq_done]
  rfl

/-- A machine that takes one element of a list at each event runs through a loop over it. -/
theorem exec_replicate {α : Type u} {β : Type v} (state : List β → α → σ) {f : α → β → Outcome α}
    {e : ε} (hstep : ∀ {b rest a a'}, f a b = .done a' →
      next (state (b :: rest) a) e = .done (state rest a')) {bs : List β} {a a' : α}
    (h : bs.foldlM f a = .done a') :
    exec next (state bs a) (List.replicate bs.length e) = .done (state [] a') := by
  induction bs generalizing a with
  | nil =>
    obtain rfl := Outcome.done.inj h
    rfl
  | cons b bs ih =>
    rw [List.foldlM_cons] at h
    obtain ⟨a₁, ha, h⟩ := Outcome.bind_eq_done.mp h
    rw [List.length_cons, List.replicate_succ]
    exact (exec_cons next).mpr ⟨_, hstep ha, ih h⟩

/-- What holds at the start and survives every step holds after the run. The invariant
may speak about the events consumed so far. -/
theorem exec_invariant {s : σ} (I : List ε → σ → Prop) (start : I [] s)
    (step : ∀ es t e u, exec next s es = .done t → I es t → next t e = .done u →
      I (es ++ [e]) u) :
    ∀ {es u}, exec next s es = .done u → I es u := by
  intro es
  induction es using List.reverseRecOn with
  | nil => intro u h; cases h; exact start
  | append_singleton es e ih =>
    intro u h
    obtain ⟨t, ht, hu⟩ := (exec_snoc next).mp h
    exact step es t e u ht (ih ht) hu

/-- `P` holds in every state that the run from `s` along `es` passes through. -/
def Always (s : σ) (es : List ε) (P : σ → Prop) : Prop :=
  ∀ pre, pre <+: es → ∀ t, exec next s pre = .done t → P t

/-- `Q` holds of every step that the run from `s` along `es` takes. -/
def AlwaysStep (s : σ) (es : List ε) (Q : σ → ε → Prop) : Prop :=
  ∀ pre e, pre ++ [e] <+: es → ∀ t, exec next s pre = .done t → Q t e

theorem exec_of_isPrefix {s u : σ} {pre es : List ε} (h : exec next s es = .done u)
    (hp : pre <+: es) : ∃ t, exec next s pre = .done t := by
  obtain ⟨fs, rfl⟩ := hp
  obtain ⟨t, ht, _⟩ := (exec_append_eq_done next).mp h
  exact ⟨t, ht⟩

theorem alwaysStep_of_forall_mem {s : σ} {es : List ε} {Q : σ → ε → Prop}
    (h : ∀ e ∈ es, ∀ t, Q t e) : AlwaysStep next s es Q :=
  fun _ e hp t _ => h e (hp.subset (by simp)) t

theorem alwaysStep_nil (s : σ) (Q : σ → ε → Prop) : AlwaysStep next s [] Q := by
  rintro pre e ⟨fs, hfs⟩
  simp at hfs

theorem alwaysStep_snoc {s t : σ} {es : List ε} {e : ε} {Q : σ → ε → Prop}
    (h : exec next s es = .done t) :
    AlwaysStep next s (es ++ [e]) Q ↔ AlwaysStep next s es Q ∧ Q t e := by
  constructor
  · intro hQ
    exact ⟨fun pre a hp => hQ pre a (hp.trans (List.prefix_append es [e])),
      hQ es e (List.prefix_refl _) t h⟩
  · rintro ⟨hQ, hlast⟩ pre a hp r hr
    rcases List.prefix_concat_iff.mp hp with heq | hp
    · obtain ⟨rfl, hlist⟩ := List.append_inj' heq rfl
      obtain rfl := List.singleton_inj.mp hlist
      obtain rfl := Outcome.done.inj (h.symm.trans hr)
      exact hlast
    · exact hQ pre a hp r hr

def obeys (Q : σ → ε → Prop) [∀ s e, Decidable (Q s e)] : σ → List ε → Bool
  | _, [] => true
  | s, e :: es => decide (Q s e) && match next s e with
    | .done t => obeys Q t es
    | .failed | .undefined => true

theorem alwaysStep_of_obeys {Q : σ → ε → Prop} [∀ s e, Decidable (Q s e)] {s : σ}
    {es : List ε} (h : obeys next Q s es = true) : AlwaysStep next s es Q := by
  intro pre e hp t ht
  induction pre generalizing s es with
  | nil =>
    obtain ⟨fs, rfl⟩ := hp
    obtain rfl := Outcome.done.inj ht
    simp only [List.nil_append, List.singleton_append, obeys, Bool.and_eq_true,
      decide_eq_true_eq] at h
    exact h.1
  | cons a pre ih =>
    obtain ⟨fs, rfl⟩ := hp
    obtain ⟨r, hr, ht⟩ := (exec_cons next).mp ht
    simp only [List.cons_append, obeys, hr, Bool.and_eq_true] at h
    exact ih h.2 (List.prefix_append ..) ht

theorem Always.of_isPrefix {s : σ} {pre es : List ε} {P : σ → Prop} (h : Always next s es P)
    (hp : pre <+: es) : Always next s pre P :=
  fun p hpre t ht => h p (hpre.trans hp) t ht

theorem exec_invariant_of_alwaysStep {s : σ} {es : List ε} {Q : σ → ε → Prop}
    (I : List ε → σ → Prop) (start : I [] s)
    (step : ∀ pre t e u, exec next s pre = .done t → I pre t → Q t e → next t e = .done u →
      I (pre ++ [e]) u)
    (hQ : AlwaysStep next s es Q) {u : σ} (h : exec next s es = .done u) : I es u := by
  have all : ∀ pre, pre <+: es → ∀ t, exec next s pre = .done t → I pre t := by
    intro pre
    induction pre using List.reverseRecOn with
    | nil => intro _ t ht; cases ht; exact start
    | append_singleton pre e ih =>
      intro hp t ht
      obtain ⟨r, hr, hn⟩ := (exec_snoc next).mp ht
      exact step pre r e t hr (ih ((List.prefix_append pre [e]).trans hp) r hr)
        (hQ pre e hp r hr) hn
  exact all es (List.prefix_refl es) u h

/-- When all steps of a run obey `Q`, and `Q` steps keep `P`, the whole run stays in `P`.
`I` is an invariant of all runs, which the step lemma may use. -/
theorem always_of_alwaysStep {s : σ} {es : List ε} {I P : σ → Prop} {Q : σ → ε → Prop}
    (hI : Always next s es I) (start : P s)
    (keep : ∀ t e u, I t → P t → Q t e → next t e = .done u → P u)
    (hQ : AlwaysStep next s es Q) : Always next s es P := by
  intro pre
  induction pre using List.reverseRecOn with
  | nil => intro _ t ht; cases ht; exact start
  | append_singleton pre e ih =>
    intro hp t ht
    have hpre : pre <+: es := (List.prefix_append pre [e]).trans hp
    obtain ⟨r, hr, hn⟩ := (exec_snoc next).mp ht
    exact keep r e t (hI pre hpre r hr) (ih hpre r hr) (hQ pre e hp r hr) hn

/-- If a step outside `Q` also leaves `P`, a completed run stays in `P` exactly when all
its steps obey `Q`: the first step outside `Q` would show. -/
theorem always_iff_alwaysStep {s u : σ} {es : List ε} {I P : σ → Prop} {Q : σ → ε → Prop}
    (hrun : exec next s es = .done u) (hI : Always next s es I) (start : P s)
    (keep : ∀ t e u, I t → P t → Q t e → next t e = .done u → P u)
    (leave : ∀ t e u, I t → P t → ¬ Q t e → next t e = .done u → ¬ P u) :
    Always next s es P ↔ AlwaysStep next s es Q := by
  refine ⟨fun hP => ?_, always_of_alwaysStep next hI start keep⟩
  intro pre e hp t ht
  by_contra hQ
  have hpre : pre <+: es := (List.prefix_append pre [e]).trans hp
  obtain ⟨r, hr⟩ := exec_of_isPrefix next hrun hp
  obtain ⟨t', ht', hn⟩ := (exec_snoc next).mp hr
  obtain rfl : t = t' := by rw [ht] at ht'; exact Outcome.done.inj ht'
  exact leave t e r (hI pre hpre t ht) (hP pre hpre t ht) hQ hn (hP _ hp r hr)

end Trace
