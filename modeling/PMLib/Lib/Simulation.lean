import PMLib.Lib.Trace

/-! # One machine seen as another

Every step of a machine, from the state it is taken in, means some events of a second one. -/
namespace Simulation

universe u v

open Trace

variable {σ τ : Type u} {ε δ : Type v} (next : σ → ε → Outcome σ) (next' : τ → δ → Outcome τ)
  (view : σ → ε → List δ)

/-- What a run means to the second machine. -/
def viewed : σ → List ε → List δ
  | _, [] => []
  | s, e :: es => view s e ++ match next s e with
    | .done t => viewed t es
    | .failed | .undefined => []

variable {next next' view}

theorem viewed_append {s t : σ} {es fs : List ε} (h : exec next s es = .done t) :
    viewed next view s (es ++ fs) = viewed next view s es ++ viewed next view t fs := by
  induction es generalizing s with
  | nil =>
    obtain rfl := Outcome.done.inj h
    rfl
  | cons e es ih =>
    obtain ⟨u, hu, h⟩ := (exec_cons next).mp h
    simp only [List.cons_append, viewed, hu, ih h, List.append_assoc]

theorem viewed_singleton (s : σ) (e : ε) : viewed next view s [e] = view s e := by
  unfold viewed
  cases next s e <;> simp [viewed]

theorem viewed_snoc {s t : σ} {es : List ε} {e : ε} (h : exec next s es = .done t) :
    viewed next view s (es ++ [e]) = viewed next view s es ++ view t e := by
  rw [viewed_append h, viewed_singleton]

/-- States stay related when each step from related states is matched by what it means. -/
theorem exec_viewed {R : σ → τ → Prop}
    (step : ∀ s t e s', R s t → next s e = .done s' →
      ∃ t', exec next' t (view s e) = .done t' ∧ R s' t')
    {s s' : σ} {t : τ} {es : List ε} (hR : R s t) (h : exec next s es = .done s') :
    ∃ t', exec next' t (viewed next view s es) = .done t' ∧ R s' t' := by
  induction es generalizing s t with
  | nil =>
    obtain rfl := Outcome.done.inj h
    exact ⟨t, rfl, hR⟩
  | cons e es ih =>
    obtain ⟨u, hu, h⟩ := (exec_cons next).mp h
    obtain ⟨w, hw, hRw⟩ := step s t e u hR hu
    obtain ⟨t', ht', hR'⟩ := ih hRw h
    refine ⟨t', (exec_append_eq_done next').mpr ⟨w, hw, ?_⟩, hR'⟩
    simpa only [hu] using ht'

/-- A summary of what was viewed is one of the run itself when each step adds the same to both. -/
theorem foldl_viewed {α : Type u} {f : α → δ → α} {g : α → ε → α} {s t : σ} {es : List ε}
    (hstep : AlwaysStep next s es fun s e => ∀ a, (view s e).foldl f a = g a e)
    (h : exec next s es = .done t) (a : α) :
    (viewed next view s es).foldl f a = es.foldl g a := by
  refine exec_invariant_of_alwaysStep next
    (I := fun pre _ => (viewed next view s pre).foldl f a = pre.foldl g a) rfl ?_ hstep h
  intro pre t e _ ht ih hQ _
  rw [viewed_snoc ht, List.foldl_append, ih, hQ, List.foldl_append]
  rfl

/-- When a step means one event at most, what the second machine has done at any time is what
the first one meant up to some time. -/
theorem exists_viewed_eq (hone : ∀ s e, (view s e).length ≤ 1) {s t : σ} {es : List ε}
    (h : exec next s es = .done t) {seen : List δ} (hp : seen <+: viewed next view s es) :
    ∃ pre, pre <+: es ∧ viewed next view s pre = seen := by
  induction es using List.reverseRecOn generalizing t with
  | nil => exact ⟨[], List.prefix_refl [], (List.prefix_nil.mp hp).symm⟩
  | append_singleton es e ih =>
    obtain ⟨u, hu, -⟩ := (exec_snoc next).mp h
    rcases List.prefix_or_prefix_of_prefix hp
      (show viewed next view s es <+: _ by rw [viewed_append hu]; exact List.prefix_append _ _)
      with hle | ⟨more, rfl⟩
    · obtain ⟨pre, hpre, heq⟩ := ih hu hle
      exact ⟨pre, hpre.trans (List.prefix_append es [e]), heq⟩
    · rw [viewed_snoc hu, List.prefix_append_right_inj] at hp
      cases more with
      | nil => exact ⟨es, List.prefix_append es [e], by rw [List.append_nil]⟩
      | cons d more =>
        refine ⟨es ++ [e], List.prefix_refl _, ?_⟩
        have hlen := hp.length_le
        have hall := hp.eq_of_length_le ((hone u e).trans (by simp))
        rw [viewed_snoc hu, hall]

end Simulation
