import PMLib.Isolation

/-! # Stretches of samples

Where the passes of the samples over the lines and the walks of START, CONTINUE and STOP do not
overlap, what a client gets are stretches of the samples that the lines were given. -/
namespace PMLib

variable {V : Type}

def Event.sampled : Event V → Option (ℕ → V)
  | .sample x => some x
  | _ => none

/-- The windows of a recorder are stretches of what it was given, in order and apart. -/
def Recorder.Follows {α : Type} (r : Recorder α) (data : List α) : Prop :=
  ∃ spans, Windows.Recorded data spans r.closed ∧
    ∀ w, r.opened = some w → ∃ b, Windows.Open data spans b w

namespace Recorder.Follows

variable {α : Type} {r : Recorder α} {data : List α}

theorem push (h : r.Follows data) (x : α) : (r.push x).Follows (data ++ [x]) := by
  obtain ⟨spans, hclosed, hopened⟩ := h
  refine ⟨spans, hclosed.append [x], fun w hw => ?_⟩
  obtain ⟨w', hw', rfl⟩ := Option.map_eq_some_iff.mp hw
  obtain ⟨b, hb⟩ := hopened w' hw'
  exact ⟨b, hb.append [x]⟩

theorem start (h : r.Follows data) : r.start.Follows data := by
  obtain ⟨closed, opened⟩ := r
  cases opened with
  | none =>
    refine ⟨[], .nil data, fun w hw => ?_⟩
    obtain rfl := Option.some.inj hw
    exact ⟨_, (Windows.Recorded.nil data).start⟩
  | some w => exact h

theorem resume (h : r.Follows data) : r.resume.Follows data := by
  obtain ⟨closed, opened⟩ := r
  obtain ⟨spans, hclosed, hopened⟩ := h
  cases opened with
  | none =>
    refine ⟨spans, hclosed, fun w hw => ?_⟩
    obtain rfl := Option.some.inj hw
    exact ⟨_, hclosed.start⟩
  | some w => exact ⟨spans, hclosed, hopened⟩

theorem stop (h : r.Follows data) : r.stop.Follows data := by
  obtain ⟨closed, opened⟩ := r
  obtain ⟨spans, hclosed, hopened⟩ := h
  cases opened with
  | none => exact ⟨spans, hclosed, hopened⟩
  | some w =>
    obtain ⟨b, hb⟩ := hopened w rfl
    refine ⟨_, hclosed.close hb, fun w hw => ?_⟩
    cases hw

end Recorder.Follows

namespace Daemon

end Daemon

end PMLib
