import PMLib.Timing

/-! # The room for a client's times

The slots are allocated once. A START goes back to the first of them and a STOP goes on to
the next pair; nothing compares the position with the allocation. -/
namespace PMLib

variable {V T : Type}

def stopsSince (calls : List (Call V T)) : ℕ :=
  calls.foldl (fun n x => match x.op with
    | .start => 0
    | .continue_ => n
    | .stop => n + 1) 0

/-- Every CONTINUE and every STOP comes while a pair of slots is left. -/
def TimesFit (calls : List (Call V T)) : Prop :=
  ∀ pre x, pre ++ [x] <+: calls → x.op ≠ .start → 2 * stopsSince pre < Client.TIMELEN

theorem stopsSince_snoc (calls : List (Call V T)) (x : Call V T) :
    stopsSince (calls ++ [x]) = match x.op with
      | .start => 0
      | .continue_ => stopsSince calls
      | .stop => stopsSince calls + 1 := by
  simp [stopsSince]

theorem timesFit_nil : TimesFit ([] : List (Call V T)) := by
  intro pre x hp
  have hlen := hp.length_le
  simp at hlen

theorem timesFit_snoc (calls : List (Call V T)) (x : Call V T) :
    TimesFit (calls ++ [x]) ↔
      TimesFit calls ∧ (x.op ≠ .start → 2 * stopsSince calls < Client.TIMELEN) := by
  constructor
  · intro h
    exact ⟨fun pre y hp => h pre y (hp.trans (List.prefix_append calls [x])),
      h calls x (List.prefix_refl _)⟩
  · rintro ⟨h, hx⟩ pre y hp hy
    rcases List.prefix_concat_iff.mp hp with heq | hp
    · obtain ⟨rfl, hxy⟩ := List.append_inj' heq rfl
      obtain rfl := List.singleton_inj.mp hxy
      exact hx hy
    · exact h pre y hp hy

namespace Client

structure At (m : Client T) (n : ℕ) : Prop where
  nextTiming : m.nextTiming = n
  timing : m.timing.length = TIMELEN

theorem created_at : (created : Client T).At 0 := ⟨rfl, List.length_replicate⟩

theorem At.effect {m : Client T} {calls : List (Call V T)} (h : m.At (stopsSince calls))
    (x : Call V T) :
    ((x.op ≠ .start → 2 * stopsSince calls < TIMELEN) ∧
      ∃ m', m.effect x = .done m' ∧ m'.At (stopsSince (calls ++ [x]))) ∨
    (¬ (x.op ≠ .start → 2 * stopsSince calls < TIMELEN) ∧ m.effect x = .undefined) := by
  obtain ⟨hnext, hlen⟩ := h
  obtain ⟨exchange, op, temp⟩ := x
  have heven : ∃ j, TIMELEN = 2 * j := ⟨5000, rfl⟩
  obtain ⟨j, hj⟩ := heven
  rw [stopsSince_snoc]
  by_cases hfit : op ≠ .start → 2 * stopsSince calls < TIMELEN
  · refine .inl ⟨hfit, ?_⟩
    cases op with
    | start =>
      exact ⟨_, storeTiming_eq (m := { m with nextTiming := 0 }) (i := 0) hlen (by decide) temp,
        rfl, by simpa using hlen⟩
    | continue_ =>
      have hlt := hfit (by decide)
      exact ⟨_, storeTiming_eq hlen (by omega) temp, hnext, by simpa using hlen⟩
    | stop =>
      have hlt := hfit (by decide)
      have hstore := storeTiming_eq (i := m.nextTiming * 2 + 1) hlen (by omega) temp
      exact ⟨_, by simp only [Client.effect, hstore]; rfl, by simp [hnext], by simpa using hlen⟩
  · refine .inr ⟨hfit, ?_⟩
    rw [Classical.not_imp] at hfit
    obtain ⟨hop, hge⟩ := hfit
    cases op with
    | start => exact absurd rfl hop
    | continue_ => exact if_neg (by omega)
    | stop =>
      have hstore : m.storeTiming (m.nextTiming * 2 + 1) temp = .undefined := if_neg (by omega)
      simp only [Client.effect, hstore, Outcome.undefined_bind]

end Client

section runs

variable [Zero V] [Add V] {k : ℕ} {s₀ s : Server V} {calls : List (Call V T)}

theorem Client.calls_run (hs : calls.foldlM (Call.answered k) s₀ = .done s) :
    (TimesFit calls ∧ ∃ m, calls.foldlM (Call.run k) (s₀, Client.created) = .done (s, m) ∧
      m.At (stopsSince calls)) ∨
    (¬ TimesFit calls ∧ calls.foldlM (Call.run k) (s₀, Client.created) = .undefined) := by
  induction calls using List.reverseRecOn generalizing s with
  | nil =>
    obtain rfl := Outcome.done.inj hs
    exact .inl ⟨timesFit_nil, _, rfl, Client.created_at⟩
  | append_singleton calls x ih =>
    rw [List.foldlM_append] at hs
    obtain ⟨s₁, hs₁, hlast⟩ := Outcome.bind_eq_done.mp hs
    rw [List.foldlM_cons] at hlast
    obtain ⟨s₂, hx, hnil⟩ := Outcome.bind_eq_done.mp hlast
    obtain rfl := Outcome.done.inj hnil
    rw [timesFit_snoc, List.foldlM_append]
    rcases ih hs₁ with ⟨hfit, m, hm, hat⟩ | ⟨hnot, hm⟩
    · rw [hm, Outcome.done_bind, List.foldlM_cons, Call.run_eq_effect hx]
      rcases hat.effect x with ⟨hroom, m', hm', hat'⟩ | ⟨hnone, hm'⟩
      · exact .inl ⟨⟨hfit, hroom⟩, m', by rw [hm']; rfl, hat'⟩
      · exact .inr ⟨fun h => hnone h.2, by rw [hm']; rfl⟩
    · exact .inr ⟨fun h => hnot h.1, by rw [hm]; rfl⟩

/-- Calls that the server answers with success write within the allocation exactly when
each CONTINUE and each STOP finds a pair of slots left. -/
theorem Client.timing_in_bounds_iff (hs : calls.foldlM (Call.answered k) s₀ = .done s) :
    ((∃ m, calls.foldlM (Call.run k) (s₀, Client.created) = .done (s, m)) ↔ TimesFit calls) ∧
      (calls.foldlM (Call.run k) (s₀, Client.created) = .undefined ↔ ¬ TimesFit calls) := by
  rcases Client.calls_run hs with ⟨hfit, m, hm, _⟩ | ⟨hnot, hm⟩
  · exact ⟨iff_of_true ⟨m, hm⟩ hfit, iff_of_false (by simp [hm]) (not_not_intro hfit)⟩
  · refine ⟨iff_of_false ?_ hnot, iff_of_true hm hnot⟩
    rintro ⟨m, hd⟩
    cases hm.symm.trans hd

end runs

theorem stopsSince_le_length (calls : List (Call V T)) : stopsSince calls ≤ calls.length := by
  induction calls using List.reverseRecOn with
  | nil => exact Nat.le_refl 0
  | append_singleton calls x ih =>
    rw [stopsSince_snoc, List.length_append, List.length_singleton]
    split <;> omega

theorem timesFit_of_length {calls : List (Call V T)} (h : 2 * calls.length ≤ Client.TIMELEN) :
    TimesFit calls := by
  intro pre x hp _
  have hlen := hp.length_le
  have hstops := stopsSince_le_length pre
  rw [List.length_append, List.length_singleton] at hlen
  omega

theorem timing_in_bounds_twoCalls : ∃ s₀ s m,
    Trace.exec Server.next (.configured [] 1 1)
        [.connection 0 (some ⟨[], 0, false, [1#8]⟩), .send 0 true] = .done s₀ ∧
      twoCalls.foldlM (Call.answered 0) s₀ = .done s ∧
      twoCalls.foldlM (Call.run 0) (s₀, Client.created) = .done (s, m) := by
  have hrun : (Trace.exec Server.next (.configured [] 1 1)
      [.connection 0 (some ⟨[], 0, false, [1#8]⟩), .send 0 true]).check (fun s₀ =>
        (twoCalls.foldlM (Call.answered 0) s₀).check fun _ => true) = true := by decide +kernel
  obtain ⟨s₀, hs₀, hp⟩ := Outcome.check_eq_true.mp hrun
  obtain ⟨s, hs, _⟩ := Outcome.check_eq_true.mp hp
  obtain ⟨m, hm⟩ := (Client.timing_in_bounds_iff hs).1.mpr (timesFit_of_length (by decide))
  exact ⟨s₀, s, m, hs₀, hs, hm⟩

/-! ## Many sets -/

def ClientOp.due : ClientOp → State
  | .start | .continue_ => .inactive
  | .stop => .active

def ClientOp.leaves : ClientOp → State
  | .start | .continue_ => .active
  | .stop => .inactive

namespace Counter

variable [Zero V] [Add V]

theorem dispatch_due (op : ClientOp) {c : Counter} {dev : Device V} (hn : c.lines.Nodup)
    (hs : dev.Has c.lines) (hst : c.status = op.due)
    (hsets : c.status = .active → c.sets ≠ []) :
    ∃ c' dev', c.dispatch dev op.typeMark = .done (c', dev', .retval .success) ∧
      c'.running = c.running ∧ c'.lines = c.lines ∧ c'.status = op.leaves ∧
      dev'.Has c'.lines ∧ c'.sets ≠ [] := by
  have hwalk : ∀ f : Line V → Line V, ∃ dev' sizes, dev.forLines c.lines f = .done dev' ∧
      dev'.getLinesSizes c.lines = .done sizes ∧ dev'.Has c.lines := by
    intro f
    obtain ⟨dev', hdev, _, hm⟩ := Device.forLines_mapped hn hs f
    have hs' : dev'.Has c.lines := by
      intro l hl
      obtain ⟨ln, hln⟩ := hs l hl
      exact ⟨_, by rw [hm.lines, hln]; rfl⟩
    obtain ⟨sizes, hsizes⟩ := Device.getLinesSizes_done hs'
    exact ⟨dev', sizes, hdev, hsizes, hs'⟩
  cases op with
  | start =>
    have hst : c.status = .inactive := hst
    obtain ⟨dev', sizes, hdev, hsizes, hs'⟩ := hwalk Line.activate
    refine ⟨{ c with status := .active, sets := [(sizes, none)] }, dev', ?_, rfl, rfl, rfl, hs',
      by simp⟩
    change c.start dev = _
    rw [start, if_pos hst, Device.startCounter, hdev, Outcome.done_bind, hsizes,
      Outcome.done_bind]
  | continue_ =>
    have hst : c.status = .inactive := hst
    obtain ⟨dev', sizes, hdev, hsizes, hs'⟩ := hwalk Line.activate
    refine ⟨{ c with status := .active, sets := c.sets ++ [(sizes, none)] }, dev', ?_, rfl, rfl,
      rfl, hs', by simp⟩
    change c.restart dev = _
    rw [restart, if_pos hst, Device.startCounter, hdev, Outcome.done_bind, hsizes,
      Outcome.done_bind]
  | stop =>
    have hst : c.status = .active := hst
    obtain ⟨dev', sizes, hdev, hsizes, hs'⟩ := hwalk Line.deactivate
    obtain ⟨last, hlast⟩ := Option.ne_none_iff_exists'.mp
      (mt List.getLast?_eq_none_iff.mp (hsets hst))
    refine ⟨{ c with status := .inactive, sets := c.sets.dropLast ++ [(last.1, some sizes)] },
      dev', ?_, rfl, rfl, rfl, hs', by simp⟩
    change c.stop dev = _
    rw [stop, if_pos hst, Device.stopCounter, hdev, Outcome.done_bind, hsizes,
      Outcome.done_bind, hlast, Outcome.ofOption_some, Outcome.done_bind]

end Counter

def Server.Ready (s : Server V) (k : ℕ) (st : State) : Prop :=
  ∃ c, s.sessions[k]? = some ⟨c, .serving⟩ ∧ c.running = true ∧ c.status = st ∧
    c.lines.Nodup ∧ s.dev.Has c.lines ∧ (st = .active → c.sets ≠ [])

def quietCall (op : ClientOp) (temp : T) : Call V T := { op, temp, before := [], between := [] }

section quiet

variable [Zero V] [Add V] {s : Server V} {k : ℕ}

theorem Server.Ready.answered (op : ClientOp) (h : s.Ready k op.due) (temp : T) :
    ∃ s', (quietCall op temp : Call V T).answered k s = .done s' ∧ s'.Ready k op.leaves := by
  obtain ⟨c, hk, hrun, hst, hn, hs, hsets⟩ := h
  obtain ⟨c', dev', hd, hrun', hlines, hst', hs', hsets'⟩ :=
    Counter.dispatch_due op hn hs hst fun ha => hsets (hst.symm.trans ha)
  have hlt := (List.getElem?_eq_some_iff.mp hk).1
  refine ⟨{ dev := dev', sessions := s.sessions.set k ⟨c', .serving⟩ }, ?_, c',
    List.getElem?_set_self hlt, hrun'.trans hrun, hst', hlines ▸ hn, hs', fun _ => hsets'⟩
  have hget : (s.sessions.set k ⟨c', .replying (.retval .success)⟩)[k]? =
      some ⟨c', .replying (.retval .success)⟩ := List.getElem?_set_self hlt
  simp [Call.answered, request, quietCall, Server.next, Server.serve, hk, hd, hget, hrun', hrun,
    Server.setSession]

def moreSets (n : ℕ) (temp : T) : List (Call V T) :=
  (List.replicate n [quietCall .continue_ temp, quietCall .stop temp]).flatten

theorem Server.Ready.moreSets (h : s.Ready k .inactive) (n : ℕ) (temp : T) :
    ∃ s', (PMLib.moreSets n temp : List (Call V T)).foldlM (Call.answered k) s = .done s' ∧
      s'.Ready k .inactive := by
  induction n generalizing s with
  | zero => exact ⟨s, rfl, h⟩
  | succ n ih =>
    obtain ⟨s₁, h₁, hr₁⟩ := Server.Ready.answered .continue_ h temp
    obtain ⟨s₂, h₂, hr₂⟩ := Server.Ready.answered .stop hr₁ temp
    obtain ⟨s', h', hr'⟩ := ih hr₂
    refine ⟨s', ?_, hr'⟩
    rw [PMLib.moreSets, List.replicate_succ, List.flatten_cons, List.foldlM_append,
      List.foldlM_cons, h₁, Outcome.done_bind, List.foldlM_cons, h₂, Outcome.done_bind,
      List.foldlM_nil]
    exact h'

omit [Zero V] [Add V] in
theorem stopsSince_moreSets (calls : List (Call V T)) (n : ℕ) (temp : T) :
    stopsSince (calls ++ moreSets n temp) = stopsSince calls + n := by
  induction n with
  | zero => simp [moreSets]
  | succ n ih =>
    rw [moreSets, List.replicate_succ', List.flatten_append, ← List.append_assoc]
    rw [moreSets] at ih
    simp [stopsSince, quietCall] at ih ⊢
    omega

end quiet

/-- One set with START, 4999 more, and one that has no slots. -/
def manySets : List (Call ℤ ℕ) :=
  ([quietCall .start 0, quietCall .stop 0] ++ moreSets 4999 0) ++ [quietCall .continue_ 0]

theorem timing_overrun_manySets : ∃ s₀ s,
    Trace.exec Server.next (.configured [] 1 1)
        [.connection 0 (some ⟨[], 0, false, [1#8]⟩), .send 0 true] = .done s₀ ∧
      manySets.foldlM (Call.answered 0) s₀ = .done s ∧
      manySets.foldlM (Call.run 0) (s₀, Client.created) = .undefined := by
  have hrun : (Trace.exec Server.next (.configured [] 1 1 : Server ℤ)
      [.connection 0 (some ⟨[], 0, false, [1#8]⟩), .send 0 true]).check (fun s₀ =>
        (s₀.waiting 0).any fun c => c.running && c.status == .inactive && c.lines == [0] &&
          s₀.dev.lines[0]?.isSome) = true := by decide +kernel
  obtain ⟨s₀, hs₀, hp⟩ := Outcome.check_eq_true.mp hrun
  obtain ⟨c, hc, hp⟩ := (Option.any_eq_true _ _).mp hp
  simp only [Bool.and_eq_true, beq_iff_eq] at hp
  obtain ⟨⟨⟨hrunning, hst⟩, hlines⟩, hline⟩ := hp
  have h₀ : s₀.Ready 0 ClientOp.start.due := by
    refine ⟨c, Server.waiting_eq_some.mp hc, hrunning, hst, by simp [hlines], ?_, nofun⟩
    intro l hl
    obtain rfl : l = 0 := by simpa [hlines] using hl
    exact Option.isSome_iff_exists.mp hline
  obtain ⟨s₁, h₁, hr₁⟩ := Server.Ready.answered .start h₀ (0 : ℕ)
  obtain ⟨s₂, h₂, hr₂⟩ := Server.Ready.answered .stop hr₁ (0 : ℕ)
  obtain ⟨s₃, h₃, hr₃⟩ := hr₂.moreSets 4999 (0 : ℕ)
  obtain ⟨s, h, _⟩ := Server.Ready.answered .continue_ hr₃ (0 : ℕ)
  have hs : manySets.foldlM (Call.answered 0) s₀ = .done s := by
    rw [manySets, List.foldlM_append, List.foldlM_append, List.foldlM_cons, h₁,
      Outcome.done_bind, List.foldlM_cons, h₂, Outcome.done_bind, List.foldlM_nil,
      Outcome.pure_done, Outcome.done_bind, h₃, Outcome.done_bind, List.foldlM_cons, h,
      Outcome.done_bind, List.foldlM_nil, Outcome.pure_done]
  refine ⟨s₀, s, hs₀, hs, ?_⟩
  rcases Client.calls_run hs with ⟨hfit, _⟩ | ⟨_, hover⟩
  · have hroom := ((timesFit_snoc _ _).mp hfit).2 (by decide)
    rw [stopsSince_moreSets] at hroom
    exact absurd hroom (by decide)
  · exact hover

end PMLib
