import PMLib.LineMask
import PMLib.Measurements

/-! # Every recording can be made

A client that is alone on its device can record any windows on any lines, and its GET is
answered. So what is stated of all replies speaks about replies of every shape. -/
namespace PMLib

variable {V : Type}

def recordWindow (w : List (ℕ → V)) : List (Event V) :=
  [.receive 0 (some 2), .send 0 true] ++ w.map .sample ++ [.receive 0 (some 3), .send 0 true]

def recordAll (m : LineT) (ws : List (List (ℕ → V))) : List (Event V) :=
  [.connection 0 (some ⟨[], 0, false, m.bits⟩), .send 0 true] ++ ws.flatMap recordWindow

theorem recordAll_snoc (m : LineT) (ws : List (List (ℕ → V))) (w : List (ℕ → V)) :
    recordAll m (ws ++ [w]) = recordAll m ws ++ recordWindow w := by
  simp [recordAll]

private theorem foldl_push (w : List (ℕ → V)) (closed : List (List (ℕ → V)))
    (u : List (ℕ → V)) :
    (w.map Event.sample).foldl (Recorder.record 0) ⟨closed, some u⟩ =
      ⟨closed, some (u ++ w)⟩ := by
  induction w generalizing u with
  | nil => simp
  | cons x w ih =>
    have hx : Recorder.record 0 ⟨closed, some u⟩ (.sample x) = ⟨closed, some (u ++ [x])⟩ := rfl
    rw [List.map_cons, List.foldl_cons, hx, ih, List.append_assoc]
    rfl

theorem recording_recordAll (m : LineT) (ws : List (List (ℕ → V))) :
    recording 0 (recordAll m ws) = ⟨ws, none⟩ := by
  induction ws using List.reverseRecOn with
  | nil => rfl
  | append_singleton ws w ih =>
    unfold recording at ih ⊢
    rw [recordAll_snoc, List.foldl_append, ih, recordWindow, List.foldl_append,
      List.foldl_append]
    have hopen : ([.receive 0 (some 2), .send 0 true] : List (Event V)).foldl
        (Recorder.record 0) ⟨ws, none⟩ = ⟨ws, some []⟩ := rfl
    rw [hopen, foldl_push]
    rfl

theorem countP_recordAll (m : LineT) (ws : List (List (ℕ → V))) :
    (recordAll m ws).countP Event.isSample = (ws.map List.length).sum := by
  induction ws using List.reverseRecOn with
  | nil => rfl
  | append_singleton ws w ih =>
    have hw : (w.map Event.sample).countP Event.isSample = w.length := by
      rw [List.countP_map]
      exact List.countP_eq_length.mpr fun _ _ => rfl
    rw [recordAll_snoc, List.countP_append, ih, recordWindow, List.countP_append,
      List.countP_append, hw, List.map_append, List.sum_append]
    simp [Event.isSample]

section steps

variable [Zero V] [Add V]

structure Solo (m : LineT) (nLines : ℕ) (status : State) (s : Server V) (c : Counter) :
    Prop where
  sessions : s.sessions = [⟨c, .serving⟩]
  complete : s.dev.Complete
  device : s.dev.nLines = nLines
  status : c.status = status
  running : c.running = true
  aggregate : c.aggregate = false
  interval : c.interval = 1
  lines : c.lines = m.lines nLines

variable {m : LineT} {nLines : ℕ} {status : State} {s : Server V} {c c' : Counter}

omit [Zero V] [Add V] in
theorem Solo.has (h : Solo m nLines status s c) : s.dev.Has c.lines := by
  refine h.complete.has fun l hl => ?_
  rw [h.lines, LineT.mem_lines] at hl
  rw [h.device]
  omega

omit [Zero V] [Add V] in
theorem Solo.nodup (h : Solo m nLines status s c) : c.lines.Nodup := by
  rw [h.lines]
  exact (m.lines_sorted nLines).imp Nat.ne_of_lt

theorem exec_operation {dev : Device V} {r : Reply V} {op : ℤ}
    (hs : s.sessions = [⟨c, .serving⟩]) (hd : c.dispatch s.dev op = .done (c', dev, r))
    (hrun : c'.running = true) :
    Trace.exec Server.next s [.receive 0 (some op), .send 0 true] =
      .done ⟨dev, [⟨c', .serving⟩]⟩ := by
  rw [Trace.exec_cons]
  refine ⟨⟨dev, [⟨c', .replying r⟩]⟩, ?_, ?_⟩
  · simp [Server.next, hs, Server.serve, hd]
  · simp [Server.next, hrun, Server.setSession]

theorem Solo.opens (h : Solo m nLines .inactive s c) : ∃ s' c',
    Trace.exec Server.next s [.receive 0 (some 2), .send 0 true] = .done s' ∧
      Solo m nLines .active s' c' ∧ c'.sets ≠ [] := by
  obtain ⟨dev, sizes, hdev, hsizes, -, hm, -⟩ :=
    Device.forLines_getLinesSizes h.nodup h.has Line.activate
  let c' : Counter := { c with status := .active, sets := c.sets ++ [(sizes, none)] }
  have hd : c.dispatch s.dev 2 = .done (c', dev, .retval .success) := by
    have hop : Operation.ofInt 2 = some .continue_ := rfl
    simp [Counter.dispatch, hop, Counter.restart, h.status, Device.startCounter, hdev, hsizes, c']
  exact ⟨_, c', exec_operation h.sessions hd h.running,
    ⟨rfl, hm.complete h.complete, hm.nLines.trans h.device, rfl, h.running, h.aggregate,
      h.interval, h.lines⟩, by simp [c']⟩

theorem Solo.samples (h : Solo m nLines status s c) (w : List (ℕ → V)) : ∃ s',
    Trace.exec Server.next s (w.map .sample) = .done s' ∧ Solo m nLines status s' c := by
  induction w generalizing s with
  | nil => exact ⟨s, rfl, h⟩
  | cons x w ih =>
    have hm := Device.pushBackData_mapped s.dev x
    obtain ⟨s', hs', h'⟩ := ih (s := { s with dev := s.dev.pushBackData x })
      { h with complete := hm.complete h.complete, device := hm.nLines.trans h.device }
    exact ⟨s', (Trace.exec_cons Server.next).mpr ⟨_, rfl, hs'⟩, h'⟩

theorem Solo.closes (h : Solo m nLines .active s c) (hsets : c.sets ≠ []) : ∃ s' c',
    Trace.exec Server.next s [.receive 0 (some 3), .send 0 true] = .done s' ∧
      Solo m nLines .inactive s' c' := by
  obtain ⟨dev, sizes, hdev, hsizes, -, hm, -⟩ :=
    Device.forLines_getLinesSizes h.nodup h.has Line.deactivate
  have hlast := List.getLast?_eq_some_getLast hsets
  let sets := c.sets.dropLast ++ [((c.sets.getLast hsets).1, some sizes)]
  let c' : Counter := { c with status := .inactive, sets := sets }
  have hd : c.dispatch s.dev 3 = .done (c', dev, .retval .success) := by
    have hop : Operation.ofInt 3 = some .stop := rfl
    simp [Counter.dispatch, hop, Counter.stop, h.status, Device.stopCounter, hdev, hsizes, hlast,
      c', sets]
  exact ⟨_, c', exec_operation h.sessions hd h.running,
    ⟨rfl, hm.complete h.complete, hm.nLines.trans h.device, rfl, h.running, h.aggregate,
      h.interval, h.lines⟩⟩

theorem Solo.records (h : Solo m nLines .inactive s c) (w : List (ℕ → V)) : ∃ s' c',
    Trace.exec Server.next s (recordWindow w) = .done s' ∧ Solo m nLines .inactive s' c' := by
  obtain ⟨s₁, c₁, h₁, hsolo₁, hsets⟩ := h.opens
  obtain ⟨s₂, h₂, hsolo₂⟩ := hsolo₁.samples w
  obtain ⟨s₃, c₃, h₃, hsolo₃⟩ := hsolo₂.closes hsets
  refine ⟨s₃, c₃, ?_, hsolo₃⟩
  rw [recordWindow, Trace.exec_append_eq_done]
  exact ⟨s₂, (Trace.exec_append_eq_done Server.next).mpr ⟨s₁, h₁, h₂⟩, h₃⟩

theorem setFrequency_native : Counter.setFrequency 1 0 = .done 1 := by decide +kernel

variable (V) in
theorem exists_created (m : LineT) (nLines : ℕ) : ∃ (s : Server V) (c : Counter),
    Trace.exec Server.next (.configured [] 1 nLines) (recordAll m []) = .done s ∧
      Solo m nLines .inactive s c := by
  have hcomplete := (Server.configured_initial (V := V) [] 1 nLines).complete
  have hlines := Counter.setLines_bits nLines m
  obtain ⟨c, dev, hc, ha, hi, hl⟩ := Counter.construct_done 1 ⟨[], 0, false, m.bits⟩
    (Server.configured (V := V) [] 1 nLines).dev rfl setFrequency_native hlines
    (hcomplete.has (Counter.setLines_sorted hlines).2)
  obtain ⟨⟨-, hrun, hst, -, -⟩, -, -, -, -, hm⟩ := Counter.construct_spec hc
  refine ⟨⟨dev, [⟨c, .serving⟩]⟩, c, ?_,
    ⟨rfl, hm.complete hcomplete, hm.nLines, hst, hrun, ha, hi, hl⟩⟩
  have hop : Operation.ofInt 0 = some .create := rfl
  have hid : (Server.configured (V := V) [] 1 nLines).sessions.length + 1 = 1 := rfl
  rw [recordAll, List.flatMap_nil, List.append_nil, Trace.exec_cons]
  refine ⟨⟨dev, [⟨c, .replying (.retval .success)⟩]⟩, ?_, ?_⟩
  · rw [Server.next, hop, if_pos rfl, Server.construct, hid]
    simp only [hc]
    rfl
  · simp [Server.next, hrun, Server.setSession]

theorem exists_recorded (m : LineT) (nLines : ℕ) (ws : List (List (ℕ → V))) :
    ∃ (s : Server V) (c : Counter),
      Trace.exec Server.next (.configured [] 1 nLines) (recordAll m ws) = .done s ∧
        Solo m nLines .inactive s c := by
  induction ws using List.reverseRecOn with
  | nil => exact exists_created V m nLines
  | append_singleton ws w ih =>
    obtain ⟨s, c, hs, hsolo⟩ := ih
    obtain ⟨s', c', hs', hsolo'⟩ := hsolo.records w
    refine ⟨s', c', ?_, hsolo'⟩
    rw [recordAll_snoc, Trace.exec_append_eq_done]
    exact ⟨s, hs, hs'⟩

end steps

/-- In some run, with no buffer beyond an `int`, the reply `r` is being sent to a counter at
native frequency, on the lines that `m` selects, which has recorded the windows `ws`. -/
def NativeReply [Zero V] [Add V] (m : LineT) (nLines : ℕ) (ws : List (List (ℕ → V)))
    (r : GetReply V) : Prop :=
  ∃ (ρ : Run V) (pre : List (Event V)) (t : Server V) (k : ℕ) (c : Counter),
    ρ.Always Server.BuffersFit ∧ pre <+: ρ.events ∧
      Trace.exec Server.next ρ.start pre = .done t ∧
      t.sessions[k]? = some ⟨c, .replying (.data r)⟩ ∧ t.dev.nLines = nLines ∧
      c.interval = 1 ∧ c.aggregate = false ∧ c.lines = m.lines nLines ∧
      (recording k pre).closed = ws

/-- Any windows on any lines are recorded, and asked for, in some run. -/
theorem exists_nativeReply [Zero V] [Add V] (m : LineT) (nLines : ℕ)
    (ws : List (List (ℕ → V))) (hfit : (ws.map List.length).sum < 2 ^ 31) :
    ∃ r, NativeReply m nLines ws r := by
  obtain ⟨s, c, hs, hsolo⟩ := exists_recorded m nLines ws
  let ρ : Run V := ⟨_, _, s, Server.configured_initial [] 1 nLines, hs⟩
  have hk : s.sessions[0]? = some ⟨c, .serving⟩ := by rw [hsolo.sessions]; rfl
  have hb : ρ.Always Server.BuffersFit :=
    ρ.buffersFit_of_samples (by rw [countP_recordAll]; exact hfit)
  obtain ⟨ended, htr⟩ := ρ.tracks_of_serving hs hk hsolo.status
  have hget := Counter.getData_eq Counter.plain_reads hsolo.nodup
    (le_of_eq hsolo.interval.symm) htr hsolo.has (hb _ (List.prefix_refl _) s hs)
  generalize c.windowReply (recording 0 (recordAll m ws)).closed = r at hget
  have hd : c.dispatch s.dev 4 = .done (c, s.dev, .data r) := by
    have hop : Operation.ofInt 4 = some .get := rfl
    simp [Counter.dispatch, hop, Counter.get, hsolo.status, hget]
  have hnext : Trace.exec Server.next (.configured [] 1 nLines)
      (recordAll m ws ++ [Event.receive 0 (some 4)]) =
        .done ⟨s.dev, [⟨c, .replying (.data r)⟩]⟩ := by
    refine (Trace.exec_snoc Server.next).mpr ⟨s, hs, ?_⟩
    simp [Server.next, hsolo.sessions, Server.serve, hd]
  let ρ' : Run V := ⟨_, _, _, Server.configured_initial [] 1 nLines, hnext⟩
  refine ⟨r, ρ', _, _, 0, c, ρ'.buffersFit_of_samples ?_, List.prefix_refl _, hnext, rfl,
    hsolo.device, hsolo.interval, hsolo.aggregate, hsolo.lines, ?_⟩
  · change (recordAll m ws ++ [Event.receive 0 (some 4)]).countP Event.isSample < 2 ^ 31
    rw [List.countP_append, countP_recordAll]
    exact hfit
  · change (recording 0 (recordAll m ws ++ [Event.receive 0 (some 4)])).closed = ws
    rw [recording_snoc, recording_recordAll]
    rfl

end PMLib
