import PMLib.Server
import PMLib.Lib.RefCount

/-! # What one event can do

`Change` lists the effects of an event on a well-formed server, with everything later
proofs need. Only this module unfolds the transition function. -/
namespace PMLib

open Int32Conv RefCount

variable {V : Type}

/-- The device still knows the counter: registered, and its destructor has not run. -/
def Session.attached (ss : Session V) : Bool :=
  ss.counter.registered && match ss.phase with
    | .destroyed => false
    | _ => true

theorem Session.attached_eq {ss : Session V} (h : ss.phase ≠ .destroyed) :
    ss.attached = ss.counter.registered := by
  obtain ⟨c, ph⟩ := ss
  cases ph <;> simp_all [Session.attached]

theorem Phase.ne_destroyed {ph : Phase V} (h : ph.live = true) : ph ≠ .destroyed := by
  rintro rfl
  simp [Phase.live] at h

def Session.enables (ss : Session V) (l : ℕ) : Bool := ss.attached && l ∈ ss.counter.lines

def Counter.SameRequest (c' c : Counter) : Prop :=
  c' = { c with running := c'.running, status := c'.status, sets := c'.sets }

theorem Counter.SameRequest.lines {c' c : Counter} (h : c'.SameRequest c) :
    c'.lines = c.lines := by
  unfold SameRequest at h
  rw [h]

theorem Counter.SameRequest.interval {c' c : Counter} (h : c'.SameRequest c) :
    c'.interval = c.interval := by
  unfold SameRequest at h
  rw [h]

theorem Counter.SameRequest.frequency {c' c : Counter} (h : c'.SameRequest c) :
    c'.frequency = c.frequency := by
  unfold SameRequest at h
  rw [h]

theorem Counter.SameRequest.registered {c' c : Counter} (h : c'.SameRequest c) :
    c'.registered = c.registered := by
  unfold SameRequest at h
  rw [h]

def Counter.activates (c : Counter) (l : ℕ) : Bool := c.status = .active && l ∈ c.lines

def Session.activates (ss : Session V) (l : ℕ) : Bool := ss.counter.activates l

/-- What holds of the `k`-th session, whatever the others do. -/
structure Session.Ok (nLines k : ℕ) (ss : Session V) : Prop where
  id : ss.counter.id = k + 1
  sorted : ss.counter.lines.Pairwise (· < ·)
  lines_lt : ∀ l ∈ ss.counter.lines, l < nLines
  unregistered : ss.counter.registered = false → ss.counter = Counter.unregistered (k + 1)
  live_registered : ∀ r, ss.phase = .serving ∨ ss.phase = .replying r →
    ss.counter.registered = true
  serving_running : ss.phase = .serving → ss.counter.running = true
  finalized : ss.counter.running = false → ss.counter.status = .inactive

/-- Reference counts are exact over all sessions, ended ones included: an ended session
still counts for what it never gave back. -/
structure Server.WellFormed (s : Server V) : Prop where
  complete : s.dev.Complete
  sessions : ∀ (k : ℕ) (ss : Session V), s.sessions[k]? = some ss → ss.Ok s.dev.nLines k
  counterMap : ∀ i : ℕ, i ∈ s.dev.counterMap ↔
    ∃ (k : ℕ) (ss : Session V), i = k + 1 ∧ s.sessions[k]? = some ss ∧ ss.attached = true
  enabled : ∀ (l : ℕ) (ln : Line V), s.dev.lines[l]? = some ln →
    ln.enabled = holders Session.enables s.sessions l
  active : ∀ (l : ℕ) (ln : Line V), s.dev.lines[l]? = some ln →
    ln.active = holders Session.activates s.sessions l
  empty : ∀ (l : ℕ) (ln : Line V), s.dev.lines[l]? = some ln → ln.enabled = 0 →
    ln.active = 0 → ln.data = []

theorem Session.Ok.nodup {nLines k : ℕ} {ss : Session V} (h : ss.Ok nLines k) :
    ss.counter.lines.Nodup := h.sorted.imp Nat.ne_of_lt

theorem Server.WellFormed.has {s : Server V} (hw : s.WellFormed) {k : ℕ} {ss : Session V}
    (hk : s.sessions[k]? = some ss) : s.dev.Has ss.counter.lines :=
  hw.complete.has (hw.sessions k ss hk).lines_lt

theorem Server.WellFormed.registered_of_mem {s : Server V} (hw : s.WellFormed) {k : ℕ}
    {ss : Session V}
    (hk : s.sessions[k]? = some ss) {l : ℕ} (hl : l ∈ ss.counter.lines) :
    ss.counter.registered = true := by
  by_contra hreg
  rw [(hw.sessions k ss hk).unregistered (by simpa using hreg)] at hl
  simp [Counter.unregistered] at hl

def Event.Of (k : ℕ) : Event V → Prop
  | .receive j _ | .send j _ => j = k
  | _ => False

def Event.Delivers (k : ℕ) (op : Operation) : Event V → Prop
  | .receive j (some o) => j = k ∧ Operation.ofInt o = some op
  | _ => False

theorem Event.Delivers.of {k : ℕ} {op : Operation} {e : Event V} (h : e.Delivers k op) :
    e.Of k := by
  cases e with
  | receive j o => cases o with
    | some o => exact h.1
    | none => exact h.elim
  | _ => exact h.elim

theorem Event.Delivers.exists_receive {k : ℕ} {op : Operation} {e : Event V}
    (h : e.Delivers k op) : ∃ o, e = .receive k (some o) ∧ Operation.ofInt o = some op := by
  cases e with
  | receive j o => cases o with
    | some o =>
      obtain ⟨rfl, ho⟩ := h
      exact ⟨o, rfl, ho⟩
    | none => exact h.elim
  | _ => exact h.elim

theorem Event.Delivers.unique {j k : ℕ} {o p : Operation} {e : Event V}
    (hj : e.Delivers j o) (hk : e.Delivers k p) : o = p := by
  cases e with
  | receive i op => cases op with
    | some op => exact Option.some.inj (hj.2.symm.trans hk.2)
    | none => exact hj.elim
  | _ => exact hj.elim

theorem Event.Of.unique {j k : ℕ} {e : Event V} (hj : e.Of j) (hk : e.Of k) : j = k := by
  cases e with
  | receive i o => exact hj.symm.trans hk
  | send i ok => exact hj.symm.trans hk
  | _ => exact hj.elim

def Phase.Plain : Phase V → Prop
  | .serving | .catching | .replying (.retval _) => True
  | _ => False

/-- The handler returns with this send: with the error reply of a catch block, or with the
reply that finalizes the counter. -/
def Server.Ends (s : Server V) (k : ℕ) (ok : Bool) (c : Counter) : Prop :=
  s.sessions[k]? = some ⟨c, .catching⟩ ∨
    ok = true ∧ c.running = false ∧ ∃ r, s.sessions[k]? = some ⟨c, .replying r⟩

def Server.Releases (s : Server V) (e : Event V) (l : ℕ) : Prop :=
  ∃ k c, e = .send k true ∧ s.Ends k true c ∧ l ∈ c.lines ∧ c.registered = true

theorem Server.Ends.live {s : Server V} {k : ℕ} {ok : Bool} {c : Counter}
    (h : s.Ends k ok c) : ∃ ph, s.sessions[k]? = some ⟨c, ph⟩ ∧ ph.live = true := by
  rcases h with h | ⟨_, _, r, h⟩
  · exact ⟨_, h, rfl⟩
  · exact ⟨_, h, rfl⟩

theorem Server.Ends.counter_eq {s : Server V} {k : ℕ} {ok : Bool} {c : Counter}
    (h : s.Ends k ok c) {ss : Session V} (hk : s.sessions[k]? = some ss) : ss.counter = c := by
  obtain ⟨ph, h₀, _⟩ := h.live
  rw [hk] at h₀
  rw [Option.some.inj h₀]

section change

variable [Zero V] [Add V]

inductive Change : Server V → Event V → Server V → Prop where
  | sampled (s : Server V) (x : ℕ → V) :
      Change s (.sample x) { s with dev := s.dev.pushBackData x }
  | ignored (s : Server V) (op : ℤ) (req : Option CreateRequest) :
      Change s (.connection op req) s
  | rejected (s : Server V) (op : ℤ) (req : Option CreateRequest) :
      Change s (.connection op req)
        (s.addSession ⟨Counter.unregistered (s.sessions.length + 1), .catching⟩)
  | registered (s : Server V) (op : ℤ) (req : Option CreateRequest) (c : Counter)
      (dev : Device V) :
      c = { c with id := s.sessions.length + 1, running := true, status := .inactive,
                   sets := [], registered := true } →
      Counter.setFrequency s.dev.maxFrequency c.frequency = .done c.interval →
      c.lines.Pairwise (· < ·) → (∀ l ∈ c.lines, l < s.dev.nLines) →
      (∀ i : ℕ, i ∈ dev.counterMap ↔ i = s.sessions.length + 1 ∨ i ∈ s.dev.counterMap) →
      Device.Mapped s.dev dev (fun l ln => if l ∈ c.lines then ln.enable else ln) →
      Change s (.connection op req)
        ⟨dev, s.sessions ++ [⟨c, .replying (.retval .success)⟩]⟩
  | rephased (s : Server V) (e : Event V) (k : ℕ) (c : Counter) (ph ph' : Phase V) :
      s.sessions[k]? = some ⟨c, ph⟩ → ph.live = true → ph'.Plain → e.Of k →
      (∀ ok, e = .send k ok → ¬ s.Ends k ok c) →
      (∀ r, ph' = .serving ∨ ph' = .replying r → c.registered = true) →
      (ph' = .serving → c.running = true) →
      (e.Delivers k .start ∨ e.Delivers k .continue_ → c.status = .active) →
      (e.Delivers k .stop → c.status = .inactive) → ph' ≠ .replying (.retval .success) →
      Change s e (s.setSession k ⟨c, ph'⟩)
  | answered (s : Server V) (e : Event V) (k : ℕ) (c : Counter) (r : GetReply V) :
      s.sessions[k]? = some ⟨c, .serving⟩ → e.Delivers k .get → c.status = .inactive →
      c.getData Counter.plain s.dev = .done r →
      Change s e (s.setSession k ⟨c, .replying (.data r)⟩)
  | finalized (s : Server V) (e : Event V) (k : ℕ) (c : Counter) :
      s.sessions[k]? = some ⟨c, .serving⟩ → e.Delivers k .finalize → c.status = .inactive →
      Change s e
        (s.setSession k ⟨{ c with running := false }, .replying (.retval .success)⟩)
  | opened (s : Server V) (e : Event V) (k : ℕ) (c : Counter) (dev : Device V) (sizes : SetT)
      (earlier : List CounterSet) :
      s.sessions[k]? = some ⟨c, .serving⟩ → c.status = .inactive →
      (e.Delivers k .start ∧ earlier = [] ∨ e.Delivers k .continue_ ∧ earlier = c.sets) →
      dev.counterMap = s.dev.counterMap →
      Device.Mapped s.dev dev (fun l ln => if l ∈ c.lines then ln.activate else ln) →
      (∀ l ∈ c.lines, ∀ ln, dev.lines[l]? = some ln → sizes.getD l 0 = ln.getSize) →
      Change s e ⟨dev, s.sessions.set k
        ⟨{ c with status := .active, sets := earlier ++ [(sizes, none)] },
          .replying (.retval .success)⟩⟩
  | closed (s : Server V) (e : Event V) (k : ℕ) (c : Counter) (dev : Device V) (sizes : SetT)
      (last : CounterSet) :
      s.sessions[k]? = some ⟨c, .serving⟩ → c.status = .active → e.Delivers k .stop →
      c.sets.getLast? = some last → dev.counterMap = s.dev.counterMap →
      Device.Mapped s.dev dev (fun l ln => if l ∈ c.lines then ln.deactivate else ln) →
      (∀ l ∈ c.lines, ∀ ln, dev.lines[l]? = some ln → sizes.getD l 0 = ln.getSize) →
      Change s e ⟨dev, s.sessions.set k
        ⟨{ c with status := .inactive, sets := c.sets.dropLast ++ [(last.1, some sizes)] },
          .replying (.retval .success)⟩⟩
  | destroyed (s : Server V) (k : ℕ) (c : Counter) (ph : Phase V) (dev : Device V) :
      s.sessions[k]? = some ⟨c, ph⟩ → ph.live = true → s.Ends k true c →
      c.registered = true →
      (∀ i : ℕ, i ∈ dev.counterMap ↔ i ≠ c.id ∧ i ∈ s.dev.counterMap) →
      Device.Mapped s.dev dev (fun l ln => if l ∈ c.lines then ln.release else ln) →
      Change s (.send k true) ⟨dev, s.sessions.set k ⟨c, .destroyed⟩⟩
  | dropped (s : Server V) (k : ℕ) (c : Counter) :
      s.sessions[k]? = some ⟨c, .catching⟩ → c.registered = false →
      Change s (.send k true) (s.setSession k ⟨c, .destroyed⟩)
  | escaped (s : Server V) (k : ℕ) (c : Counter) :
      s.sessions[k]? = some ⟨c, .catching⟩ →
      Change s (.send k false) (s.setSession k ⟨c, .escaped⟩)

private theorem serve_done {s : Server V} {k : ℕ} {c c' : Counter} {op : ℤ} {dev : Device V}
    {r : Reply V} (he : c.dispatch s.dev op = .done (c', dev, r)) :
    s.serve k c op = .done ⟨dev, s.sessions.set k ⟨c', .replying r⟩⟩ := by
  simp [Server.serve, he]

private theorem serve_cases {s u : Server V} {k : ℕ} {c : Counter} {op : ℤ}
    (h : s.serve k c op = .done u) :
    (∃ c' dev r, c.dispatch s.dev op = .done (c', dev, r) ∧
      u = ⟨dev, s.sessions.set k ⟨c', .replying r⟩⟩) ∨
    c.dispatch s.dev op = .failed ∧ u = s.setSession k ⟨c, .catching⟩ := by
  unfold Server.serve at h
  split at h
  · exact .inl ⟨_, _, _, ‹_›, (Outcome.done.inj h).symm⟩
  · exact .inr ⟨‹_›, (Outcome.done.inj h).symm⟩
  · simp at h

private theorem Change.replied {s : Server V} (hw : s.WellFormed) {k : ℕ} {c : Counter}
    (hk : s.sessions[k]? = some ⟨c, .serving⟩) (op : ℤ) (ph : Phase V) (hp : ph.Plain)
    (hs : ph ≠ .serving) (hne : ph ≠ .replying (.retval .success))
    (ho : Operation.ofInt op = some .start ∨ Operation.ofInt op = some .continue_ →
      c.status = .active)
    (hc : Operation.ofInt op = some .stop → c.status = .inactive) :
    Change s (.receive k (some op)) (s.setSession k ⟨c, ph⟩) := by
  have hreg := (hw.sessions k _ hk).live_registered (.retval .error) (.inl rfl)
  refine .rephased s _ k c .serving ph hk rfl hp rfl (by simp) (fun _ _ => hreg)
    (fun h => absurd h hs) ?_ ?_ hne
  · rintro (⟨_, h⟩ | ⟨_, h⟩)
    · exact ho (.inl h)
    · exact ho (.inr h)
  · rintro ⟨_, h⟩
    exact hc h

private theorem opening_change {s u : Server V} (hw : s.WellFormed) {k : ℕ} {c : Counter}
    {op : ℤ} (hk : s.sessions[k]? = some ⟨c, .serving⟩) {earlier : List CounterSet}
    (hop : Operation.ofInt op = some .start ∧ earlier = [] ∨
      Operation.ofInt op = some .continue_ ∧ earlier = c.sets)
    (hd : c.dispatch s.dev op = if c.status = .inactive then do
        let dev ← s.dev.startCounter c.lines
        let sizes ← dev.getLinesSizes c.lines
        .done ({ c with status := .active, sets := earlier ++ [(sizes, none)] }, dev,
          .retval .success)
      else .done (c, s.dev, .retval .error))
    (h : s.serve k c op = .done u) : Change s (.receive k (some op)) u := by
  cases hst : c.status with
  | active =>
    have he : c.dispatch s.dev op = .done (c, s.dev, .retval .error) := by
      rw [hd, if_neg (by simp [hst])]
    obtain rfl := Outcome.done.inj ((serve_done he).symm.trans h)
    refine .replied hw hk op _ trivial (by simp) (by simp) (fun _ => hst) fun hstop => ?_
    rcases hop with ⟨hop, -⟩ | ⟨hop, -⟩ <;> simp [hop] at hstop
  | inactive =>
    obtain ⟨dev, sizes, hdev, hsizes, hmap, hm, hget⟩ :=
      Device.forLines_getLinesSizes (hw.sessions k _ hk).nodup (hw.has hk) Line.activate
    have he : c.dispatch s.dev op =
        .done ({ c with status := .active, sets := earlier ++ [(sizes, none)] }, dev,
          .retval .success) := by
      rw [hd, if_pos hst, Device.startCounter, hdev, Outcome.done_bind, hsizes, Outcome.done_bind]
    obtain rfl := Outcome.done.inj ((serve_done he).symm.trans h)
    refine .opened s _ k c dev sizes earlier hk hst ?_ hmap hm hget
    exact hop.imp (fun h => ⟨⟨rfl, h.1⟩, h.2⟩) fun h => ⟨⟨rfl, h.1⟩, h.2⟩

private theorem start_change {s u : Server V} (hw : s.WellFormed) {k : ℕ} {c : Counter}
    {op : ℤ} (hk : s.sessions[k]? = some ⟨c, .serving⟩)
    (hop : Operation.ofInt op = some .start) (h : s.serve k c op = .done u) :
    Change s (.receive k (some op)) u := by
  have hd : c.dispatch s.dev op = c.start s.dev := by simp [Counter.dispatch, hop]
  exact opening_change hw hk (.inl ⟨hop, rfl⟩) hd h

private theorem restart_change {s u : Server V} (hw : s.WellFormed) {k : ℕ} {c : Counter}
    {op : ℤ} (hk : s.sessions[k]? = some ⟨c, .serving⟩)
    (hop : Operation.ofInt op = some .continue_) (h : s.serve k c op = .done u) :
    Change s (.receive k (some op)) u := by
  have hd : c.dispatch s.dev op = c.restart s.dev := by simp [Counter.dispatch, hop]
  exact opening_change hw hk (.inr ⟨hop, rfl⟩) hd h

private theorem stop_change {s u : Server V} (hw : s.WellFormed) {k : ℕ} {c : Counter}
    {op : ℤ} (hk : s.sessions[k]? = some ⟨c, .serving⟩)
    (hop : Operation.ofInt op = some .stop) (h : s.serve k c op = .done u) :
    Change s (.receive k (some op)) u := by
  have hd : c.dispatch s.dev op = c.stop s.dev := by simp [Counter.dispatch, hop]
  cases hst : c.status with
  | inactive =>
    have he : c.dispatch s.dev op = .done (c, s.dev, .retval .error) := by
      simp [hd, Counter.stop, hst]
    obtain rfl := Outcome.done.inj ((serve_done he).symm.trans h)
    exact .replied hw hk op _ trivial (by simp) (by simp) (by simp [hop]) (fun _ => hst)
  | active =>
    obtain ⟨dev, sizes, hdev, hsizes, hmap, hm, hget⟩ :=
      Device.forLines_getLinesSizes (hw.sessions k _ hk).nodup (hw.has hk) Line.deactivate
    unfold Server.serve at h
    rw [hd] at h
    simp only [Counter.stop, hst, if_true, Device.stopCounter, hdev, Outcome.done_bind,
      hsizes] at h
    cases hl : c.sets.getLast? with
    | none => simp [hl] at h
    | some last =>
      simp only [hl, Outcome.ofOption_some, Outcome.done_bind, Outcome.done.injEq] at h
      subst h
      exact .closed s _ k c dev sizes last hk hst ⟨rfl, hop⟩ hl hmap hm hget

private theorem get_change {s u : Server V} (hw : s.WellFormed) {k : ℕ} {c : Counter}
    {op : ℤ} (hk : s.sessions[k]? = some ⟨c, .serving⟩)
    (hop : Operation.ofInt op = some .get) (h : s.serve k c op = .done u) :
    Change s (.receive k (some op)) u := by
  have hd : c.dispatch s.dev op = c.get s.dev := by simp [Counter.dispatch, hop]
  rcases serve_cases h with ⟨c', dev, r, hr, rfl⟩ | ⟨_, rfl⟩
  · rw [hd] at hr
    unfold Counter.get at hr
    split_ifs at hr with hst
    · obtain ⟨g, hg, hr⟩ := Outcome.bind_eq_done.mp hr
      obtain ⟨rfl, rfl, rfl⟩ : c = c' ∧ s.dev = dev ∧ .data g = r := by simpa using hr
      exact .answered s _ k c g hk ⟨rfl, hop⟩ hst hg
    · obtain ⟨rfl, rfl, rfl⟩ : c = c' ∧ s.dev = dev ∧ .retval .error = r := by
        simpa using hr
      exact .replied hw hk op _ trivial (by simp) (by simp) (by simp [hop]) (by simp [hop])
  · exact .replied hw hk op _ trivial (by simp) (by simp) (by simp [hop]) (by simp [hop])

private theorem finalize_change {s u : Server V} (hw : s.WellFormed) {k : ℕ} {c : Counter}
    {op : ℤ} (hk : s.sessions[k]? = some ⟨c, .serving⟩)
    (hop : Operation.ofInt op = some .finalize) (h : s.serve k c op = .done u) :
    Change s (.receive k (some op)) u := by
  have hd : c.dispatch s.dev op = c.finalize s.dev := by simp [Counter.dispatch, hop]
  cases hst : c.status with
  | inactive =>
    have he : c.dispatch s.dev op =
        .done ({ c with running := false }, s.dev, .retval .success) := by
      simp [hd, Counter.finalize, hst]
    obtain rfl := Outcome.done.inj ((serve_done he).symm.trans h)
    exact .finalized s (.receive k (some op)) k c hk ⟨rfl, hop⟩ hst
  | active =>
    have he : c.dispatch s.dev op = .done (c, s.dev, .retval .error) := by
      simp [hd, Counter.finalize, hst]
    obtain rfl := Outcome.done.inj ((serve_done he).symm.trans h)
    exact .replied hw hk op _ trivial (by simp) (by simp) (fun _ => hst) (by simp [hop])

private theorem serve_change {s u : Server V} (hw : s.WellFormed) {k : ℕ} {c : Counter}
    {op : ℤ} (hk : s.sessions[k]? = some ⟨c, .serving⟩) (h : s.serve k c op = .done u) :
    Change s (.receive k (some op)) u := by
  by_cases h₁ : Operation.ofInt op = some .start
  · exact start_change hw hk h₁ h
  by_cases h₂ : Operation.ofInt op = some .continue_
  · exact restart_change hw hk h₂ h
  by_cases h₃ : Operation.ofInt op = some .stop
  · exact stop_change hw hk h₃ h
  by_cases h₄ : Operation.ofInt op = some .get
  · exact get_change hw hk h₄ h
  by_cases h₅ : Operation.ofInt op = some .finalize
  · exact finalize_change hw hk h₅ h
  have hd : c.dispatch s.dev op = .done (c, s.dev, .retval .error) := by
    unfold Counter.dispatch
    split <;> simp_all
  obtain rfl := Outcome.done.inj ((serve_done hd).symm.trans h)
  exact .replied hw hk op _ trivial (by simp) (by simp) (by simp [h₁, h₂]) (by simp [h₃])

private theorem destroy_change {s u : Server V} (hw : s.WellFormed) {k : ℕ} {c : Counter}
    {ph : Phase V} (hk : s.sessions[k]? = some ⟨c, ph⟩) (hreg : c.registered = true)
    (hl : ph.live = true) (he : s.Ends k true c)
    (h : s.destroy k c = .done u) : Change s (.send k true) u := by
  unfold Server.destroy at h
  rw [if_pos hreg] at h
  obtain ⟨dev, hd, h⟩ := Outcome.bind_eq_done.mp h
  obtain rfl := Outcome.done.inj h
  have hok := hw.sessions k _ hk
  have hatt : (⟨c, ph⟩ : Session V).attached = true := by
    rw [Session.attached_eq (Phase.ne_destroyed hl), hreg]
  have hid : c.id ∈ s.dev.counterMap := (hw.counterMap c.id).mpr ⟨k, _, hok.id, hk, hatt⟩
  obtain ⟨hmap, hm⟩ := Device.deregisterCounter_spec hok.nodup hid hd
  refine .destroyed s k c ph dev hk hl he hreg (fun i => ?_) hm
  rw [hmap, Std.TreeMap.mem_erase, ne_eq, Std.LawfulEqCmp.compare_eq_iff_eq, @eq_comm _ c.id]

/-- Everything that one event does to a well-formed server. -/
theorem next_change {s u : Server V} {e : Event V} (hw : s.WellFormed)
    (h : s.next e = .done u) : Change s e u := by
  cases e with
  | sample x =>
    obtain rfl := Outcome.done.inj h
    exact .sampled s x
  | connection op req =>
    simp only [Server.next] at h
    split_ifs at h
    · simp only [Server.construct] at h
      split at h
      case h_1 c dev heq =>
        obtain rfl := Outcome.done.inj h
        cases req with
        | none => simp at heq
        | some req =>
          obtain ⟨⟨h₁, h₂, h₃, h₄, h₅⟩, hf, hs, hlt, hmap, hm⟩ := Counter.construct_spec heq
          refine .registered s op _ c dev ?_ hf hs hlt hmap hm
          cases c
          simp_all
      · obtain rfl := Outcome.done.inj h
        exact .rejected s op req
      · simp at h
    · obtain rfl := Outcome.done.inj h
      exact .ignored s op req
  | receive k op =>
    simp only [Server.next] at h
    split at h
    · exact serve_change hw ‹_› h
    case h_2 c hk =>
      obtain rfl := Outcome.done.inj h
      have hreg := (hw.sessions k _ hk).live_registered (.retval .error) (.inl rfl)
      exact .rephased s _ k c .serving .catching hk rfl trivial rfl (by simp) (fun _ _ => hreg)
        (by simp) (by simp [Event.Delivers]) (by simp [Event.Delivers]) (by simp)
    · simp at h
  | send k ok =>
    simp only [Server.next] at h
    split at h
    case h_1 c r hk =>
      have hreg := (hw.sessions k _ hk).live_registered r (.inr rfl)
      split_ifs at h with hok hrun
      · obtain rfl := Outcome.done.inj h
        exact .rephased s _ k c (.replying r) .serving hk rfl trivial rfl
          (by simp [Server.Ends, hk, hrun]) (fun _ _ => hreg) (fun _ => hrun)
          (by simp [Event.Delivers]) (by simp [Event.Delivers]) (by simp)
      · subst hok
        exact destroy_change hw hk hreg rfl (.inr ⟨rfl, by simpa using hrun, r, hk⟩) h
      · obtain rfl := Outcome.done.inj h
        exact .rephased s _ k c (.replying r) .catching hk rfl trivial rfl
          (by simp [Server.Ends, hk, hok]) (fun _ _ => hreg) (by simp)
          (by simp [Event.Delivers]) (by simp [Event.Delivers]) (by simp)
    case h_2 c hk =>
      split_ifs at h with hok
      · subst hok
        cases hreg : c.registered with
        | true => exact destroy_change hw hk hreg rfl (.inl hk) h
        | false =>
          simp only [Server.destroy, hreg, Bool.false_eq_true, if_false,
            Outcome.done_bind, Outcome.done.injEq] at h
          subst h
          exact .dropped s k c hk hreg
      · obtain rfl := Outcome.done.inj h
        obtain rfl : ok = false := by simpa using hok
        exact .escaped s k c hk
    · simp at h

/-- A reply that gets through ends the turn: the session waits for the next opcode, or its
handler returns. -/
theorem next_send {s u : Server V} {k : ℕ} {c : Counter} {r : Reply V}
    (hk : s.sessions[k]? = some ⟨c, .replying r⟩) (hrun : c.running = true)
    (h : s.next (.send k true) = .done u) : u = s.setSession k ⟨c, .serving⟩ := by
  simp only [Server.next, hk, hrun, if_true] at h
  exact (Outcome.done.inj h).symm

theorem next_delivers {s u : Server V} {e : Event V} (h : s.next e = .done u) {k : ℕ}
    {op : Operation} (hd : e.Delivers k op) :
    ∃ c, s.sessions[k]? = some ⟨c, .serving⟩ := by
  cases e with
  | receive j o => cases o with
    | some o =>
      obtain ⟨rfl, _⟩ := hd
      simp only [Server.next] at h
      split at h
      · exact ⟨_, ‹_›⟩
      · exact ⟨_, ‹_›⟩
      · cases h
    | none => exact hd.elim
  | _ => exact hd.elim

end change

end PMLib
