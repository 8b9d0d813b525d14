import PMLib.Measurements

/-! # Client times and server sets

The client keeps the times of its own calls; it never learns set indices from the server.
A call is one exchange on the client's connection. Other sessions and the device go on
before the server reads the opcode and until it has replied. -/
namespace PMLib

open Int32Conv

variable {V T : Type}

/-- The members of a client's counter that the calls use. A slot of `timing` that was never
written holds nothing. -/
structure Client (T : Type) where
  nextTiming : ℕ
  timing : List (Option T)
  wattsSetsSize : ℤ
  deriving DecidableEq

namespace Client

def TIMELEN : ℕ := 10000

def created : Client T := ⟨0, List.replicate TIMELEN none, 0⟩

def storeTiming (m : Client T) (i : ℕ) (temp : T) : Outcome (Client T) :=
  if i < m.timing.length then .done { m with timing := m.timing.set i (some temp) }
  else .undefined

end Client

def Reply.serverResponse : Reply V → ℤ
  | .retval r => r.toInt
  | .data r => r.wattsSize

/-- What else happens until the server reads the opcode, and until it has replied. -/
structure Exchange (V : Type) where
  before : List (Event V)
  between : List (Event V)

def Exchange.Alone (k : ℕ) (x : Exchange V) : Prop := ∀ e ∈ x.before ++ x.between, ¬ e.Of k

inductive ClientOp where
  | start | continue_ | stop
  deriving DecidableEq, Repr

def ClientOp.typeMark : ClientOp → ℤ
  | .start => 1
  | .continue_ => 2
  | .stop => 3

structure Call (V T : Type) extends Exchange V where
  op : ClientOp
  temp : T

section calls

variable [Zero V] [Add V]

def request (k : ℕ) (typeMark : ℤ) (x : Exchange V) (s : Server V) :
    Outcome (Server V × Reply V) := do
  let s ← Trace.exec Server.next s (x.before ++ .receive k (some typeMark) :: x.between)
  match s.sessions[k]? with
  | some ⟨_, .replying r⟩ => do
    let s ← s.next (.send k true)
    .done (s, r)
  | _ => .failed

def pmStartCounter (k : ℕ) (temp : T) (x : Exchange V) (s : Server V) (m : Client T) :
    Outcome (Server V × Client T) := do
  let (s, r) ← request k 1 x s
  if r.serverResponse < 0 then .failed
  else
    let m := { m with nextTiming := 0 }
    let m ← m.storeTiming m.nextTiming temp
    .done (s, m)

def pmContinueCounter (k : ℕ) (temp : T) (x : Exchange V) (s : Server V) (m : Client T) :
    Outcome (Server V × Client T) := do
  let (s, r) ← request k 2 x s
  if r.serverResponse < 0 then .failed
  else
    let m ← m.storeTiming (m.nextTiming * 2) temp
    .done (s, m)

/-- The time is stored, and the index advanced, before the server is asked. -/
def pmStopCounter (k : ℕ) (temp : T) (x : Exchange V) (s : Server V) (m : Client T) :
    Outcome (Server V × Client T) := do
  let m ← m.storeTiming (m.nextTiming * 2 + 1) temp
  let m := { m with nextTiming := m.nextTiming + 1 }
  let (s, r) ← request k 3 x s
  if r.serverResponse < 0 then .failed else .done (s, m)

/-- Up to the header. After a status code the client waits for a header that never comes. -/
def pmGetCounterData (k : ℕ) (x : Exchange V) (s : Server V) (m : Client T) :
    Outcome (Server V × Client T) := do
  let (s, r) ← request k 4 x s
  if r.serverResponse < 0 then .failed
  else
    match r with
    | .data r => .done (s, { m with wattsSetsSize := r.wattsSetsSize })
    | .retval _ => .undefined

def Call.run (k : ℕ) (sm : Server V × Client T) (x : Call V T) :
    Outcome (Server V × Client T) :=
  match x.op with
  | .start => pmStartCounter k x.temp x.toExchange sm.1 sm.2
  | .continue_ => pmContinueCounter k x.temp x.toExchange sm.1 sm.2
  | .stop => pmStopCounter k x.temp x.toExchange sm.1 sm.2

def Call.answered (k : ℕ) (s : Server V) (x : Call V T) : Outcome (Server V) := do
  let (s, r) ← request k x.op.typeMark x.toExchange s
  match r with
  | .retval .success => .done s
  | _ => .failed

end calls

/-- The times of the calls, as a recorder would keep them: each window has the time of the
call that opened the set and the time of the call that closed it. -/
def Recorder.note (r : Recorder T) (x : Call V T) : Recorder T :=
  match x.op with
  | .start => r.start.push x.temp
  | .continue_ => r.resume.push x.temp
  | .stop => (r.push x.temp).stop

def Recorder.Similar {α β : Type} (r : Recorder α) (q : Recorder β) : Prop :=
  r.closed.length = q.closed.length ∧ r.opened.isSome = q.opened.isSome

namespace Recorder

variable {α β : Type} {r : Recorder α} {q : Recorder β}

theorem Similar.start (h : r.Similar q) : r.start.Similar q.start := by
  obtain ⟨rc, ro⟩ := r
  obtain ⟨qc, qo⟩ := q
  cases ro <;> cases qo <;> simp_all [Similar, Recorder.start]

theorem Similar.resume (h : r.Similar q) : r.resume.Similar q.resume := by
  obtain ⟨rc, ro⟩ := r
  obtain ⟨qc, qo⟩ := q
  cases ro <;> cases qo <;> simp_all [Similar, Recorder.resume]

theorem Similar.stop (h : r.Similar q) : r.stop.Similar q.stop := by
  obtain ⟨rc, ro⟩ := r
  obtain ⟨qc, qo⟩ := q
  cases ro <;> cases qo <;> simp_all [Similar, Recorder.stop]

theorem similar_push (r : Recorder α) (x : α) : (r.push x).Similar r := by
  simp [Similar, push]

end Recorder

def ClientOp.perform {α : Type} (op : ClientOp) (r : Recorder α) : Recorder α :=
  match op with
  | .start => r.start
  | .continue_ => r.resume
  | .stop => r.stop

theorem Recorder.Similar.perform {α β : Type} {r : Recorder α} {q : Recorder β}
    (h : r.Similar q) (op : ClientOp) : (op.perform r).Similar (op.perform q) := by
  cases op with
  | start => exact h.start
  | continue_ => exact h.resume
  | stop => exact h.stop

theorem Recorder.similar_record {k : ℕ} {r : Recorder (ℕ → V)} {e : Event V}
    (hof : ¬ e.Of k) : (r.record k e).Similar r := by
  by_cases hx : ∃ x, e = .sample x
  · obtain ⟨x, rfl⟩ := hx
    exact similar_push r x
  · cases e with
    | sample x => exact absurd ⟨x, rfl⟩ hx
    | receive j op =>
      cases op with
      | some op =>
        have hj : j ≠ k := hof
        simp [record, hj, Similar]
      | none => exact ⟨rfl, rfl⟩
    | _ => exact ⟨rfl, rfl⟩

section server

variable [Zero V] [Add V] (ρ : Run V) {es : List (Event V)} {s : Server V} {k : ℕ}

theorem Run.exec_alone (hs : Trace.exec Server.next ρ.start es = .done s) {xs : List (Event V)}
    (hx : ∀ e ∈ xs, ¬ e.Of k) {u : Server V} (hu : Trace.exec Server.next s xs = .done u)
    {ss : Session V} (hk : s.sessions[k]? = some ss) :
    u.sessions[k]? = some ss ∧ (recording k (es ++ xs)).Similar (recording k es) := by
  refine Trace.exec_invariant_of_alwaysStep Server.next (fun ys t => t.sessions[k]? = some ss ∧
    (recording k (es ++ ys)).Similar (recording k es)) ⟨hk, ?_⟩ ?_
    (Trace.alwaysStep_of_forall_mem Server.next fun e he _ => hx e he) hu
  · rw [List.append_nil]
    exact ⟨rfl, rfl⟩
  · rintro ys t e v ht ⟨htk, hsim⟩ hof hn
    obtain ⟨hw, _⟩ := ρ.follows ((Trace.exec_append_eq_done Server.next).mpr ⟨s, hs, ht⟩)
    refine ⟨((next_change hw hn).frame htk).resolve_right fun h => hof h.1, ?_⟩
    rw [← List.append_assoc, recording_snoc]
    have := Recorder.similar_record (r := recording k (es ++ ys)) hof
    exact ⟨this.1.trans hsim.1, this.2.trans hsim.2⟩

def ClientOp.operation : ClientOp → Operation
  | .start => .start
  | .continue_ => .continue_
  | .stop => .stop

omit [Zero V] [Add V] in
theorem ClientOp.delivers (k : ℕ) (op : ClientOp) :
    (Event.receive k (some op.typeMark) : Event V).Delivers k op.operation := by
  cases op <;> exact ⟨rfl, rfl⟩

theorem request_eq_done {x : Exchange V} {typeMark : ℤ} {s' : Server V} {r : Reply V}
    (h : request k typeMark x s = .done (s', r)) :
    ∃ s₁ s₂ s₃ c, Trace.exec Server.next s x.before = .done s₁ ∧
      s₁.next (.receive k (some typeMark)) = .done s₂ ∧
      Trace.exec Server.next s₂ x.between = .done s₃ ∧
      s₃.sessions[k]? = some ⟨c, .replying r⟩ ∧ s₃.next (.send k true) = .done s' := by
  obtain ⟨s₃, h₃, h⟩ := Outcome.bind_eq_done.mp h
  obtain ⟨s₁, h₁, h₃⟩ := (Trace.exec_append_eq_done Server.next).mp h₃
  obtain ⟨s₂, h₂, h₃⟩ := (Trace.exec_cons Server.next).mp h₃
  split at h
  case h_1 c r' hc =>
    obtain ⟨u, hu, h⟩ := Outcome.bind_eq_done.mp h
    obtain ⟨rfl, rfl⟩ := Prod.mk.inj (Outcome.done.inj h)
    exact ⟨s₁, s₂, s₃, c, h₁, h₂, h₃, hc, hu⟩
  · cases h

def ClientOp.Performs (op : ClientOp) (c c' : Counter) : Prop :=
  match op with
  | .start => c.status = .inactive ∧ c'.status = .active ∧ ∃ sizes, c'.sets = [(sizes, none)]
  | .continue_ =>
    c.status = .inactive ∧ c'.status = .active ∧ ∃ sizes, c'.sets = c.sets ++ [(sizes, none)]
  | .stop => c.status = .active ∧ c'.status = .inactive ∧ ∃ last sizes,
    c.sets.getLast? = some last ∧ c'.sets = c.sets.dropLast ++ [(last.1, some sizes)]

theorem Run.accepted (hs : Trace.exec Server.next ρ.start es = .done s) {c c' : Counter}
    {u : Server V} {op : ClientOp} (hk : s.sessions[k]? = some ⟨c, .serving⟩)
    (hn : s.next (.receive k (some op.typeMark)) = .done u)
    (hk' : u.sessions[k]? = some ⟨c', .replying (.retval .success)⟩) :
    (op = .stop ↔ (recording k es).opened.isSome = true) ∧ c'.running = true ∧
      op.Performs c c' ∧
      recording k (es ++ [.receive k (some op.typeMark)]) = op.perform (recording k es) := by
  obtain ⟨hw, hf⟩ := ρ.follows hs
  have hok := hw.sessions k _ hk
  have hreg := hok.live_registered (.retval .error) (.inl rfl)
  have hrun : c.running = true := hok.serving_running rfl
  obtain ⟨ended, pending, htr⟩ := hf.tracked k _ hk rfl hreg
  have hd := ClientOp.delivers (V := V) k op
  have hopened : (recording k es).opened.isSome = true ↔ c.status = .active := by
    rw [htr.opened]
    exact htr.status_active.symm
  rw [recording_snoc, hopened]
  obtain hkept | ⟨sizes, _, hst, hst', hsets, hrun', hd', _⟩ |
      ⟨sizes, last, hst, hst', hd', hlast, hsets, hrun', _⟩ := (next_change hw hn).sets hk hk'
  · refine absurd rfl (hkept.refused ?_)
    cases op with
    | start => exact .inl hd
    | continue_ => exact .inr (.inl hd)
    | stop => exact .inr (.inr hd)
  · simp only at hst hst' hsets hrun'
    rw [hst, hrun', hrun]
    rcases hd' with ⟨hd', rfl⟩ | ⟨hd', rfl⟩
    · have hop := hd.unique hd'
      cases op <;> cases hop
      exact ⟨by simp, rfl, ⟨hst, hst', sizes, hsets⟩, Recorder.record_start hd⟩
    · have hop := hd.unique hd'
      cases op <;> cases hop
      exact ⟨by simp, rfl, ⟨hst, hst', sizes, hsets⟩, Recorder.record_continue hd⟩
  · simp only at hst hst' hlast hsets hrun'
    rw [hst, hrun', hrun]
    have hop := hd.unique hd'
    cases op <;> cases hop
    exact ⟨by simp, rfl, ⟨hst, hst', last, sizes, hlast, hsets⟩, Recorder.record_stop hd⟩

/-- A call answered with success: it was due, the session waits for the next opcode, and its
sets and windows are as the call leaves them. -/
theorem Run.answered (hs : Trace.exec Server.next ρ.start es = .done s) {c : Counter}
    (hk : s.sessions[k]? = some ⟨c, .serving⟩) {x : Call V T} (ha : x.toExchange.Alone k)
    {s' : Server V} (h : x.answered k s = .done s') :
    ∃ es' c', Trace.exec Server.next ρ.start es' = .done s' ∧
      s'.sessions[k]? = some ⟨c', .serving⟩ ∧ x.op.Performs c c' ∧
      (x.op = .stop ↔ (recording k es).opened.isSome = true) ∧
      (recording k es').Similar (x.op.perform (recording k es)) := by
  obtain ⟨⟨s₄, r⟩, hreq, h⟩ := Outcome.bind_eq_done.mp h
  have hr : s₄ = s' ∧ r = .retval .success := by
    dsimp only at h
    split at h
    · exact ⟨Outcome.done.inj h, rfl⟩
    · cases h
  obtain ⟨rfl, rfl⟩ := hr
  obtain ⟨s₁, s₂, s₃, c', h₁, h₂, h₃, hc', h₄⟩ := request_eq_done hreq
  have hbefore : ∀ e ∈ x.before, ¬ e.Of k := fun e he => ha e (List.mem_append_left _ he)
  have hbetween : ∀ e ∈ x.between, ¬ e.Of k := fun e he => ha e (List.mem_append_right _ he)
  obtain ⟨hk₁, hsim₁⟩ := ρ.exec_alone hs hbefore h₁ hk
  have hs₁ := (Trace.exec_append_eq_done Server.next).mpr ⟨s, hs, h₁⟩
  have hs₂ := (Trace.exec_snoc Server.next).mpr ⟨s₁, hs₁, h₂⟩
  have hk₂ : s₂.sessions[k]? = some ⟨c', .replying (.retval .success)⟩ := by
    obtain ⟨hw, _⟩ := ρ.follows hs₁
    obtain ⟨ss, hss, _⟩ := (next_change hw h₂).kept hk₁
    obtain ⟨hss', _⟩ := ρ.exec_alone hs₂ hbetween h₃ hss
    obtain rfl := Option.some.inj (hc'.symm.trans hss')
    exact hss
  obtain ⟨hdue, hrun, hperforms, hrec⟩ := ρ.accepted hs₁ hk₁ h₂ hk₂
  obtain ⟨hk₃, hsim₃⟩ := ρ.exec_alone hs₂ hbetween h₃ hk₂
  have hs₃ := (Trace.exec_append_eq_done Server.next).mpr ⟨s₂, hs₂, h₃⟩
  have hs₄ := (Trace.exec_snoc Server.next).mpr ⟨s₃, hs₃, h₄⟩
  refine ⟨_, c', hs₄, ?_, hperforms, by rw [hdue, hsim₁.2], ?_⟩
  · rw [next_send hc' hrun h₄]
    exact List.getElem?_set_self (List.getElem?_eq_some_iff.mp hc').1
  · rw [recording_snoc, Recorder.record_refused (by simp) (by simp [Event.Delivers])
      (by simp [Event.Delivers])]
    have hperf := hsim₁.perform x.op
    rw [hrec] at hsim₃
    exact ⟨hsim₃.1.trans hperf.1, hsim₃.2.trans hperf.2⟩

end server

namespace Client

def effect (m : Client T) (x : Call V T) : Outcome (Client T) :=
  match x.op with
  | .start => storeTiming { m with nextTiming := 0 } 0 x.temp
  | .continue_ => m.storeTiming (m.nextTiming * 2) x.temp
  | .stop => do
    let m ← m.storeTiming (m.nextTiming * 2 + 1) x.temp
    .done { m with nextTiming := m.nextTiming + 1 }

/-- The client's times are those of the calls, in the slots of their sets. -/
structure Keeps (m : Client T) (q : Recorder T) : Prop where
  nextTiming : m.nextTiming = q.closed.length
  timing : m.timing.length = TIMELEN
  closed : ∀ i < q.closed.length, ∃ a b, q.closed[i]? = some [a, b] ∧
    m.timing[2 * i]? = some (some a) ∧ m.timing[2 * i + 1]? = some (some b)
  opened : ∀ w, q.opened = some w → ∃ a, w = [a] ∧
    m.timing[2 * q.closed.length]? = some (some a)

theorem storeTiming_eq {m : Client T} {i : ℕ} (hm : m.timing.length = TIMELEN)
    (hi : i < TIMELEN) (temp : T) :
    m.storeTiming i temp = .done { m with timing := m.timing.set i (some temp) } :=
  if_pos (hm ▸ hi)

end Client

def Recorder.count {α : Type} (q : Recorder α) : ℕ := q.closed.length + q.opened.toList.length

theorem Client.Keeps.step {m : Client T} {q : Recorder T} (h : m.Keeps q) {x : Call V T}
    (hdue : x.op = .stop ↔ q.opened.isSome = true) (hq : q.count < 5000)
    (hq' : (q.note x).count < 5000) : ∃ m', m.effect x = .done m' ∧ m'.Keeps (q.note x) := by
  obtain ⟨closed, opened⟩ := q
  obtain ⟨exchange, op, temp⟩ := x
  obtain ⟨hnext, hlen, hclosed, hopened⟩ := h
  have hold : ∀ {i n : ℕ} {a : T}, m.timing[i]? = some (some a) → i ≠ n →
      (m.timing.set n (some temp))[i]? = some (some a) := by
    intro i n a hi hne
    rw [List.getElem?_set_ne (Ne.symm hne), hi]
  have hnew : ∀ {n : ℕ}, n < TIMELEN → (m.timing.set n (some temp))[n]? = some (some temp) :=
    fun hn => List.getElem?_set_self (hlen ▸ hn)
  have hset : ∀ n, (m.timing.set n (some temp)).length = TIMELEN := by simpa using hlen
  have htime : TIMELEN = 10000 := rfl
  cases op with
  | start =>
    obtain rfl : opened = none := by simpa using hdue
    refine ⟨_, storeTiming_eq (m := { m with nextTiming := 0 }) (i := 0) hlen (by decide) temp,
      rfl, hset _, ?_, ?_⟩
    · intro i hi
      exact absurd hi (Nat.not_lt_zero i)
    · rintro w ⟨⟩
      exact ⟨temp, rfl, hnew (by decide)⟩
  | continue_ =>
    obtain rfl : opened = none := by simpa using hdue
    have hn : closed.length + 1 < 5000 := hq'
    simp only at hnext hclosed
    refine ⟨_, storeTiming_eq hlen (by omega) temp, hnext, hset _, ?_, ?_⟩
    · intro i hi
      change i < closed.length at hi
      obtain ⟨a, b, hab, ha, hb⟩ := hclosed i hi
      exact ⟨a, b, hab, hold ha (by omega), hold hb (by omega)⟩
    · rintro w ⟨⟩
      refine ⟨temp, rfl, ?_⟩
      rw [hnext, Nat.mul_comm]
      exact hnew (by omega)
  | stop =>
    obtain ⟨w, rfl⟩ := Option.isSome_iff_exists.mp (hdue.mp rfl)
    have hn : closed.length + 1 < 5000 := hq
    obtain ⟨a, rfl, ha⟩ := hopened w rfl
    simp only at hnext hclosed ha
    have hstore := storeTiming_eq (i := m.nextTiming * 2 + 1) hlen (by omega) temp
    refine ⟨_, by simp only [effect, hstore]; rfl, ?_, hset _, ?_, ?_⟩
    · simp [Recorder.note, Recorder.push, Recorder.stop, hnext]
    · intro i hi
      have hi' : i < closed.length + 1 := by
        simpa [Recorder.note, Recorder.push, Recorder.stop] using hi
      rw [hnext]
      simp only [Recorder.note, Recorder.push, Recorder.stop, Option.map_some]
      by_cases hin : i = closed.length
      · subst hin
        refine ⟨a, temp, by simp, hold ha (by omega), ?_⟩
        rw [Nat.mul_comm]
        exact hnew (by omega)
      · obtain ⟨a', b', hab, ha', hb'⟩ := hclosed i (by omega)
        refine ⟨a', b', ?_, hold ha' (by omega), hold hb' (by omega)⟩
        rw [List.getElem?_append_left (by omega), hab]
    · rintro w hw
      cases hw

section delimits

variable [Zero V] [Add V]

def counterAfter (k : ℕ) (s₀ : Server V) (calls : List (Call V T)) (n : ℕ) : Option Counter :=
  match (calls.take n).foldlM (Call.answered k) s₀ with
  | .done s => s.waiting k
  | _ => none

/-- Call `a` opens set `i` of the counter, and up to the first `m` calls the set stays open. -/
structure Opens (k : ℕ) (s₀ : Server V) (calls : List (Call V T)) (i a m : ℕ) (begin : SetT) :
    Prop where
  before : ∃ c, counterAfter k s₀ calls a = some c ∧ c.status = .inactive
  during : ∀ n, a < n → n ≤ m → ∃ c, counterAfter k s₀ calls n = some c ∧
    c.status = .active ∧ c.sets.length = i + 1 ∧ c.sets[i]? = some (begin, none)

/-- Call `a` opens set `i` of the counter and call `b` closes it. After that the set stays as
it is. -/
structure Delimits (k : ℕ) (s₀ : Server V) (calls : List (Call V T)) (i a b : ℕ)
    (se : SetT × SetT) : Prop where
  order : a < b
  opens : Opens k s₀ calls i a b se.1
  closes : ∃ c, counterAfter k s₀ calls (b + 1) = some c ∧ c.status = .inactive
  after : ∀ n, b < n → n ≤ calls.length → ∃ c, counterAfter k s₀ calls n = some c ∧
    c.sets[i]? = some (se.1, some se.2)

structure Delimited (k : ℕ) (s₀ : Server V) (calls : List (Call V T)) (q : Recorder T)
    (c : Counter) : Prop where
  current : counterAfter k s₀ calls calls.length = some c
  status : c.status = .active ↔ q.opened.isSome = true
  length : c.sets.length = q.count
  closed : ∀ i < q.closed.length, ∃ a b x y se, calls[a]? = some x ∧ calls[b]? = some y ∧
    x.op ≠ .stop ∧ y.op = .stop ∧ q.closed[i]? = some [x.temp, y.temp] ∧
    Delimits k s₀ calls i a b se
  opened : ∀ w, q.opened = some w → ∃ a x begin, calls[a]? = some x ∧ x.op ≠ .stop ∧
    w = [x.temp] ∧ Opens k s₀ calls q.closed.length a calls.length begin

variable {k : ℕ} {s₀ : Server V} {calls : List (Call V T)} {x : Call V T} {i a b m : ℕ}
  {begin : SetT} {se : SetT × SetT} {c c' : Counter} {q : Recorder T}

theorem counterAfter_append {n : ℕ} (hn : n ≤ calls.length) :
    counterAfter k s₀ (calls ++ [x]) n = counterAfter k s₀ calls n := by
  rw [counterAfter, counterAfter, List.take_append_of_le_length hn]

theorem getElem?_lt {α : Type} {l : List α} {n : ℕ} {y : α} (h : l[n]? = some y) :
    n < l.length :=
  (List.getElem?_eq_some_iff.mp h).1

theorem getElem?_append {α : Type} {l : List α} {n : ℕ} {y z : α} (h : l[n]? = some y) :
    (l ++ [z])[n]? = some y := by
  rw [List.getElem?_append_left (getElem?_lt h), h]

theorem Opens.append (h : Opens k s₀ calls i a m begin) (ha : a ≤ calls.length)
    (hm : m ≤ calls.length) (x : Call V T) : Opens k s₀ (calls ++ [x]) i a m begin where
  before := by
    rw [counterAfter_append ha]
    exact h.before
  during n hn hnm := by
    rw [counterAfter_append (hnm.trans hm)]
    exact h.during n hn hnm

theorem Delimits.append (h : Delimits k s₀ calls i a b se) (hb : b < calls.length)
    (hc' : counterAfter k s₀ (calls ++ [x]) (calls.length + 1) = some c')
    (hi : c'.sets[i]? = some (se.1, some se.2)) :
    Delimits k s₀ (calls ++ [x]) i a b se where
  order := h.order
  opens := h.opens.append (h.order.trans hb).le hb.le x
  closes := by
    rw [counterAfter_append hb]
    exact h.closes
  after n hn hle := by
    rw [List.length_append, List.length_singleton] at hle
    rcases Nat.lt_or_ge calls.length n with hlast | hold
    · obtain rfl : n = calls.length + 1 := by omega
      exact ⟨c', hc', hi⟩
    · rw [counterAfter_append hold]
      exact h.after n hn hold

theorem Delimited.getElem? (h : Delimited k s₀ calls q c) (hd : Delimits k s₀ calls i a b se)
    (hb : b < calls.length) : c.sets[i]? = some (se.1, some se.2) := by
  obtain ⟨c₁, hc₁, hi⟩ := hd.after calls.length hb le_rfl
  obtain rfl := Option.some.inj (h.current.symm.trans hc₁)
  exact hi

theorem Delimited.closed_append (h : Delimited k s₀ calls q c)
    (hc' : counterAfter k s₀ (calls ++ [x]) (calls.length + 1) = some c')
    (hkept : ∀ i < q.closed.length, c'.sets[i]? = c.sets[i]?) (hi : i < q.closed.length) :
    ∃ a b y z se, (calls ++ [x])[a]? = some y ∧ (calls ++ [x])[b]? = some z ∧ y.op ≠ .stop ∧
      z.op = .stop ∧ q.closed[i]? = some [y.temp, z.temp] ∧
      Delimits k s₀ (calls ++ [x]) i a b se := by
  obtain ⟨a, b, y, z, se, hy, hz, hopy, hopz, hw, hd⟩ := h.closed i hi
  have hb := getElem?_lt hz
  exact ⟨a, b, y, z, se, getElem?_append hy, getElem?_append hz, hopy, hopz, hw,
    hd.append hb hc' ((hkept i hi).trans (h.getElem? hd hb))⟩

theorem opens_last (hc : counterAfter k s₀ calls calls.length = some c)
    (hst : c.status = .inactive)
    (hc' : counterAfter k s₀ (calls ++ [x]) (calls.length + 1) = some c')
    (hst' : c'.status = .active) (hlen : c'.sets.length = i + 1)
    (hi : c'.sets[i]? = some (begin, none)) :
    Opens k s₀ (calls ++ [x]) i calls.length (calls.length + 1) begin where
  before := ⟨c, by rw [counterAfter_append le_rfl, hc], hst⟩
  during n hn hle := by
    obtain rfl : n = calls.length + 1 := by omega
    exact ⟨c', hc', hst', hlen, hi⟩

theorem Delimited.step (h : Delimited k s₀ calls q c) (hop : x.op.Performs c c')
    (hc' : counterAfter k s₀ (calls ++ [x]) (calls.length + 1) = some c') :
    Delimited k s₀ (calls ++ [x]) (q.note x) c' := by
  have hlast : (calls ++ [x])[calls.length]? = some x := by simp
  have hcurrent : counterAfter k s₀ (calls ++ [x]) (calls ++ [x]).length = some c' := by
    rw [List.length_append]
    exact hc'
  obtain ⟨closed, opened⟩ := q
  have hstatus := h.status
  have hlength := h.length
  have hnone : c.status = .inactive → opened = none := by
    intro hst
    cases opened with
    | none => rfl
    | some w => simp [hst] at hstatus
  cases hxop : x.op with
  | start =>
    rw [hxop] at hop
    obtain ⟨hst, hst', sizes, hsets⟩ := hop
    obtain rfl := hnone hst
    have hnote : Recorder.note ⟨closed, none⟩ x = ⟨[], some [x.temp]⟩ := by
      rw [Recorder.note, hxop]
      rfl
    rw [hnote]
    refine ⟨hcurrent, by simp [hst'], by simp [hsets, Recorder.count], nofun, ?_⟩
    rintro w ⟨⟩
    refine ⟨calls.length, x, sizes, hlast, by simp [hxop], rfl, ?_⟩
    rw [List.length_append]
    exact opens_last h.current hst hc' hst' (by simp [hsets]) (by simp [hsets])
  | continue_ =>
    rw [hxop] at hop
    obtain ⟨hst, hst', sizes, hsets⟩ := hop
    obtain rfl := hnone hst
    have hlen : c.sets.length = closed.length := hlength
    have hnote : Recorder.note ⟨closed, none⟩ x = ⟨closed, some [x.temp]⟩ := by
      rw [Recorder.note, hxop]
      rfl
    rw [hnote]
    refine ⟨hcurrent, by simp [hst'], by simp [hsets, hlen, Recorder.count], fun i hi => ?_, ?_⟩
    · refine h.closed_append hc' (fun j hj => ?_) hi
      rw [hsets, List.getElem?_append_left (hlen ▸ hj)]
    · rintro w ⟨⟩
      refine ⟨calls.length, x, sizes, hlast, by simp [hxop], rfl, ?_⟩
      rw [List.length_append]
      refine opens_last h.current hst hc' hst' (by simp [hsets, hlen]) ?_
      rw [hsets, ← hlen, List.getElem?_append_right le_rfl, Nat.sub_self]
      rfl
  | stop =>
    rw [hxop] at hop
    obtain ⟨hst, hst', last, sizes, hl, hsets⟩ := hop
    obtain ⟨w, rfl⟩ := Option.isSome_iff_exists.mp (hstatus.mp hst)
    obtain ⟨a, y, begin, hy, hopy, rfl, ho⟩ := h.opened w rfl
    have ha := getElem?_lt hy
    obtain ⟨c₁, hc₁, -, hlen, hi⟩ := ho.during calls.length ha le_rfl
    obtain rfl := Option.some.inj (h.current.symm.trans hc₁)
    change c.sets.length = closed.length + 1 at hlen
    obtain rfl : last = (begin, none) := by
      rw [List.getLast?_eq_getElem?, hlen, Nat.add_sub_cancel, hi] at hl
      exact (Option.some.inj hl).symm
    have hdrop : c.sets.dropLast.length = closed.length := by simp [hlen]
    have hnote : Recorder.note ⟨closed, some [y.temp]⟩ x =
        ⟨closed ++ [[y.temp, x.temp]], none⟩ := by
      rw [Recorder.note, hxop]
      rfl
    rw [hnote]
    refine ⟨hcurrent, by simp [hst'], by simp [hsets, hlen, Recorder.count], fun i hi' => ?_,
      nofun⟩
    have hcase : i < closed.length ∨ i = closed.length := by
      rw [List.length_append, List.length_singleton] at hi'
      omega
    rcases hcase with hold | rfl
    · obtain ⟨a', b', y', z', se, hy', hz', hopy', hopz', hw, hd⟩ :=
        h.closed_append hc' (fun j hj => by
          change j < closed.length at hj
          rw [hsets, List.getElem?_append_left (by omega), List.getElem?_dropLast,
            if_pos (by omega)]) hold
      refine ⟨a', b', y', z', se, hy', hz', hopy', hopz', ?_, hd⟩
      rw [List.getElem?_append_left hold]
      exact hw
    · refine ⟨a, calls.length, y, x, (begin, sizes), getElem?_append hy, hlast, hopy, hxop,
        by simp, ha, ho.append ha.le le_rfl x, ⟨c', hc', hst'⟩, fun n hn hle => ?_⟩
      rw [List.length_append, List.length_singleton] at hle
      obtain rfl : n = calls.length + 1 := by omega
      refine ⟨c', hc', ?_⟩
      rw [hsets, ← hdrop, List.getElem?_append_right le_rfl, Nat.sub_self]
      rfl

end delimits

section runs

variable [Zero V] [Add V]

theorem Call.run_eq_effect {k : ℕ} {s s' : Server V} {m : Client T} {x : Call V T}
    (hs : x.answered k s = .done s') :
    x.run k (s, m) = (m.effect x >>= fun m' => .done (s', m')) := by
  obtain ⟨⟨s₁, r⟩, hreq, hr⟩ := Outcome.bind_eq_done.mp hs
  dsimp only at hr
  split at hr
  · obtain rfl := Outcome.done.inj hr
    obtain ⟨exchange, op, temp⟩ := x
    cases op with
    | start =>
      simp only [ClientOp.typeMark] at hreq
      simp [run, pmStartCounter, hreq, Reply.serverResponse, Retval.toInt, Client.effect]
    | continue_ =>
      simp only [ClientOp.typeMark] at hreq
      simp [run, pmContinueCounter, hreq, Reply.serverResponse, Retval.toInt, Client.effect]
    | stop =>
      simp only [ClientOp.typeMark] at hreq
      simp [run, pmStopCounter, hreq, Reply.serverResponse, Retval.toInt, Client.effect]
  · cases hr

variable (ρ : Run V) {k : ℕ} {c₀ : Counter} {calls : List (Call V T)}

end runs

/-- A counter is created; its client starts it at 10 and stops it at 20. -/
def twoCalls : List (Call ℤ ℕ) :=
  [{ op := .start, temp := 10, before := [], between := [.sample fun _ => 7] },
    { op := .stop, temp := 20, before := [.sample fun _ => 8], between := [] }]

end PMLib
