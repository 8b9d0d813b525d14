import PMLib.Json
import PMLib.Sessions
import PMLib.Lib.Simulation

/-! # The whole server

A connection begins with an opcode, which decides who handles it. A counter looks up its
device by the name in its request. What the sessions on one device see of the others is that
somebody else has got an id. -/
namespace PMLib

variable {V : Type}

structure Handler (V : Type) where
  session : Session V
  device : Option Name

/-- The ids of the counters are numbered through over all devices. -/
structure Daemon (V : Type) where
  deviceMap : Std.TreeMap Name (Device V)
  handlers : List (Handler V)

inductive DaemonEvent (V : Type) where
  | sample (dn : Name) (x : ℕ → V)
  | connection (op : ℤ) (req : Option CreateRequest)
  | receive (k : ℕ) (op : Option ℤ)
  | send (k : ℕ) (ok : Bool)

namespace Session

def destroy (dev : Device V) (c : Counter) : Outcome (Device V × Session V) :=
  if c.registered then do
    let dev ← dev.deregisterCounter c
    .done (dev, ⟨c, .destroyed⟩)
  else .done (dev, ⟨c, .destroyed⟩)

def receive [Zero V] [Add V] (dev : Device V) (ss : Session V) (op : Option ℤ) :
    Outcome (Device V × Session V) :=
  match ss, op with
  | ⟨c, .serving⟩, some op =>
    match c.dispatch dev op with
    | .done (c, dev, r) => .done (dev, ⟨c, .replying r⟩)
    | .failed => .done (dev, ⟨c, .catching⟩)
    | .undefined => .undefined
  | ⟨c, .serving⟩, none => .done (dev, ⟨c, .catching⟩)
  | _, _ => .failed

def send (dev : Device V) (ss : Session V) (ok : Bool) : Outcome (Device V × Session V) :=
  match ss with
  | ⟨c, .replying _⟩ =>
    if ok then
      if c.running then .done (dev, ⟨c, .serving⟩) else destroy dev c
    else .done (dev, ⟨c, .catching⟩)
  | ⟨c, .catching⟩ => if ok then destroy dev c else .done (dev, ⟨c, .escaped⟩)
  | _ => .failed

/-- A counter without a device has only the error reply of its constructor to send. -/
def sendError (ss : Session V) (ok : Bool) : Outcome (Session V) :=
  match ss with
  | ⟨c, .catching⟩ => .done ⟨c, if ok then .destroyed else .escaped⟩
  | _ => .failed

end Session

namespace Daemon

def start (deviceMap : Std.TreeMap Name (Device V)) : Daemon V := ⟨deviceMap, []⟩

/-- The constructor of a counter. A request without a known name has no device. -/
def construct (s : Daemon V) (req : Option CreateRequest) : Outcome (Daemon V) :=
  let id := s.handlers.length + 1
  let rejected (device : Option Name) : Daemon V :=
    { s with handlers := s.handlers ++ [⟨⟨.unregistered id, .catching⟩, device⟩] }
  match req with
  | none => .done (rejected none)
  | some req =>
    match s.deviceMap[req.deviceName]? with
    | none => .done (rejected none)
    | some dev =>
      match Counter.construct id req dev with
      | .done (c, dev) =>
        .done ⟨s.deviceMap.insert req.deviceName dev,
          s.handlers ++ [⟨⟨c, .replying (.retval .success)⟩, some req.deviceName⟩]⟩
      | .failed => .done (rejected (some req.deviceName))
      | .undefined => .undefined

def onDevice (s : Daemon V) (k : ℕ) (dn : Name)
    (f : Device V → Outcome (Device V × Session V)) : Outcome (Daemon V) := do
  let dev ← Outcome.ofOption s.deviceMap[dn]?
  let (dev, ss) ← f dev
  .done ⟨s.deviceMap.insert dn dev, s.handlers.set k ⟨ss, some dn⟩⟩

/-- A request for information and an opcode out of turn are answered without a counter. -/
def next [Zero V] [Add V] (s : Daemon V) : DaemonEvent V → Outcome (Daemon V)
  | .sample dn x =>
    match s.deviceMap[dn]? with
    | some dev => .done { s with deviceMap := s.deviceMap.insert dn (dev.pushBackData x) }
    | none => .failed
  | .connection op req =>
    if Operation.ofInt op = some .create then s.construct req else .done s
  | .receive k op =>
    match s.handlers[k]? with
    | some ⟨ss, some dn⟩ => s.onDevice k dn fun dev => ss.receive dev op
    | _ => .failed
  | .send k ok =>
    match s.handlers[k]? with
    | some ⟨ss, some dn⟩ => s.onDevice k dn fun dev => ss.send dev ok
    | some ⟨ss, none⟩ => do
      let ss ← ss.sendError ok
      .done { s with handlers := s.handlers.set k ⟨ss, none⟩ }
    | none => .failed

/-! ## One device -/

/-- Handler `k` from device `dn`: a handler of another device has an id and nothing else. -/
def seenAt (dn : Name) (k : ℕ) (h : Handler V) : Session V :=
  if h.device = some dn then h.session else ⟨.unregistered (k + 1), .catching⟩

/-- What an event means to the sessions on device `dn`. A CREATE for another device takes an id,
and nothing else of it is seen. -/
def view (dn : Name) (s : Daemon V) : DaemonEvent V → List (Event V)
  | .sample name x => if name = dn then [.sample x] else []
  | .connection op req =>
    if Operation.ofInt op = some .create then
      [.connection op (req.filter fun req => req.deviceName = dn)]
    else []
  | .receive k op => if (s.handlers[k]?.bind Handler.device) = some dn then [.receive k op] else []
  | .send k ok => if (s.handlers[k]?.bind Handler.device) = some dn then [.send k ok] else []

structure ShownBy (dn : Name) (s : Daemon V) (t : Server V) : Prop where
  device : s.deviceMap[dn]? = some t.dev
  name : t.dev.name = dn
  sessions : t.sessions = s.handlers.mapIdx (seenAt dn)

theorem getElem?_seen {dn : Name} {hs : List (Handler V)} {k : ℕ} {ss : Session V}
    (hk : hs[k]? = some ⟨ss, some dn⟩) : (hs.mapIdx (seenAt dn))[k]? = some ss := by
  rw [List.getElem?_mapIdx, hk, Option.map_some, seenAt, if_pos rfl]

theorem seen_set {dn : Name} {hs : List (Handler V)} {k : ℕ} {h : Handler V}
    (hk : hs[k]? = some h) (hne : h.device ≠ some dn) (h' : Handler V)
    (hd : h'.device = h.device) :
    (hs.set k h').mapIdx (seenAt dn) = hs.mapIdx (seenAt dn) := by
  have hsame : seenAt dn k h' = seenAt dn k h := by
    rw [seenAt, seenAt, if_neg (hd ▸ hne), if_neg hne]
  have hseen : (hs.mapIdx (seenAt dn))[k]? = some (seenAt dn k h) := by
    rw [List.getElem?_mapIdx, hk, Option.map_some]
  rw [List.mapIdx_set, hsame]
  obtain ⟨hlt, hget⟩ := List.getElem?_eq_some_iff.mp hseen
  rw [← hget, List.set_getElem_self]

end Daemon

/-! ## What is fixed about a device -/

def Device.kind (d : Device V) : Name × ℤ × ℕ := (d.name, d.maxFrequency, d.nLines)

theorem Device.forLines_kind {d d' : Device V} {sel : List ℕ} {f : Line V → Line V}
    (h : d.forLines sel f = .done d') : d'.kind = d.kind := by
  induction sel generalizing d with
  | nil =>
    obtain rfl := Outcome.done.inj h
    rfl
  | cons a sel ih =>
    rw [forLines, List.foldlM_cons] at h
    obtain ⟨d₁, h₁, h⟩ := Outcome.bind_eq_done.mp h
    obtain ⟨_, _, h₁⟩ := Outcome.bind_eq_done.mp h₁
    obtain rfl := Outcome.done.inj h₁
    have h : forLines { d with lines := d.lines.modify a f } sel f = .done d' := h
    have hkind := ih h
    exact hkind

theorem Device.deregisterCounter_kind {d d' : Device V} {c : Counter}
    (h : d.deregisterCounter c = .done d') : d'.kind = d.kind := by
  unfold deregisterCounter at h
  split at h
  · obtain ⟨d₁, h₁, h⟩ := Outcome.bind_eq_done.mp h
    obtain rfl := Outcome.done.inj h
    have hkind := forLines_kind h₁
    exact hkind
  · obtain rfl := Outcome.done.inj h
    rfl

theorem Counter.construct_kind {id : ℕ} {req : CreateRequest} {dev dev' : Device V}
    {c : Counter} (h : construct id req dev = .done (c, dev')) : dev'.kind = dev.kind := by
  unfold construct at h
  split_ifs at h
  obtain ⟨interval, -, h⟩ := Outcome.bind_eq_done.mp h
  obtain ⟨lines, -, h⟩ := Outcome.bind_eq_done.mp h
  obtain ⟨dev₁, hd, h⟩ := Outcome.bind_eq_done.mp h
  obtain ⟨rfl, rfl⟩ := Prod.mk.inj (Outcome.done.inj h)
  have hkind := Device.forLines_kind hd
  exact hkind

section operations

variable {dev dev' : Device V} {c c' : Counter} {r : Reply V}

theorem Session.destroy_kind {ss' : Session V} (h : Session.destroy dev c = .done (dev', ss')) :
    dev'.kind = dev.kind := by
  unfold destroy at h
  split_ifs at h
  · obtain ⟨dev₁, h₁, h⟩ := Outcome.bind_eq_done.mp h
    cases h
    exact Device.deregisterCounter_kind h₁
  · cases h
    rfl

theorem Session.send_kind {ss ss' : Session V} {ok : Bool}
    (h : ss.send dev ok = .done (dev', ss')) : dev'.kind = dev.kind := by
  unfold send at h
  split at h
  · split_ifs at h
    · cases h
      rfl
    · exact destroy_kind h
    · cases h
      rfl
  · split_ifs at h
    · exact destroy_kind h
    · cases h
      rfl
  · cases h

variable [Zero V] [Add V]

theorem Counter.dispatch_kind {op : ℤ} (h : c.dispatch dev op = .done (c', dev', r)) :
    dev'.kind = dev.kind := by
  unfold dispatch at h
  split at h
  · unfold start at h
    split_ifs at h
    · obtain ⟨dev₁, h₁, h⟩ := Outcome.bind_eq_done.mp h
      obtain ⟨sizes, -, h⟩ := Outcome.bind_eq_done.mp h
      cases h
      exact Device.forLines_kind h₁
    · cases h
      rfl
  · unfold restart at h
    split_ifs at h
    · obtain ⟨dev₁, h₁, h⟩ := Outcome.bind_eq_done.mp h
      obtain ⟨sizes, -, h⟩ := Outcome.bind_eq_done.mp h
      cases h
      exact Device.forLines_kind h₁
    · cases h
      rfl
  · unfold stop at h
    split_ifs at h
    · obtain ⟨dev₁, h₁, h⟩ := Outcome.bind_eq_done.mp h
      obtain ⟨sizes, -, h⟩ := Outcome.bind_eq_done.mp h
      obtain ⟨last, -, h⟩ := Outcome.bind_eq_done.mp h
      cases h
      exact Device.forLines_kind h₁
    · cases h
      rfl
  · unfold get at h
    split_ifs at h
    · obtain ⟨g, -, h⟩ := Outcome.bind_eq_done.mp h
      cases h
      rfl
    · cases h
      rfl
  · unfold finalize at h
    split_ifs at h <;> (cases h; rfl)
  · cases h
    rfl

theorem Session.receive_kind {ss ss' : Session V} {op : Option ℤ}
    (h : ss.receive dev op = .done (dev', ss')) : dev'.kind = dev.kind := by
  unfold receive at h
  split at h
  · split at h
    · cases h
      exact Counter.dispatch_kind ‹_›
    · cases h
      rfl
    · cases h
  · cases h
    rfl
  · cases h

/-! ## Sessions on one device go on in the same way -/

theorem Server.next_receive_eq {t : Server V} {k : ℕ} {ss : Session V}
    (hk : t.sessions[k]? = some ss) (op : Option ℤ) :
    t.next (.receive k op) =
      (ss.receive t.dev op >>= fun p => .done ⟨p.1, t.sessions.set k p.2⟩) := by
  obtain ⟨c, ph⟩ := ss
  cases ph <;> cases op <;> simp only [Server.next, hk, Session.receive, Server.serve,
    Server.setSession, Outcome.done_bind, Outcome.failed_bind]
  split <;> simp_all

theorem Server.next_send_eq {t : Server V} {k : ℕ} {ss : Session V}
    (hk : t.sessions[k]? = some ss) (ok : Bool) :
    t.next (.send k ok) =
      (ss.send t.dev ok >>= fun p => .done ⟨p.1, t.sessions.set k p.2⟩) := by
  have hdestroy : ∀ c, t.destroy k c =
      (Session.destroy t.dev c >>= fun p => .done ⟨p.1, t.sessions.set k p.2⟩) := by
    intro c
    cases hreg : c.registered with
    | true => simp [Server.destroy, Session.destroy, hreg, bind_assoc]
    | false => simp [Server.destroy, Session.destroy, hreg]
  obtain ⟨c, ph⟩ := ss
  cases ph <;> simp only [Server.next, hk, Session.send, Outcome.failed_bind]
  · split_ifs <;> simp [Server.setSession, hdestroy]
  · split_ifs <;> simp [Server.setSession, hdestroy]

end operations

namespace Daemon.ShownBy

variable {dn : Name} {s s' : Daemon V} {t : Server V}

theorem onDevice [Zero V] [Add V] (h : ShownBy dn s t) {k : ℕ} {ss : Session V} {name : Name}
    (hk : s.handlers[k]? = some ⟨ss, some name⟩) {f : Device V → Outcome (Device V × Session V)}
    (hkind : ∀ dev dev' ss', f dev = .done (dev', ss') → dev'.kind = dev.kind) {e : Event V}
    (he : name = dn → t.next e = (f t.dev >>= fun p => .done ⟨p.1, t.sessions.set k p.2⟩))
    (hn : s.onDevice k name f = .done s') :
    ∃ t', Trace.exec Server.next t (if name = dn then [e] else []) = .done t' ∧
      ShownBy dn s' t' := by
  obtain ⟨dev, hdev, hn⟩ := Outcome.bind_eq_done.mp hn
  obtain ⟨⟨dev', ss'⟩, hf, hn⟩ := Outcome.bind_eq_done.mp hn
  obtain rfl := Outcome.done.inj hn
  rw [Outcome.ofOption_eq_done] at hdev
  by_cases heq : name = dn
  · subst heq
    obtain rfl : t.dev = dev := Option.some.inj (h.device.symm.trans hdev)
    refine ⟨⟨dev', t.sessions.set k ss'⟩, ?_, ?_, ?_, ?_⟩
    · rw [if_pos rfl, Trace.exec_singleton, he rfl, hf, Outcome.done_bind]
    · exact Std.TreeMap.getElem?_insert_self
    · exact (congrArg Prod.fst (hkind _ _ _ hf)).trans h.name
    · rw [List.mapIdx_set, ← h.sessions, seenAt, if_pos rfl]
  · have hc : compare name dn ≠ Ordering.eq := by simpa using heq
    refine ⟨t, by rw [if_neg heq, Trace.exec_nil], ?_, h.name, ?_⟩
    · rw [Std.TreeMap.getElem?_insert, if_neg hc, h.device]
    · exact h.sessions.trans (seen_set hk (by simpa using heq) ⟨ss', some name⟩ rfl).symm

theorem rejected (h : ShownBy dn s t) (device : Option Name) :
    ShownBy dn { s with handlers := s.handlers ++
        [⟨⟨.unregistered (s.handlers.length + 1), .catching⟩, device⟩] }
      (t.addSession ⟨.unregistered (t.sessions.length + 1), .catching⟩) := by
  refine ⟨h.device, h.name, ?_⟩
  have hlen : t.sessions.length = s.handlers.length := by rw [h.sessions, List.length_mapIdx]
  rw [List.mapIdx_concat, ← h.sessions, Server.addSession, hlen, seenAt]
  split_ifs <;> rfl

theorem construct (h : ShownBy dn s t) {req : Option CreateRequest}
    (hn : s.construct req = .done s') :
    ∃ t', t.construct (req.filter fun req => req.deviceName = dn) = .done t' ∧
      ShownBy dn s' t' := by
  have hlen : t.sessions.length = s.handlers.length := by rw [h.sessions, List.length_mapIdx]
  cases req with
  | none =>
    obtain rfl := Outcome.done.inj hn
    exact ⟨_, rfl, h.rejected none⟩
  | some req =>
    simp only [Daemon.construct] at hn
    by_cases hreq : req.deviceName = dn
    · rw [hreq, h.device] at hn
      simp only [← hlen] at hn
      rw [Option.filter, if_pos (by simpa using hreq)]
      split at hn
      · next c dev hc =>
        obtain rfl := Outcome.done.inj hn
        refine ⟨⟨dev, t.sessions ++ [⟨c, .replying (.retval .success)⟩]⟩, ?_, ?_, ?_, ?_⟩
        · rw [Server.construct]
          simp only [hc]
        · exact Std.TreeMap.getElem?_insert_self
        · exact (congrArg Prod.fst (Counter.construct_kind hc)).trans h.name
        · rw [List.mapIdx_concat, ← h.sessions, seenAt, if_pos rfl]
      · next hc =>
        obtain rfl := Outcome.done.inj hn
        have hrej := h.rejected (some dn)
        rw [← hlen] at hrej
        refine ⟨_, ?_, hrej⟩
        simp only [Server.construct, hc]
      · cases hn
    · have hfail : t.construct none =
          .done (t.addSession ⟨.unregistered (t.sessions.length + 1), .catching⟩) := rfl
      rw [Option.filter, if_neg (by simpa using hreq)]
      refine ⟨_, hfail, ?_⟩
      split at hn
      · obtain rfl := Outcome.done.inj hn
        exact h.rejected none
      · split at hn
        · next c dev hc =>
          obtain rfl := Outcome.done.inj hn
          have hcmp : compare req.deviceName dn ≠ Ordering.eq := by simpa using hreq
          refine ⟨?_, h.name, ?_⟩
          · rw [Std.TreeMap.getElem?_insert, if_neg hcmp, h.device]
            rfl
          · rw [List.mapIdx_concat, ← h.sessions, seenAt, if_neg (by simpa using hreq), hlen]
            rfl
        · obtain rfl := Outcome.done.inj hn
          exact h.rejected _
        · cases hn

theorem step [Zero V] [Add V] (h : ShownBy dn s t) {e : DaemonEvent V} (hn : s.next e = .done s') :
    ∃ t', Trace.exec Server.next t (view dn s e) = .done t' ∧ ShownBy dn s' t' := by
  cases e with
  | sample name x =>
    simp only [Daemon.next] at hn
    split at hn
    · next dev hdev =>
      obtain rfl := Outcome.done.inj hn
      by_cases heq : name = dn
      · subst heq
        obtain rfl : t.dev = dev := Option.some.inj (h.device.symm.trans hdev)
        exact ⟨{ t with dev := t.dev.pushBackData x }, by simp [view, Server.next],
          Std.TreeMap.getElem?_insert_self, h.name, h.sessions⟩
      · have hc : compare name dn ≠ Ordering.eq := by simpa using heq
        refine ⟨t, by simp [view, heq], ?_, h.name, h.sessions⟩
        rw [Std.TreeMap.getElem?_insert, if_neg hc, h.device]
    · cases hn
  | connection op req =>
    simp only [Daemon.next] at hn
    simp only [view]
    split_ifs at hn ⊢ with hop
    · simp only [Trace.exec_singleton, Server.next, if_pos hop]
      exact h.construct hn
    · obtain rfl := Outcome.done.inj hn
      exact ⟨t, rfl, h⟩
  | receive k op =>
    simp only [Daemon.next] at hn
    split at hn
    · next ss name hk =>
      have hsome : ((s.handlers[k]?.bind Handler.device) = some dn) = (name = dn) := by
        simp [hk]
      simp only [view, hsome]
      refine h.onDevice hk (fun _ _ _ => Session.receive_kind) (fun heq => ?_) hn
      subst heq
      exact Server.next_receive_eq (by rw [h.sessions]; exact getElem?_seen hk) op
    · cases hn
  | send k ok =>
    simp only [Daemon.next] at hn
    split at hn
    · next ss name hk =>
      have hsome : ((s.handlers[k]?.bind Handler.device) = some dn) = (name = dn) := by
        simp [hk]
      simp only [view, hsome]
      refine h.onDevice hk (fun _ _ _ => Session.send_kind) (fun heq => ?_) hn
      subst heq
      exact Server.next_send_eq (by rw [h.sessions]; exact getElem?_seen hk) ok
    · next ss hk =>
      obtain ⟨ss', hss, hn⟩ := Outcome.bind_eq_done.mp hn
      obtain rfl := Outcome.done.inj hn
      refine ⟨t, by simp [view, hk], h.device, h.name, ?_⟩
      exact h.sessions.trans (seen_set hk (by simp) ⟨ss', none⟩ rfl).symm
    · cases hn

end Daemon.ShownBy

end PMLib
