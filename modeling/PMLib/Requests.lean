import PMLib.Messages
import PMLib.LineMask
import PMLib.Measurements

/-! # The request stream

A client writes a CREATE message and then one opcode for every call. Its handler reads them
field by field, while the server goes on with everything else. What the handler has made of
the bytes is always what the client has asked for so far. -/
namespace PMLib

open Int32Conv RefCount
open Wire (Receive Reads int32 recvInt)

variable {V : Type}

/-- The arguments of `pm_create_counter`. The device name is a C string. -/
structure CreateCall where
  pmId : List Byte
  lines : LineT
  aggregate : ℤ
  interval : ℤ

namespace CreateCall

def buffSize : ℕ := 1024

def message (a : CreateCall) : List Byte :=
  int32 0 ++ (int32 a.pmId.length ++ (a.pmId ++ (int32 a.interval ++ (int32 a.aggregate ++
    (int32 lineSetSize ++ a.lines.bits)))))

/-- The message of `pm_create_counter`, which is built in a buffer of fixed size. -/
def pmCreateCounter (a : CreateCall) : Outcome (List Byte) :=
  if a.message.length ≤ buffSize then .done a.message else .undefined

def request (a : CreateCall) : CreateRequest :=
  ⟨a.pmId, a.interval, a.aggregate = 1, a.lines.bits⟩

structure Valid (a : CreateCall) : Prop where
  interval : 0 ≤ a.interval ∧ a.interval < 2 ^ 31
  aggregate : a.aggregate = 0 ∨ a.aggregate = 1

end CreateCall

inductive Command where
  | start | continue_ | stop | get | finalize
  deriving DecidableEq, Repr

namespace Command

def typeMark : Command → ℤ
  | .start => 1
  | .continue_ => 2
  | .stop => 3
  | .get => 4
  | .finalize => 5

def message (c : Command) : List Byte := int32 c.typeMark

def operation : Command → Operation
  | .start => .start
  | .continue_ => .continue_
  | .stop => .stop
  | .get => .get
  | .finalize => .finalize

@[simp] theorem ofInt_typeMark (c : Command) : Operation.ofInt c.typeMark = some c.operation := by
  cases c <;> rfl

theorem typeMark_fits (c : Command) : FitsInt c.typeMark := by
  cases c <;> decide

end Command

/-- `receive<bool,int>`: four bytes go to the address of a `bool`, which is the first of
them. What the others overwrite is set later or never read. -/
def receiveFlag : Receive Bool := do
  let bs ← Wire.recv 4
  match bs.head? with
  | some 0 => pure false
  | some 1 => pure true
  | _ => Wire.lift .undefined

def receiveCreate : Receive CreateRequest := do
  let deviceName ← receiveString
  let frequency ← recvInt
  let aggregate ← receiveFlag
  let linesMask ← receiveString
  pure ⟨deviceName, frequency, aggregate, linesMask⟩

theorem reads_receiveFlag {x : ℤ} (h : x = 0 ∨ x = 1) :
    Reads receiveFlag (int32 x) (decide (x = 1)) := by
  intro rest
  rw [receiveFlag, Wire.bind_apply, Reads.recv (Wire.int32_length x), Outcome.done_bind]
  rcases h with rfl | rfl
  · rfl
  · rfl

namespace CreateCall

theorem message_eq (a : CreateCall) : a.message = int32 0 ++ (sendString a.pmId ++
    (int32 a.interval ++ (int32 a.aggregate ++ sendString a.lines.bits))) := by
  rw [message, sendString, sendString, a.lines.size, List.append_assoc]

theorem pmId_length_lt {a : CreateCall} {msg : List Byte} (h : a.pmCreateCounter = .done msg) :
    a.pmId.length < 2 ^ 31 ∧ msg = a.message := by
  unfold pmCreateCounter at h
  split_ifs at h with hle
  refine ⟨?_, (Outcome.done.inj h).symm⟩
  simp only [message, buffSize, List.length_append] at hle
  omega

theorem reads_request {a : CreateCall} (hv : a.Valid) (hname : a.pmId.length < 2 ^ 31) :
    Reads receiveCreate (sendString a.pmId ++ (int32 a.interval ++ (int32 a.aggregate ++
      sendString a.lines.bits))) a.request := by
  have hbits : a.lines.bits.length < 2 ^ 31 := by
    rw [a.lines.size]
    decide
  have hfreq : FitsInt a.interval := ⟨by have := hv.interval.1; omega, hv.interval.2⟩
  apply (reads_receiveString hname).bind
  apply (Wire.reads_int_of_fits hfreq).bind
  apply (reads_receiveFlag hv.aggregate).bind
  rw [← List.append_nil (sendString a.lines.bits)]
  apply (reads_receiveString hbits).bind
  exact Reads.pure a.request

end CreateCall

/-- The bytes that the client of a session has sent: the message that opened it, the later
ones, and what of all that the handler has not read. -/
structure Stream where
  opening : List Byte
  later : List Byte
  unread : List Byte
  deriving DecidableEq, Repr

/-- The server behind its sockets. `events` is what it has gone through since its start. -/
structure Wired (V : Type) where
  server : Server V
  streams : List Stream
  events : List (Event V)

/-- `connection` is a client whose first message has arrived; `arrive` is a later message of
the client of session `k`. In `lose` a receive throws. -/
inductive WireEvent (V : Type) where
  | sample (x : ℕ → V)
  | connection (opening : List Byte)
  | arrive (k : ℕ) (bytes : List Byte)
  | receive (k : ℕ)
  | lose (k : ℕ)
  | send (k : ℕ) (ok : Bool)

namespace Wired

def boot (s : Server V) : Wired V := ⟨s, [], []⟩

section next

variable [Zero V] [Add V]

def advance (w : Wired V) (e : Event V) : Outcome (Wired V) := do
  let server ← w.server.next e
  .done { w with server, events := w.events ++ [e] }

/-- `connection`, and for a CREATE the constructor up to its reply. A message that ends too
early makes a receive of the constructor throw. -/
def accept (w : Wired V) (opening : List Byte) : Outcome (Wired V) :=
  match recvInt opening with
  | .done (op, fields) =>
    if Operation.ofInt op = some .create then
      match receiveCreate fields with
      | .done (req, unread) => do
        let w ← w.advance (.connection op (some req))
        .done { w with streams := w.streams ++ [⟨opening, [], unread⟩] }
      | .failed => do
        let w ← w.advance (.connection op none)
        .done { w with streams := w.streams ++ [⟨opening, [], []⟩] }
      | .undefined => .undefined
    else w.advance (.connection op none)
  | _ => .done w

/-- The `receive` at the head of the loop of `run`. It blocks until an opcode is there. -/
def receive (w : Wired V) (k : ℕ) : Outcome (Wired V) :=
  match w.streams[k]? with
  | some st =>
    match recvInt st.unread with
    | .done (op, unread) => do
      let w ← w.advance (.receive k (some op))
      .done { w with streams := w.streams.set k { st with unread } }
    | _ => .failed
  | none => .failed

def next (w : Wired V) : WireEvent V → Outcome (Wired V)
  | .sample x => w.advance (.sample x)
  | .connection opening => w.accept opening
  | .arrive k bytes =>
    .done { w with streams := w.streams.modify k fun st =>
      { st with later := st.later ++ bytes, unread := st.unread ++ bytes } }
  | .receive k => w.receive k
  | .lose k => w.advance (.receive k none)
  | .send k ok => w.advance (.send k ok)

end next

end Wired

def creations (es : List (Event V)) : List (Option CreateRequest) :=
  es.filterMap fun
    | .connection op req => if Operation.ofInt op = some .create then some req else none
    | _ => none

def opcodes (k : ℕ) (es : List (Event V)) : List ℤ :=
  es.filterMap fun
    | .receive j (some op) => if j = k then some op else none
    | _ => none

theorem creations_append (es fs : List (Event V)) :
    creations (es ++ fs) = creations es ++ creations fs := List.filterMap_append

theorem opcodes_append (k : ℕ) (es fs : List (Event V)) :
    opcodes k (es ++ fs) = opcodes k es ++ opcodes k fs := List.filterMap_append

/-- What the handler has made of a stream: the request that opened it, then opcodes, each
from four bytes, and the rest is still unread. -/
inductive Stream.Decoded (st : Stream) : Option CreateRequest → List ℤ → Prop where
  | lost {op : ℤ} {fields : List Byte} {ops : List ℤ} :
      recvInt st.opening = .done (op, fields) → receiveCreate fields = .failed →
      Decoded st none ops
  | received {op : ℤ} {fields rest : List Byte} {req : CreateRequest}
      (blocks : List (List Byte)) :
      recvInt st.opening = .done (op, fields) → receiveCreate fields = .done (req, rest) →
      (∀ b ∈ blocks, b.length = 4) → rest ++ st.later = blocks.flatten ++ st.unread →
      Decoded st (some req) (blocks.map Wire.ofInt32)

namespace Stream.Decoded

variable {st : Stream} {req : Option CreateRequest} {ops : List ℤ}

theorem arrive (h : st.Decoded req ops) (bytes : List Byte) :
    Decoded { st with later := st.later ++ bytes, unread := st.unread ++ bytes } req ops := by
  cases h with
  | lost hop hfail => exact .lost hop hfail
  | received blocks hop hreq hblocks hbytes =>
    refine .received blocks hop hreq hblocks ?_
    rw [← List.append_assoc, hbytes, List.append_assoc]

theorem receive (h : st.Decoded req ops) {op : ℤ} {unread : List Byte}
    (hop : recvInt st.unread = .done (op, unread)) :
    Decoded { st with unread } req (ops ++ [op]) := by
  cases h with
  | lost hopen hfail => exact .lost hopen hfail
  | received blocks hopen hreq hblocks hbytes =>
    obtain ⟨b, hlen, hb, rfl⟩ := Wire.recvInt_eq_done.mp hop
    have hnew : ∀ b' ∈ blocks ++ [b], b'.length = 4 := by
      intro b' hb'
      rcases List.mem_append.mp hb' with hb' | hb'
      · exact hblocks b' hb'
      · rw [List.mem_singleton.mp hb', hlen]
    have hmore : Decoded { st with unread } _ ((blocks ++ [b]).map Wire.ofInt32) :=
      .received (blocks ++ [b]) hopen hreq hnew
        (by rw [List.flatten_append, List.flatten_singleton, List.append_assoc, ← hb, hbytes])
    rwa [List.map_append] at hmore

end Stream.Decoded

namespace Wired

structure InStep (w : Wired V) : Prop where
  sessions : w.server.sessions.length = w.streams.length
  creations : (creations w.events).length = w.streams.length
  decoded : ∀ (k : ℕ) (st : Stream), w.streams[k]? = some st →
    ∃ req, (PMLib.creations w.events)[k]? = some req ∧ st.Decoded req (opcodes k w.events)
  unused : ∀ k, w.streams.length ≤ k → opcodes k w.events = []

theorem boot_inStep {s : Server V} (h : s.Initial) : (boot s).InStep where
  sessions := by simp [boot, h.sessions]
  creations := rfl
  decoded := by simp [boot]
  unused := by simp [boot, opcodes]

section steps

variable [Zero V] [Add V] {w u : Wired V}

theorem advance_eq_done {e : Event V} : w.advance e = .done u ↔
    ∃ s, w.server.next e = .done s ∧ u = { w with server := s, events := w.events ++ [e] } := by
  rw [advance, Outcome.bind_eq_done]
  simp [eq_comm]

omit [Zero V] [Add V] in
theorem length_construct {s t : Server V} {req : Option CreateRequest}
    (h : s.construct req = .done t) : t.sessions.length = s.sessions.length + 1 := by
  unfold Server.construct at h
  dsimp only at h
  split at h
  · obtain rfl := Outcome.done.inj h
    simp
  · obtain rfl := Outcome.done.inj h
    simp [Server.addSession]
  · cases h

theorem length_serve {s t : Server V} {k : ℕ} {c : Counter} {op : ℤ}
    (h : s.serve k c op = .done t) : t.sessions.length = s.sessions.length := by
  unfold Server.serve at h
  split at h
  · obtain rfl := Outcome.done.inj h
    simp
  · obtain rfl := Outcome.done.inj h
    simp [Server.setSession]
  · cases h

omit [Zero V] [Add V] in
theorem length_destroy {s t : Server V} {k : ℕ} {c : Counter} (h : s.destroy k c = .done t) :
    t.sessions.length = s.sessions.length := by
  unfold Server.destroy at h
  split_ifs at h
  · obtain ⟨dev, _, h⟩ := Outcome.bind_eq_done.mp h
    obtain rfl := Outcome.done.inj h
    simp
  · obtain rfl := Outcome.done.inj h
    simp

theorem length_sessions {s t : Server V} {e : Event V} (h : s.next e = .done t) :
    t.sessions.length = s.sessions.length + (PMLib.creations [e]).length := by
  cases e with
  | sample x =>
    obtain rfl := Outcome.done.inj h
    rfl
  | connection op req =>
    simp only [Server.next] at h
    split_ifs at h with hop
    · have hone : (PMLib.creations [(.connection op req : Event V)]).length = 1 := by
        simp [PMLib.creations, hop]
      rw [hone, length_construct h]
    · obtain rfl := Outcome.done.inj h
      simp [PMLib.creations, hop]
  | receive k op =>
    have hnone : (PMLib.creations [(.receive k op : Event V)]).length = 0 := rfl
    rw [hnone, Nat.add_zero]
    simp only [Server.next] at h
    split at h
    · exact length_serve h
    · obtain rfl := Outcome.done.inj h
      simp [Server.setSession]
    · cases h
  | send k ok =>
    have hnone : (PMLib.creations [(.send k ok : Event V)]).length = 0 := rfl
    rw [hnone, Nat.add_zero]
    simp only [Server.next] at h
    split at h
    · split_ifs at h
      · obtain rfl := Outcome.done.inj h
        simp [Server.setSession]
      · exact length_destroy h
      · obtain rfl := Outcome.done.inj h
        simp [Server.setSession]
    · split_ifs at h
      · exact length_destroy h
      · obtain rfl := Outcome.done.inj h
        simp [Server.setSession]
    · cases h

theorem InStep.advance (h : w.InStep) {e : Event V} (hc : PMLib.creations [e] = [])
    (ho : ∀ k, opcodes k [e] = []) (hu : w.advance e = .done u) : u.InStep := by
  obtain ⟨s, hs, rfl⟩ := advance_eq_done.mp hu
  have hlen := length_sessions hs
  rw [hc, List.length_nil, Nat.add_zero] at hlen
  exact {
    sessions := hlen.trans h.sessions
    creations := by rw [creations_append, hc, List.append_nil, h.creations]
    decoded := by
      intro k st hk
      rw [creations_append, hc, List.append_nil, opcodes_append, ho, List.append_nil]
      exact h.decoded k st hk
    unused := by
      intro k hk
      rw [opcodes_append, ho, List.append_nil, h.unused k hk] }

theorem InStep.open_stream (h : w.InStep) {e : Event V} {req : Option CreateRequest}
    {st : Stream} (hc : PMLib.creations [e] = [req]) (ho : ∀ k, opcodes k [e] = [])
    (hst : st.Decoded req []) (hu : w.advance e = .done u) :
    InStep { u with streams := u.streams ++ [st] } := by
  obtain ⟨s, hs, rfl⟩ := advance_eq_done.mp hu
  have hlen := length_sessions hs
  rw [hc, List.length_singleton] at hlen
  exact {
    sessions := by
      rw [List.length_append, List.length_singleton, ← h.sessions]
      exact hlen
    creations := by
      rw [creations_append, hc, List.length_append, h.creations, List.length_append]
      rfl
    decoded := by
      intro k st' hk
      rw [creations_append, hc, opcodes_append, ho, List.append_nil]
      rcases getElem?_snoc_cases hk with ⟨rfl, rfl⟩ | hk
      · refine ⟨req, ?_, ?_⟩
        · rw [← h.creations, List.getElem?_concat_length]
        · rw [h.unused _ (Nat.le_refl _)]
          exact hst
      · obtain ⟨req', hreq, hdec⟩ := h.decoded k st' hk
        obtain ⟨hlt, _⟩ := List.getElem?_eq_some_iff.mp hreq
        exact ⟨req', by rw [List.getElem?_append_left hlt, hreq], hdec⟩
    unused := by
      intro k hk
      have hle : w.streams.length ≤ k := by
        rw [List.length_append] at hk
        exact (Nat.le_add_right _ _).trans hk
      rw [opcodes_append, ho, List.append_nil, h.unused k hle] }

theorem InStep.receive (h : w.InStep) {k : ℕ} {st : Stream} {op : ℤ} {unread : List Byte}
    (hk : w.streams[k]? = some st) (hop : recvInt st.unread = .done (op, unread))
    (hu : w.advance (.receive k (some op)) = .done u) :
    InStep { u with streams := u.streams.set k { st with unread } } := by
  obtain ⟨s, hs, rfl⟩ := advance_eq_done.mp hu
  have hlen := length_sessions hs
  have hc : PMLib.creations [(.receive k (some op) : Event V)] = [] := rfl
  have ho : ∀ j, opcodes j [(.receive k (some op) : Event V)] = if k = j then [op] else [] := by
    intro j
    by_cases hj : k = j <;> simp [opcodes, hj]
  rw [hc, List.length_nil, Nat.add_zero] at hlen
  have hlt := (List.getElem?_eq_some_iff.mp hk).1
  exact {
    sessions := by rw [List.length_set]; exact hlen.trans h.sessions
    creations := by rw [creations_append, hc, List.append_nil, List.length_set, h.creations]
    decoded := by
      intro j st' hj
      rw [creations_append, hc, List.append_nil, opcodes_append, ho]
      rcases getElem?_set_cases hj with ⟨rfl, rfl⟩ | ⟨hne, hj⟩
      · obtain ⟨req, hreq, hdec⟩ := h.decoded j st hk
        exact ⟨req, hreq, by rw [if_pos rfl]; exact hdec.receive hop⟩
      · rw [if_neg (Ne.symm hne), List.append_nil]
        exact h.decoded j st' hj
    unused := by
      intro j hj
      rw [List.length_set] at hj
      have hne : k ≠ j := by rintro rfl; exact absurd hlt (Nat.not_lt.mpr hj)
      rw [opcodes_append, ho, if_neg hne, List.append_nil, h.unused j hj] }

omit [Zero V] [Add V] in
theorem InStep.arrive (h : w.InStep) (k : ℕ) (bytes : List Byte) :
    InStep { w with streams := w.streams.modify k fun st =>
      { st with later := st.later ++ bytes, unread := st.unread ++ bytes } } where
  sessions := by rw [List.length_modify]; exact h.sessions
  creations := by rw [List.length_modify]; exact h.creations
  decoded := by
    intro j st hj
    rw [List.getElem?_modify] at hj
    obtain ⟨st₀, hst₀, hst⟩ := Option.map_eq_some_iff.mp hj
    obtain ⟨req, hreq, hdec⟩ := h.decoded j st₀ hst₀
    refine ⟨req, hreq, ?_⟩
    split_ifs at hst with hjk
    · subst hst
      exact hdec.arrive bytes
    · subst hst
      exact hdec
  unused := by
    intro j hj
    rw [List.length_modify] at hj
    exact h.unused j hj

inductive Moves (w : Wired V) : Wired V → Prop where
  | idle : Moves w w
  | advanced (e : Event V) (u : Wired V) : creations [e] = [] → (∀ k, opcodes k [e] = []) →
      w.advance e = .done u → Moves w u
  | opened (e : Event V) (u : Wired V) (req : Option CreateRequest) (st : Stream) :
      creations [e] = [req] → (∀ k, opcodes k [e] = []) → st.Decoded req [] →
      w.advance e = .done u → Moves w { u with streams := u.streams ++ [st] }
  | received (k : ℕ) (u : Wired V) (st : Stream) (op : ℤ) (unread : List Byte) :
      w.streams[k]? = some st → recvInt st.unread = .done (op, unread) →
      w.advance (.receive k (some op)) = .done u →
      Moves w { u with streams := u.streams.set k { st with unread } }
  | arrived (k : ℕ) (bytes : List Byte) :
      Moves w { w with streams := w.streams.modify k fun st =>
        { st with later := st.later ++ bytes, unread := st.unread ++ bytes } }

private theorem accept_moves {opening : List Byte} (hu : w.accept opening = .done u) :
    w.Moves u := by
  unfold accept at hu
  split at hu
  · next op fields hop =>
    split_ifs at hu with hcreate
    · split at hu
      · next req unread hreq =>
        obtain ⟨v, hv, hu⟩ := Outcome.bind_eq_done.mp hu
        obtain rfl := Outcome.done.inj hu
        exact .opened _ v (some req) ⟨opening, [], unread⟩ (by simp [PMLib.creations, hcreate])
          (fun _ => rfl) (.received [] hop hreq (by simp) (by simp)) hv
      · next hreq =>
        obtain ⟨v, hv, hu⟩ := Outcome.bind_eq_done.mp hu
        obtain rfl := Outcome.done.inj hu
        exact .opened _ v none ⟨opening, [], []⟩ (by simp [PMLib.creations, hcreate])
          (fun _ => rfl) (.lost hop hreq) hv
      · cases hu
    · exact .advanced _ u (by simp [PMLib.creations, hcreate]) (fun _ => rfl) hu
  · obtain rfl := Outcome.done.inj hu
    exact .idle

theorem next_moves {e : WireEvent V} (hu : w.next e = .done u) : w.Moves u := by
  cases e with
  | sample x => exact .advanced _ u rfl (fun _ => rfl) hu
  | connection opening => exact accept_moves hu
  | arrive k bytes =>
    obtain rfl := Outcome.done.inj hu
    exact .arrived k bytes
  | receive k =>
    simp only [next, Wired.receive] at hu
    split at hu
    · next st hk =>
      split at hu
      · next op unread hop =>
        obtain ⟨v, hv, hu⟩ := Outcome.bind_eq_done.mp hu
        obtain rfl := Outcome.done.inj hu
        exact .received k v st op unread hk hop hv
      · cases hu
    · cases hu
  | lose k => exact .advanced _ u rfl (fun _ => rfl) hu
  | send k ok => exact .advanced _ u rfl (fun _ => rfl) hu

theorem InStep.next (h : w.InStep) (hu : w.Moves u) : u.InStep := by
  cases hu with
  | idle => exact h
  | advanced e _ hc ho hv => exact h.advance hc ho hv
  | opened e v req st hc ho hst hv => exact h.open_stream hc ho hst hv
  | received k v st op unread hk hop hv => exact h.receive hk hop hv
  | arrived k bytes => exact h.arrive k bytes

theorem exec_events {s : Server V} (h : Trace.exec Server.next s w.events = .done w.server)
    (hu : w.Moves u) : Trace.exec Server.next s u.events = .done u.server := by
  have hone : ∀ e v, w.advance e = .done v →
      Trace.exec Server.next s v.events = .done v.server := by
    intro e v hv
    obtain ⟨t, ht, rfl⟩ := advance_eq_done.mp hv
    exact (Trace.exec_snoc Server.next).mpr ⟨w.server, h, ht⟩
  cases hu with
  | idle => exact h
  | advanced e _ _ _ hv => exact hone e u hv
  | opened e v req st _ _ _ hv => exact hone e v hv
  | received k v st op unread _ _ hv => exact hone _ v hv
  | arrived k bytes => exact h

/-- A run behind the sockets is a run of the server, in step with the streams. -/
theorem exec_inStep {s : Server V} (hs : s.Initial) {es : List (WireEvent V)}
    (hw : Trace.exec Wired.next (boot s) es = .done w) :
    Trace.exec Server.next s w.events = .done w.server ∧ w.InStep := by
  refine Trace.exec_invariant Wired.next (fun _ w =>
    Trace.exec Server.next s w.events = .done w.server ∧ w.InStep)
    ⟨rfl, boot_inStep hs⟩ ?_ hw
  rintro _ v e u _ ⟨hrun, hv⟩ hn
  have hm := next_moves hn
  exact ⟨exec_events hrun hm, hv.next hm⟩

end steps

end Wired

/-- A stream of four-byte blocks that begins a list of commands consists of the first of
them; the rest of the list is still to come. -/
theorem commands_split {cmds : List Command} {blocks : List (List Byte)} {unread : List Byte}
    (hblocks : ∀ b ∈ blocks, b.length = 4)
    (hbytes : cmds.flatMap Command.message = blocks.flatten ++ unread) :
    ∃ read todo, cmds = read ++ todo ∧ blocks.map Wire.ofInt32 = read.map Command.typeMark ∧
      unread = todo.flatMap Command.message := by
  induction blocks generalizing cmds with
  | nil => exact ⟨[], cmds, rfl, rfl, hbytes.symm⟩
  | cons b blocks ih =>
    have hb := hblocks b (by simp)
    cases cmds with
    | nil =>
      have hlen := congrArg List.length hbytes
      rw [List.flatMap_nil, List.flatten_cons, List.append_assoc, List.length_append, hb,
        List.length_nil] at hlen
      omega
    | cons c cmds =>
      rw [List.flatMap_cons, List.flatten_cons, List.append_assoc] at hbytes
      obtain ⟨hhead, htail⟩ := List.append_inj hbytes
        (by rw [hb]; exact Wire.int32_length c.typeMark)
      obtain ⟨read, todo, rfl, hread, hunread⟩ :=
        ih (fun b' hb' => hblocks b' (by simp [hb'])) htail
      refine ⟨c :: read, todo, rfl, ?_, hunread⟩
      rw [List.map_cons, List.map_cons, hread, ← hhead, Command.message, Wire.ofInt32_int32,
        wrap32_of_fits c.typeMark_fits]

section runs

variable [Zero V] [Add V]

theorem Run.finalize_read (ρ : Run V) {es : List (Event V)} {t : Server V}
    (ht : Trace.exec Server.next ρ.start es = .done t) {k : ℕ} {ss : Session V}
    (hk : t.sessions[k]? = some ss) (hrun : ss.counter.running = false) :
    ∃ op ∈ opcodes k es, Operation.ofInt op = some .finalize := by
  induction es using List.reverseRecOn generalizing t ss with
  | nil =>
    obtain rfl := Outcome.done.inj ht
    simp [ρ.initial.sessions] at hk
  | append_singleton es e ih =>
    obtain ⟨s, hs, hn⟩ := (Trace.exec_snoc Server.next).mp ht
    obtain ⟨hw, _⟩ := ρ.follows hs
    rcases (next_change hw hn).stops hk hrun with ⟨ss₀, h₀, hrun₀⟩ | hd
    · obtain ⟨op, hop, hfin⟩ := ih hs h₀ hrun₀
      exact ⟨op, by rw [opcodes_append]; exact List.mem_append_left _ hop, hfin⟩
    · obtain ⟨op, rfl, hfin⟩ := hd.exists_receive
      refine ⟨op, ?_, hfin⟩
      rw [opcodes_append]
      exact List.mem_append_right _ (by simp [opcodes])

end runs

/-- In any run of the server behind its sockets: let the client of a session have sent the
CREATE message of valid arguments and then commands, of which only the last may finalize.
Then the constructor got the request that was made, and `run` has got the first commands, in
order; the bytes of the others, and no more, are unread. So nothing is unread when no command
was sent, be the request accepted or not, nor when the handler has finished. -/
theorem Wired.requests_decoded [Zero V] [Add V] {s : Server V} (hs : s.Initial)
    {es : List (WireEvent V)} {w : Wired V} (hw : Trace.exec Wired.next (boot s) es = .done w)
    {k : ℕ} {st : Stream} (hk : w.streams[k]? = some st) {a : CreateCall} (ha : a.Valid)
    (hopen : a.pmCreateCounter = .done st.opening) {cmds : List Command}
    (hlater : st.later = cmds.flatMap Command.message)
    (hfin : ∀ c ∈ cmds.dropLast, c ≠ .finalize) :
    Trace.exec Server.next s w.events = .done w.server ∧
      (creations w.events)[k]? = some (some a.request) ∧
      ∃ read todo, cmds = read ++ todo ∧ opcodes k w.events = read.map Command.typeMark ∧
        st.unread = todo.flatMap Command.message ∧ (cmds = [] → st.unread = []) ∧
        ∀ ss, w.server.sessions[k]? = some ss → ss.counter.running = false → todo = [] := by
  obtain ⟨hrun, hstep⟩ := exec_inStep hs hw
  obtain ⟨req, hreq, hdec⟩ := hstep.decoded k st hk
  obtain ⟨hname, hmsg⟩ := CreateCall.pmId_length_lt hopen
  have hopcode : recvInt st.opening = .done (0, sendString a.pmId ++ (int32 a.interval ++
      (int32 a.aggregate ++ sendString a.lines.bits))) := by
    rw [hmsg, CreateCall.message_eq]
    exact Wire.reads_int_of_fits (by decide) _
  have hfields := CreateCall.reads_request ha hname []
  rw [List.append_nil] at hfields
  generalize hops : opcodes k w.events = ops at hdec ⊢
  cases hdec with
  | lost hop hfail =>
    obtain ⟨-, rfl⟩ := Prod.mk.inj (Outcome.done.inj (hopcode.symm.trans hop))
    rw [hfields] at hfail
    cases hfail
  | received blocks hop hreq' hblocks hbytes =>
    obtain ⟨-, rfl⟩ := Prod.mk.inj (Outcome.done.inj (hopcode.symm.trans hop))
    obtain ⟨rfl, rfl⟩ := Prod.mk.inj (Outcome.done.inj (hfields.symm.trans hreq'))
    rw [List.nil_append, hlater] at hbytes
    obtain ⟨read, todo, rfl, hread, hunread⟩ := commands_split hblocks hbytes
    refine ⟨hrun, hreq, read, todo, rfl, hread, hunread, ?_, fun ss hss hstop => ?_⟩
    · intro hnone
      rw [hunread, (List.append_eq_nil_iff.mp hnone).2, List.flatMap_nil]
    -- FINALIZE is the last command, so nothing comes after it
    let ρ : Run V := ⟨s, w.events, w.server, hs, hrun⟩
    obtain ⟨op, hmem, hop⟩ := ρ.finalize_read hrun hss hstop
    rw [hops, hread, List.mem_map] at hmem
    obtain ⟨c, hc, rfl⟩ := hmem
    rw [Command.ofInt_typeMark] at hop
    have hc' : c = .finalize := by cases c <;> simp_all [Command.operation]
    by_contra hne
    refine hfin c ?_ hc'
    rw [List.dropLast_append_of_ne_nil hne]
    exact List.mem_append_left _ hc

def measureOnce (a : CreateCall) : List (WireEvent ℤ) :=
  [.connection a.message, .send 0 true] ++ [Command.start, .stop, .finalize].flatMap fun c =>
    [.arrive 0 c.message, .receive 0, .send 0 true]

theorem requests_decoded_measureOnce : ∃ w st,
    Trace.exec Wired.next (Wired.boot (.configured [65#8] 1 1))
        (measureOnce ⟨[65#8], LineT.setAll, 1, 0⟩) = .done w ∧
      w.streams[0]? = some st ∧ st.unread = [] ∧ opcodes 0 w.events = [1, 3, 5] ∧
      (creations w.events)[0]? = some (some ⟨[65#8], 0, true, LineT.setAll.bits⟩) := by
  let a : CreateCall := ⟨[65#8], LineT.setAll, 1, 0⟩
  let cmds : List Command := [.start, .stop, .finalize]
  have hcheck : (Trace.exec Wired.next (Wired.boot (.configured [65#8] 1 1))
      (measureOnce a)).check (fun w => w.streams.map (fun st => (st.opening, st.later)) ==
        [(a.message, cmds.flatMap Command.message)] &&
        (w.server.sessions[0]?.map fun ss => ss.counter.running) == some false) = true := by
    decide +kernel
  obtain ⟨w, hw, hp⟩ := Outcome.check_eq_true.mp hcheck
  rw [Bool.and_eq_true, beq_iff_eq, beq_iff_eq] at hp
  obtain ⟨hst, hrun⟩ := hp
  obtain ⟨st, hst, heq⟩ := List.map_eq_singleton_iff.mp hst
  obtain ⟨ss, hss, hstop⟩ := Option.map_eq_some_iff.mp hrun
  obtain ⟨hopen, hlater⟩ := Prod.mk.inj heq
  have hstream : w.streams[0]? = some st := by rw [hst]; rfl
  have hvalid : a.Valid := ⟨by decide, .inr rfl⟩
  obtain ⟨-, hreq, read, todo, hsplit, hread, hunread, -, hend⟩ :=
    Wired.requests_decoded (Server.configured_initial [65#8] 1 1) hw hstream hvalid
      (by rw [hopen]; decide) hlater (by decide)
  obtain rfl := hend ss hss hstop
  rw [List.append_nil] at hsplit
  refine ⟨w, st, hw, by rw [hst]; rfl, by rw [hunread]; rfl, ?_, hreq⟩
  rw [hread, ← hsplit]
  rfl

end PMLib
