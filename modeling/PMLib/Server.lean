import PMLib.Counter
import PMLib.Lib.Trace

/-! # Client sessions on one device

Each connection has a handler thread. Its only blocking points are socket calls, and a
socket call may throw. `Phase` says at which call the handler of a counter stands; an
event completes that call, or makes it throw, and runs the handler up to the next one. -/
namespace PMLib

variable {V : Type}

/-- `serving`: receiving the next opcode. `replying`: sending a reply, of the constructor
or of an operation. `catching`: sending the error reply of a catch block. `destroyed`: the
handler has returned, after the counter's destructor. `escaped`: the handler has ended by an
exception out of the constructor, whose object is then not destroyed. -/
inductive Phase (V : Type) where
  | serving
  | replying (r : Reply V)
  | catching
  | destroyed
  | escaped
  deriving DecidableEq, Repr

def Phase.live : Phase V → Bool
  | .serving | .replying _ | .catching => true
  | .destroyed | .escaped => false

structure Session (V : Type) where
  counter : Counter
  phase : Phase V

/-- One device with the sessions on it, in the order of their creation. The id of a
counter is its position, counted from one. -/
structure Server (V : Type) where
  dev : Device V
  sessions : List (Session V)

/-- `sample` is one consumed device sample. `connection` is a new connection with its first
opcode; the request is `none` when a receive of the constructor throws. `receive` and `send`
are the socket calls of session `k`; a receive that throws delivers no opcode. -/
inductive Event (V : Type) where
  | sample (x : ℕ → V)
  | connection (op : ℤ) (req : Option CreateRequest)
  | receive (k : ℕ) (op : Option ℤ)
  | send (k : ℕ) (ok : Bool)

namespace Server

def setSession (s : Server V) (k : ℕ) (ss : Session V) : Server V :=
  { s with sessions := s.sessions.set k ss }

def addSession (s : Server V) (ss : Session V) : Server V :=
  { s with sessions := s.sessions ++ [ss] }

def construct (s : Server V) (req : Option CreateRequest) : Outcome (Server V) :=
  let id := s.sessions.length + 1
  let attempt : Outcome (Counter × Device V) :=
    match req with
    | some req => Counter.construct id req s.dev
    | none => .failed
  match attempt with
  | .done (c, dev) =>
    .done { dev, sessions := s.sessions ++ [⟨c, .replying (.retval .success)⟩] }
  | .failed => .done (s.addSession ⟨Counter.unregistered id, .catching⟩)
  | .undefined => .undefined

def destroy (s : Server V) (k : ℕ) (c : Counter) : Outcome (Server V) := do
  let dev ← if c.registered then s.dev.deregisterCounter c else .done s.dev
  .done { dev, sessions := s.sessions.set k ⟨c, .destroyed⟩ }

def serve [Zero V] [Add V] (s : Server V) (k : ℕ) (c : Counter) (op : ℤ) :
    Outcome (Server V) :=
  match c.dispatch s.dev op with
  | .done (c, dev, r) => .done { dev, sessions := s.sessions.set k ⟨c, .replying r⟩ }
  | .failed => .done (s.setSession k ⟨c, .catching⟩)
  | .undefined => .undefined

def next [Zero V] [Add V] (s : Server V) : Event V → Outcome (Server V)
  | .sample x => .done { s with dev := s.dev.pushBackData x }
  | .connection op req =>
    if Operation.ofInt op = some .create then s.construct req else .done s
  | .receive k op =>
    match s.sessions[k]?, op with
    | some ⟨c, .serving⟩, some op => s.serve k c op
    | some ⟨c, .serving⟩, none => .done (s.setSession k ⟨c, .catching⟩)
    | _, _ => .failed
  | .send k ok =>
    match s.sessions[k]? with
    | some ⟨c, .replying _⟩ =>
      if ok then
        if c.running then .done (s.setSession k ⟨c, .serving⟩) else s.destroy k c
      else .done (s.setSession k ⟨c, .catching⟩)
    | some ⟨c, .catching⟩ =>
      if ok then s.destroy k c else .done (s.setSession k ⟨c, .escaped⟩)
    | _ => .failed

structure Initial (s : Server V) : Prop where
  sessions : s.sessions = []
  complete : s.dev.Complete
  fresh : ∀ (l : ℕ) (ln : Line V), s.dev.lines[l]? = some ln → ln = Line.fresh
  counterMap : ∀ i : ℕ, i ∉ s.dev.counterMap

def configured (name : List Byte) (maxFrequency : ℤ) (nLines : ℕ) : Server V where
  dev := { name, maxFrequency, nLines, counterMap := ∅,
           lines := (List.range nLines).foldl (fun m l => m.insert l Line.fresh) ∅ }
  sessions := []

theorem configured_lines (name : List Byte) (maxFrequency : ℤ) (nLines l : ℕ) :
    (configured name maxFrequency nLines : Server V).dev.lines[l]? =
      if l < nLines then some Line.fresh else none := by
  simp only [configured]
  induction nLines with
  | zero => simp
  | succ n ih =>
    rw [List.range_succ, List.foldl_append, List.foldl_cons, List.foldl_nil,
      Std.TreeMap.getElem?_insert, ih]
    by_cases hl : n = l
    · simp [hl]
    · have hc : compare n l ≠ .eq := by simpa using hl
      simp only [hc, if_false]
      split_ifs <;> first | rfl | omega

theorem configured_initial (name : List Byte) (maxFrequency : ℤ) (nLines : ℕ) :
    (configured name maxFrequency nLines : Server V).Initial where
  sessions := rfl
  complete l hl := ⟨Line.fresh, (configured_lines ..).trans (if_pos hl)⟩
  fresh l ln hl := by
    rw [configured_lines] at hl
    split_ifs at hl
    exact (Option.some.inj hl).symm
  counterMap i := by simp [configured]

end Server

structure Run (V : Type) [Zero V] [Add V] where
  start : Server V
  events : List (Event V)
  final : Server V
  initial : start.Initial
  exec : Trace.exec Server.next start events = .done final

end PMLib
