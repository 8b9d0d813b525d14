import PMLib.Lib.Binary32
import PMLib.Lib.RefCount
import PMLib.Lib.Trace
import PMLib.Json
import PMLib.LegacyLines
import PMLib.LegacyReply

/-! # Sessions of the legacy server

The main thread takes every request for a counter itself, and each counter then has a thread.
What an exception leaves behind stays as it is: `EStateM` keeps the device when it throws. -/
namespace PMLib.Legacy

variable {V : Type}

/-- How a call ends that does not return. `raised` is an `Exception`. `exited` is the one of
`sys.exit`, which no handler here catches. `blocked` waits for a lock that is never released. -/
inductive Halt where
  | raised | exited | blocked
  deriving DecidableEq, Repr

def PowerData.empty : PowerData V := ⟨[], by norm_num⟩

def PowerData.append (p : PowerData V) (v : V) : PowerData V :=
  if h : (p.samples ++ [v]).length < 2 ^ 53 then ⟨p.samples ++ [v], h⟩ else p

structure Line (V : Type) where
  enabled : ℤ
  active : ℤ
  powerData : PowerData V

namespace Line

def fresh : Line V := ⟨0, 0, .empty⟩
def enable (l : Line V) : Line V := { l with enabled := l.enabled + 1 }
def disable (l : Line V) : Line V :=
  { l with enabled := if l.enabled - 1 < 0 then 0 else l.enabled - 1 }
def isEnabled (l : Line V) : Bool := l.enabled > 0
def activate (l : Line V) : Line V := { l with active := l.active + 1 }
def inactivate (l : Line V) : Line V :=
  { l with active := if l.active - 1 < 0 then 0 else l.active - 1 }
def isActive (l : Line V) : Bool := l.active > 0

def leave (l : Line V) : Line V :=
  if l.disable.isEnabled then l.disable else { l.disable with powerData := .empty }

def appendData (l : Line V) (v : V) : Line V :=
  if l.isActive then { l with powerData := l.powerData.append v } else l

def hasRoom (l : Line V) : Bool := !l.isActive || l.powerData.samples.length + 1 < 2 ^ 53

end Line

structure Device (V : Type) where
  name : Name
  maxFrequency : ℤ
  lines : Std.TreeMap ℕ (Line V)
  counters : Std.TreeSet ℕ
  counterLock : Bool

abbrev Py (V : Type) := EStateM Halt (Device V)

namespace Device

def acquire : Py V Unit := do
  let d ← get
  if d.counterLock then throw .blocked else set { d with counterLock := true }

def release : Py V Unit := modify fun d => { d with counterLock := false }

def withLine (f : Line V → Line V) (l : ℕ) : Py V Unit := do
  let d ← get
  match d.lines[l]? with
  | some ln => set { d with lines := d.lines.insert l (f ln) }
  | none => throw .raised

def addCounter (id : ℕ) (sel : List ℕ) : Py V Unit := do
  acquire
  modify fun d => { d with counters := d.counters.insert id }
  sel.forM (withLine Line.enable)
  release

/-- `del` of a missing key leaves with the lock. -/
def delCounter (id : ℕ) : Py V Unit := do
  let d ← get
  if id ∈ d.counters then set { d with counters := d.counters.erase id } else throw .raised

def removeCounter (id : ℕ) (sel : List ℕ) : Py V Unit := do
  acquire
  delCounter id
  sel.forM (withLine Line.leave)
  release

def startCounter (sel : List ℕ) : Py V Unit := do
  acquire
  sel.forM (withLine Line.activate)
  release

def stopCounter (sel : List ℕ) : Py V Unit := do
  acquire
  sel.forM (withLine Line.inactivate)
  release

def putLength (r : SetT) (l : ℕ) : Py V SetT := do
  let d ← get
  match d.lines[l]? with
  | some ln => pure (r.insert l ln.powerData.samples.length)
  | none => throw .raised

def getLinesLength (sel : List ℕ) : Py V SetT :=
  sel.foldlM putLength ∅

def lineAppendData (d : Device V) (sample : ℕ → V) : Device V :=
  { d with lines := d.lines.map fun l ln => ln.appendData (sample l) }

end Device

namespace Counter

def opening (c : Counter) (earlier : List CounterSet) : Py V (Counter × Reply V) :=
  if c.status = .inactive ∧ c.lastSetCompleted then do
    Device.startCounter c.lines
    let lengths ← Device.getLinesLength c.lines
    pure ({ c with status := .active, sets := earlier ++ [(lengths, none)] }, .retval .success)
  else pure (c, .retval .error)

def start (c : Counter) : Py V (Counter × Reply V) := c.opening []

def continue_ (c : Counter) : Py V (Counter × Reply V) := c.opening c.sets

def stop (c : Counter) : Py V (Counter × Reply V) :=
  if c.status = .active ∧ !c.lastSetCompleted then do
    Device.stopCounter c.lines
    let lengths ← Device.getLinesLength c.lines
    pure ({ c with status := .inactive,
                   sets := c.sets.dropLast ++
                     (c.sets.getLast?.map fun se => (se.1, some lengths)).toList },
      .retval .success)
  else pure (c, .retval .error)

/-- `get_`, on the lines that the device has by then. -/
def getReply [Zero V] [Add V] (c : Counter) : Py V (Counter × Reply V) := do
  let d ← MonadState.get
  match c.get (d.lines.map fun _ ln => ln.powerData) with
  | .done r => pure (c, r)
  | .failed | .undefined => throw .raised

def destroy (id : ℕ) (c : Counter) : Py V Unit := do
  if c.status = .active then Device.stopCounter c.lines
  Device.removeCounter id c.lines

/-- A message of `run`, and whether the thread goes on. The text for the log of any other message
has a variable in it that was never set. -/
def dispatch [Zero V] [Add V] (id : ℕ) (c : Counter) (op : ℤ) :
    Py V (Counter × Reply V × Bool) :=
  match Operation.ofInt op with
  | some .start => do let (c, r) ← c.start; pure (c, r, true)
  | some .continue_ => do let (c, r) ← c.continue_; pure (c, r, true)
  | some .stop => do let (c, r) ← c.stop; pure (c, r, true)
  | some .get => do let (c, r) ← c.getReply; pure (c, r, true)
  | some .finalize => do destroy id c; pure (c, .retval .success, false)
  | _ => throw .raised

end Counter

/-- What comes of the fields of a request. `closed` is the end of the connection, in front of
the name or behind it; `reset` is a receive that throws, `short` one with a piece of a number. -/
inductive Incoming where
  | whole (req : CreateRequest)
  | closed (deviceName : Option Name)
  | reset
  | short
  deriving DecidableEq, Repr

namespace Counter

def setFrequency (maxFrequency frequency : ℤ) : Outcome ℤ :=
  if frequency ≠ 0 ∧ frequency > maxFrequency then .failed
  else
    let frequency := if frequency = 0 then maxFrequency else frequency
    if frequency = 0 then .failed
    else .done <| Binary32.roundAway
      (Rounding.ofRat 52 (Rounding.ofRat 52 maxFrequency / Rounding.ofRat 52 frequency))

/-- `receive_all_data` on a connection that was closed, when the device is known: an exception
out of `destroy` is caught there. -/
def vanish (id : ℕ) : Py V Counter := do
  tryCatch (Device.removeCounter id []) fun h =>
    if h = .blocked then throw .blocked else throw .exited
  throw .exited

/-- `init_counter` behind the name of the device. A receive of no bytes looks like a closed
connection. -/
def request (id : ℕ) (req : CreateRequest) : Py V Counter := do
  let d ← MonadState.get
  match setFrequency d.maxFrequency req.frequency with
  | .failed | .undefined => throw .raised
  | .done interval =>
    if req.linesMask = [] then vanish id
    else match setLines d.lines.size req.linesMask with
      | .failed | .undefined => throw .raised
      | .done lines => do
        Device.addCounter id lines
        pure ⟨.inactive, req.aggregate, interval, lines, []⟩

/-- `init_counter` up to its reply. Its own handler raises, for want of a `device_name`. -/
def init (id : ℕ) (incoming : Incoming) : Py V Counter := do
  let d ← MonadState.get
  match incoming with
  | .reset => throw .exited
  | .short => throw .raised
  | .closed none => throw .exited
  | .closed (some dn) => if dn = d.name then vanish id else throw .raised
  | .whole req =>
    if req.deviceName = [] then throw .exited
    else if req.deviceName ≠ d.name then throw .raised
    else request id req

end Counter

/-- `created` until the constructor has replied. `left` is without its entry at the device,
`dead` a thread that ended with the entry in place. -/
inductive Phase (V : Type) where
  | created
  | serving
  | replying (r : Reply V)
  | left
  | dead
  | blocked
  deriving DecidableEq, Repr

structure Session (V : Type) where
  counter : Counter
  running : Bool
  phase : Phase V

/-- The main thread accepts, or sends the reply of a constructor, or has come to an end. -/
inductive Main where
  | accepting | answering | ended | blocked
  deriving DecidableEq, Repr

structure Server (V : Type) where
  dev : Device V
  sessions : List (Session V)
  main : Main

inductive Message where
  | op (n : ℤ)
  | closed
  | reset
  | short
  deriving DecidableEq, Repr

inductive Event (V : Type) where
  | sample (x : ℕ → V)
  | connection (op : ℤ) (incoming : Incoming)
  | receive (k : ℕ) (m : Message)
  | send (k : ℕ) (ok : Bool)

namespace Server

/-- `Server.run` goes on after an exception. -/
def construct (s : Server V) (incoming : Incoming) : Server V :=
  match (Counter.init s.sessions.length incoming).run s.dev with
  | .ok c dev => ⟨dev, s.sessions ++ [⟨c, true, .created⟩], .answering⟩
  | .error .raised dev => { s with dev }
  | .error .exited dev => { s with dev, main := .ended }
  | .error .blocked dev => { s with dev, main := .blocked }

def withSession (s : Server V) (k : ℕ) (ss : Session V) : Server V :=
  { s with sessions := s.sessions.set k ss }

def serve [Zero V] [Add V] (s : Server V) (k : ℕ) (c : Counter) (op : ℤ) : Server V :=
  match (c.dispatch k op).run s.dev with
  | .ok (c, r, running) dev => withSession { s with dev } k ⟨c, running, .replying r⟩
  | .error .blocked dev => withSession { s with dev } k ⟨c, true, .blocked⟩
  | .error _ dev => withSession { s with dev } k ⟨c, true, .dead⟩

def close (s : Server V) (k : ℕ) (c : Counter) : Server V :=
  match (c.destroy k).run s.dev with
  | .ok () dev => withSession { s with dev } k ⟨c, false, .left⟩
  | .error .blocked dev => withSession { s with dev } k ⟨c, true, .blocked⟩
  | .error _ dev => withSession { s with dev } k ⟨c, true, .dead⟩

def next [Zero V] [Add V] (s : Server V) : Event V → Outcome (Server V)
  | .sample x =>
    if s.dev.lines.toList.all fun line => line.2.hasRoom then
      .done { s with dev := s.dev.lineAppendData x }
    else .failed
  | .connection op incoming =>
    if s.main = .accepting then
      .done (if Operation.ofInt op = some .create then s.construct incoming else s)
    else .failed
  | .receive k m =>
    match s.sessions[k]? with
    | some ⟨c, _, .serving⟩ => .done <|
      match m with
      | .op n => s.serve k c n
      | .closed => s.close k c
      | .reset | .short => s.withSession k ⟨c, true, .dead⟩
    | _ => .failed
  | .send k ok =>
    match s.sessions[k]? with
    | some ⟨c, running, .created⟩ => .done <|
      if ok then { s.withSession k ⟨c, running, .serving⟩ with main := .accepting }
      else { s.withSession k ⟨c, running, .dead⟩ with main := .ended }
    | some ⟨c, true, .replying _⟩ =>
      .done (s.withSession k ⟨c, true, if ok then .serving else .dead⟩)
    | some ⟨c, false, .replying _⟩ => .done (s.withSession k ⟨c, false, .left⟩)
    | _ => .failed

def configured (name : Name) (maxFrequency : ℤ) (nLines : ℕ) : Server V where
  dev := { name, maxFrequency, counters := ∅, counterLock := false,
           lines := (List.range nLines).foldl (fun m l => m.insert l Line.fresh) ∅ }
  sessions := []
  main := .accepting

end Server

end PMLib.Legacy
