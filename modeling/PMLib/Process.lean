import PMLib.Configuration
import PMLib.Lib.Spsc

/-! # The server and its threads

Each device has a thread of its own, which takes the samples that the thread of its driver puts
into a queue, and gives them to the lines one by one. The main thread starts one device after the
other, then it listens. The handlers of the clients change the lines of a device whenever they
like, also while a sample visits them. -/
namespace PMLib

variable {V : Type} {Q : Spsc.Queue (ℕ → V)}

inductive Reader where
  | idle | reading | returned
  deriving DecidableEq, Repr

/-- Where `Device::run` stands. `checking` and `draining` are at the heads of its two loops,
`confirming` is at the second test of the inner one, and `pushing` is in `push_back_data`, with the
lines that the sample has still to visit. -/
inductive Consumer (V : Type) where
  | unstarted
  | entering
  | checking
  | draining
  | confirming
  | popping
  | pushing (x : ℕ → V) (rest : List ℕ)
  | announcing
  | joining
  | ended

def queueCapacity : ℕ := 10000

/-- What the handler of a client does to a line at a time. -/
inductive Access where
  | enable | disable | clearData | activate | deactivate
  deriving DecidableEq, Repr

def Access.apply : Access → Line V → Line V
  | .enable => Line.enable
  | .disable => Line.disable
  | .clearData => Line.clearData
  | .activate => Line.activate
  | .deactivate => Line.deactivate

structure Threads (V : Type) (Q : Spsc.Queue (ℕ → V)) where
  running : Bool
  working : Bool
  dataQueue : Q.State
  reader : Reader
  consumer : Consumer V
  dev : Device V

inductive Move (V : Type) where
  | start
  | stop
  | yield (x : ℕ → V)
  | finish
  | step
  | access (l : ℕ) (a : Access)

namespace Threads

def boot (dev : Device V) : Threads V Q := ⟨true, false, Q.empty, .idle, .unstarted, dev⟩

/-- A thread that is there already cannot be assigned to. -/
def start (th : Threads V Q) : Outcome (Threads V Q) :=
  match th.consumer with
  | .unstarted => .done { th with consumer := .entering }
  | _ => .failed

def stop (th : Threads V Q) : Threads V Q := { th with running := false }

/-- A driver goes on when there was no room for its sample. -/
def yield (th : Threads V Q) (x : ℕ → V) : Outcome (Threads V Q) :=
  if th.reader = .reading then .done { th with dataQueue := Q.push th.dataQueue x } else .failed

/-- The driver has left its loop, or was thrown out of it. -/
def finish (th : Threads V Q) : Outcome (Threads V Q) :=
  if th.reader = .reading then .done { th with reader := .returned } else .failed

def access (th : Threads V Q) (l : ℕ) (a : Access) : Outcome (Threads V Q) := do
  let dev ← th.dev.withLine l a.apply
  .done { th with dev }

/-- A step of `run`. A pop from an empty queue is tried again. -/
def step (th : Threads V Q) : Outcome (Threads V Q) :=
  match th.consumer with
  | .unstarted | .ended => .failed
  | .entering =>
    if th.dev.lines.size < th.dev.nLines then .done { th with consumer := .ended }
    else .done { th with reader := .reading, consumer := .checking }
  | .checking => .done { th with consumer := if th.running then .draining else .joining }
  | .draining =>
    .done { th with consumer := if Q.isEmpty th.dataQueue then .checking else .confirming }
  | .confirming => .done { th with consumer := if th.running then .popping else .checking }
  | .popping =>
    match Q.pop th.dataQueue with
    | some (x, dataQueue) => .done { th with dataQueue, consumer := .pushing x th.dev.lines.keys }
    | none => .done th
  | .pushing x (l :: rest) => do
    let dev ← th.dev.withLine l fun ln => ln.consume (x l)
    .done { th with dev, consumer := .pushing x rest }
  | .pushing _ [] => .done { th with consumer := .announcing }
  | .announcing => .done { th with working := true, consumer := .draining }
  | .joining => if th.reader = .returned then .done { th with consumer := .ended } else .failed

def next (th : Threads V Q) : Move V → Outcome (Threads V Q)
  | .start => th.start
  | .stop => .done th.stop
  | .yield x => th.yield x
  | .finish => th.finish
  | .step => th.step
  | .access l a => th.access l a

end Threads

/-- Where the main thread stands: in `start_devices` or in `stop_devices`, with the position in the
map of the devices, or between the two. `exited` is the end by `exit`. -/
inductive MainThread where
  | starting (i : ℕ)
  | waiting (i : ℕ)
  | listening
  | stopping (i : ℕ)
  | confirming (i : ℕ)
  | ended
  | exited
  deriving DecidableEq, Repr

def MainThread.over : MainThread → Bool
  | .ended | .exited => true
  | _ => false

/-- `accepted` counts the connections, each of which has a handler. -/
structure Process (V : Type) (Q : Spsc.Queue (ℕ → V)) where
  main : MainThread
  order : List Name
  devices : Std.TreeMap Name (Threads V Q)
  accepted : ℕ

/-- `interrupt` is a signal to the process, `refused` an address that cannot be listened at. -/
inductive ProcessEvent (V : Type) where
  | main
  | refused
  | interrupt
  | accept
  | yield (dn : Name) (x : ℕ → V)
  | finish (dn : Name)
  | consumer (dn : Name)
  | access (dn : Name) (l : ℕ) (a : Access)

namespace Process

def boot (deviceMap : Std.TreeMap Name (Device V)) : Process V Q where
  main := if deviceMap.isEmpty then .ended else .starting 0
  order := startedDevices deviceMap
  devices := deviceMap.map fun _ dev => .boot dev
  accepted := 0

def configured (Q : Spsc.Queue (ℕ → V)) (register : Name → Option Driver)
    (text : Json → List Byte) (takesDisk : DiskCheck) (conf : Json) : Process V Q :=
  boot (parseConfigfile register text takesDisk conf)

def move (p : Process V Q) (dn : Name) (m : Move V) : Outcome (Process V Q) := do
  let th ← Outcome.ofOption p.devices[dn]?
  let th ← th.next m
  .done { p with devices := p.devices.insert dn th }

/-- A step of the main thread. It may wake up from a wait at any time. -/
def mainStep (p : Process V Q) : Outcome (Process V Q) :=
  match p.main with
  | .starting i =>
    match p.order[i]? with
    | none => .done { p with main := .listening }
    | some dn => do
      let p ← p.move dn .start
      .done { p with main := .waiting i }
  | .waiting i => do
    let dn ← Outcome.ofOption p.order[i]?
    let th ← Outcome.ofOption p.devices[dn]?
    if th.working then .done { p with main := .starting (i + 1) }
    else do
      let p ← p.move dn .stop
      .done { p with main := .exited }
  | .stopping i =>
    match p.order[i]? with
    | none => .done { p with main := .ended }
    | some dn => do
      let th ← Outcome.ofOption p.devices[dn]?
      if th.working then do
        let p ← p.move dn .stop
        .done { p with main := .confirming i }
      else .done { p with main := .stopping (i + 1) }
  | .confirming i => .done { p with main := .stopping (i + 1) }
  | .listening | .ended | .exited => .failed

def act (p : Process V Q) : ProcessEvent V → Outcome (Process V Q)
  | .main => p.mainStep
  | .refused =>
    if p.main = .starting p.order.length then .done { p with main := .stopping 0 } else .failed
  | .interrupt => if p.main = .listening then .done { p with main := .stopping 0 } else .failed
  | .accept =>
    if p.main = .listening then .done { p with accepted := p.accepted + 1 } else .failed
  | .yield dn x => p.move dn (.yield x)
  | .finish dn => p.move dn .finish
  | .consumer dn => p.move dn .step
  | .access dn l a => if 0 < p.accepted then p.move dn (.access l a) else .failed

/-- No thread goes on when the process is over. -/
def next (p : Process V Q) (e : ProcessEvent V) : Outcome (Process V Q) :=
  if p.main.over then .failed else p.act e

end Process

end PMLib
