import PMLib.Device
import PMLib.Lib.Binary32

/-! # Operations of a counter

Every operation returns the counter, the device and the reply that is about to be sent.
`failed` stands for an exception that leaves the operation. -/
namespace PMLib

open Int32Conv

structure CreateRequest where
  deviceName : List Byte
  frequency : ℤ
  aggregate : Bool
  linesMask : List Byte
  deriving DecidableEq, Repr

structure GetReply (V : Type) where
  wattsSize : ℤ
  wattsSetsSize : ℤ
  linesLen : ℤ
  wattsSets : List ℤ
  watts : List V
  deriving DecidableEq, Repr

inductive Reply (V : Type) where
  | retval (r : Retval)
  | data (r : GetReply V)
  deriving DecidableEq, Repr

def testMask (c : Byte) (b : ℕ) : Bool := c &&& (1#8 <<< b) != 0

namespace Counter

variable {V : Type}

/-- The quotient and its rounding are single precision; `round` gives a whole number, and
one that does not fit an `int` has no meaning after the conversion. -/
def setFrequency (maxFrequency frequency : ℤ) : Outcome ℤ :=
  if frequency ≠ 0 ∧ frequency > maxFrequency then .failed
  else
    let frequency := if frequency = 0 then maxFrequency else frequency
    if frequency = 0 then .undefined
    else
      let interval := Binary32.roundAway
        (Binary32.ofRat (Binary32.ofRat maxFrequency / Binary32.ofRat frequency))
      if FitsInt interval then .done interval else .undefined

/-- The line ids `i * 8 + b` of the set bits, as far as the device has them. A mask whose
last line id does not fit an `int` has no meaning. -/
def setLines (nLines : ℕ) (linesStr : List Byte) : Outcome (List ℕ) :=
  if 2 ^ 31 < linesStr.length * 8 then .undefined
  else .done <| (List.range linesStr.length).flatMap fun i =>
    (List.range 8).filterMap fun b =>
      if testMask (linesStr.getD i 0) b ∧ i * 8 + b < nLines then some (i * 8 + b) else none

/-- The constructor up to its reply: the request is already received. The copy that the
device keeps is taken before `registered` is set. -/
def construct (id : ℕ) (req : CreateRequest) (dev : Device V) :
    Outcome (Counter × Device V) :=
  if req.deviceName ≠ dev.name then .failed
  else do
    let interval ← setFrequency dev.maxFrequency req.frequency
    let lines ← setLines dev.nLines req.linesMask
    let c : Counter :=
      { id, running := true, aggregate := req.aggregate, interval, status := .inactive,
        frequency := req.frequency, lines, sets := [], registered := false }
    let dev ← dev.registerCounter c
    .done ({ c with registered := true }, dev)

def start (c : Counter) (dev : Device V) : Outcome (Counter × Device V × Reply V) :=
  if c.status = .inactive then do
    let dev ← dev.startCounter c.lines
    let sizes ← dev.getLinesSizes c.lines
    .done ({ c with status := .active, sets := [(sizes, none)] }, dev, .retval .success)
  else .done (c, dev, .retval .error)

def restart (c : Counter) (dev : Device V) : Outcome (Counter × Device V × Reply V) :=
  if c.status = .inactive then do
    let dev ← dev.startCounter c.lines
    let sizes ← dev.getLinesSizes c.lines
    .done ({ c with status := .active, sets := c.sets ++ [(sizes, none)] }, dev,
      .retval .success)
  else .done (c, dev, .retval .error)

/-- `sets.back()` of an empty vector has no meaning. -/
def stop (c : Counter) (dev : Device V) : Outcome (Counter × Device V × Reply V) :=
  if c.status = .active then do
    let dev ← dev.stopCounter c.lines
    let sizes ← dev.getLinesSizes c.lines
    let last ← Outcome.ofOption c.sets.getLast?
    .done ({ c with status := .inactive, sets := c.sets.dropLast ++ [(last.1, some sizes)] },
      dev, .retval .success)
  else .done (c, dev, .retval .error)

def finalize (c : Counter) (dev : Device V) : Outcome (Counter × Device V × Reply V) :=
  if c.status = .inactive then .done ({ c with running := false }, dev, .retval .success)
  else .done (c, dev, .retval .error)

/-- Resampled length of a set: over the lines, the least quotient of recorded length and
interval. The quotient is one of integers, so `ceil` leaves it as it is. -/
def minLength (c : Counter) (se : CounterSet) : Outcome ℤ :=
  c.lines.foldlM (fun m l => do
    let fin ← Outcome.ofOption se.2
    if c.interval = 0 then .undefined
    else
      let n := (fin.getD l 0 - se.1.getD l 0).tdiv c.interval
      .done (if c.lines.head? = some l then n else min n m)) 0

def readAt (data : List V) (idx : ℤ) : Outcome V :=
  if 0 ≤ idx then .ofOption data[idx.toNat]? else .undefined

def lineBound (fin begin m size : ℤ) : ℤ := min (min fin (begin + m)) size

/-- The summing loop. It advances by `interval`, and ends on the bound or after `n` more
values; `i` is the position in the sums. -/
def aggregateLine [Add V] (read : ℤ → Outcome V) (bound interval : ℤ) :
    (n i : ℕ) → (idx : ℤ) → List V → Outcome (List V)
  | 0, _, _, sum => .done sum
  | n + 1, i, idx, sum =>
    if idx = bound then .done sum
    else do
      let v ← read idx
      aggregateLine read bound interval n (i + 1) (idx + interval) (sum.modify i (· + v))

/-- `copy_if` over the `n` elements from `idx` on, keeping those with `i % interval == 0`. -/
def copyLine (read : ℤ → Outcome V) (interval : ℤ) : (n i : ℕ) → (idx : ℤ) → Outcome (List V)
  | 0, _, _ => .done []
  | n + 1, i, idx => do
    let v ← read idx
    if interval = 0 then .undefined
    else
      let rest ← copyLine read interval n (i + 1) (idx + 1)
      .done (if (i : ℤ).tmod interval = 0 then v :: rest else rest)

section get

variable [Zero V] [Add V]

abbrev Reader (V : Type) := (begin fin : ℤ) → List V → ℤ → Outcome V

/-- The reply's part for one set when the lines are summed. A vector of negative length
throws. -/
def aggregateSet (read : Reader V) (c : Counter) (dev : Device V) (se : CounterSet) (m : ℤ) :
    Outcome (List V) :=
  if m < 0 then .failed
  else c.lines.foldlM (fun sum l => do
    let line ← dev.getLineData l
    let fin ← Outcome.ofOption se.2
    let first := se.1.getD l 0
    aggregateLine (read first (fin.getD l 0) line)
      (lineBound (fin.getD l 0) first m line.length) c.interval m.toNat 0 first sum)
    (List.replicate m.toNat 0)

/-- The reply's block for one line of one set. An end before the start is never met. -/
def lineBlock (read : Reader V) (c : Counter) (dev : Device V) (se : CounterSet) (m : ℤ)
    (l : ℕ) : Outcome (List V) := do
  let line ← dev.getLineData l
  let fin ← Outcome.ofOption se.2
  let first := se.1.getD l 0
  let last := lineBound (fin.getD l 0) first m line.length
  if last < first then .undefined
  else copyLine (read first (fin.getD l 0) line) c.interval (last - first).toNat 0 first

def setBlock (read : Reader V) (c : Counter) (dev : Device V) (se : CounterSet) (m : ℤ) :
    Outcome (List V) :=
  if c.aggregate then aggregateSet read c dev se m
  else List.flatten <$> c.lines.mapM (lineBlock read c dev se m)

def getData (read : Reader V) (c : Counter) (dev : Device V) : Outcome (GetReply V) := do
  let minLen ← c.sets.mapM c.minLength
  let blocks ← (c.sets.zip minLen).mapM fun se => setBlock read c dev se.1 se.2
  let wattsSets := minLen.scanl (fun back m => wrap32 (m + back)) 0
  let watts := blocks.flatten
  .done { wattsSize := wrap32 watts.length
          wattsSetsSize := wrap32 wattsSets.length
          linesLen := wrap32 c.lines.length
          wattsSets, watts }

def plain : Reader V := fun _ _ data idx => readAt data idx

def get (c : Counter) (dev : Device V) : Outcome (Counter × Device V × Reply V) :=
  if c.status = .inactive then do
    let r ← getData plain c dev
    .done (c, dev, .data r)
  else .done (c, dev, .retval .error)

def dispatch (c : Counter) (dev : Device V) (op : ℤ) :
    Outcome (Counter × Device V × Reply V) :=
  match Operation.ofInt op with
  | some .start => c.start dev
  | some .continue_ => c.restart dev
  | some .stop => c.stop dev
  | some .get => c.get dev
  | some .finalize => c.finalize dev
  | _ => .done (c, dev, .retval .error)

end get

theorem setLines_sorted {nLines : ℕ} {linesStr : List Byte} {sel : List ℕ}
    (h : setLines nLines linesStr = .done sel) :
    sel.Pairwise (· < ·) ∧ ∀ l ∈ sel, l < nLines := by
  unfold setLines at h
  split_ifs at h
  obtain rfl := Outcome.done.inj h
  constructor
  · rw [List.pairwise_flatMap]
    constructor
    · intro i _
      rw [List.pairwise_filterMap]
      refine List.pairwise_lt_range.imp ?_
      intro a b hab x hx y hy
      simp only [Option.ite_none_right_eq_some, Option.some.injEq] at hx hy
      omega
    · refine List.pairwise_lt_range.imp ?_
      intro i j hij x hx y hy
      simp only [List.mem_filterMap, List.mem_range, Option.ite_none_right_eq_some,
        Option.some.injEq] at hx hy
      obtain ⟨a, ha, _, rfl⟩ := hx
      obtain ⟨b, hb, _, rfl⟩ := hy
      omega
  · intro l hl
    simp only [List.mem_flatMap, List.mem_filterMap, Option.ite_none_right_eq_some,
      Option.some.injEq] at hl
    obtain ⟨i, _, b, _, ⟨_, hlt⟩, rfl⟩ := hl
    exact hlt

theorem construct_spec {id : ℕ} {req : CreateRequest} {dev dev' : Device V} {c : Counter}
    (h : construct id req dev = .done (c, dev')) :
    (c.id = id ∧ c.running = true ∧ c.status = .inactive ∧ c.sets = [] ∧
      c.registered = true) ∧
      setFrequency dev.maxFrequency c.frequency = .done c.interval ∧
      c.lines.Pairwise (· < ·) ∧ (∀ l ∈ c.lines, l < dev.nLines) ∧
      (∀ i : ℕ, i ∈ dev'.counterMap ↔ i = id ∨ i ∈ dev.counterMap) ∧
      Device.Mapped dev dev' (fun l ln => if l ∈ c.lines then ln.enable else ln) := by
  unfold construct at h
  split_ifs at h
  obtain ⟨interval, hi, h⟩ := Outcome.bind_eq_done.mp h
  obtain ⟨lines, hl, h⟩ := Outcome.bind_eq_done.mp h
  obtain ⟨dev₁, hd, h⟩ := Outcome.bind_eq_done.mp h
  obtain ⟨rfl, rfl⟩ := Prod.mk.inj (Outcome.done.inj h)
  obtain ⟨hs, hlt⟩ := setLines_sorted hl
  have hn : lines.Nodup := hs.imp Nat.ne_of_lt
  obtain ⟨hmap, hm⟩ := Device.registerCounter_spec hn hd
  refine ⟨⟨rfl, rfl, rfl, rfl, rfl⟩, hi, hs, hlt, fun i => ?_, hm⟩
  rw [hmap, Std.TreeMap.mem_insert, Std.LawfulEqCmp.compare_eq_iff_eq, @eq_comm _ id]

theorem construct_done (id : ℕ) (req : CreateRequest) (dev : Device V) {interval : ℤ}
    {lines : List ℕ} (hname : req.deviceName = dev.name)
    (hi : setFrequency dev.maxFrequency req.frequency = .done interval)
    (hl : setLines dev.nLines req.linesMask = .done lines) (hs : dev.Has lines) :
    ∃ c dev', construct id req dev = .done (c, dev') ∧
      c.aggregate = req.aggregate ∧ c.interval = interval ∧ c.lines = lines := by
  let c : Counter :=
    ⟨id, true, req.aggregate, interval, .inactive, req.frequency, lines, [], false⟩
  have hn : lines.Nodup := (setLines_sorted hl).1.imp Nat.ne_of_lt
  obtain ⟨dev', hdev, -⟩ := Device.forLines_mapped
    (d := { dev with counterMap := dev.counterMap.insert c.id c }) hn hs Line.enable
  have hreg : dev.registerCounter c = .done dev' := hdev
  refine ⟨{ c with registered := true }, dev', ?_, rfl, rfl, rfl⟩
  rw [construct, if_neg (by simpa using hname), hi, Outcome.done_bind, hl, Outcome.done_bind]
  change (dev.registerCounter c >>= fun dev => .done ({ c with registered := true }, dev)) = _
  rw [hreg, Outcome.done_bind]

end Counter

end PMLib
