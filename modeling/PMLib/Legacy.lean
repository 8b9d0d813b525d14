import PMLib.Counter
import PMLib.Lib.Rounding

/-! # GET in the legacy server

`get_` of the daemon that the server was ported from. Its integers have no bounds, its
quotients are doubles, and `failed` stands for an exception. -/
namespace PMLib.Legacy

open Int32Conv

variable {V : Type}

/-- The list `power_data` of a line. An element takes eight bytes, so that `2 ^ 53` of them
would fill the address space of a process. -/
structure PowerData (V : Type) where
  samples : List V
  addressable : samples.length < 2 ^ 53

abbrev Lines (V : Type) := Std.TreeMap ℕ (PowerData V)

/-- A set is a pair of dictionaries with the lengths of the lines; an open one has no second. -/
structure Counter where
  status : State
  aggregate : Bool
  interval : ℤ
  lines : List ℕ
  sets : List CounterSet

/-- A key, an index or an attribute that is missing. -/
def raising {α : Type} : Option α → Outcome α
  | some a => .done a
  | none => .failed

/-- `ceil(n / float(interval))` -/
def quotient (n interval : ℤ) : Outcome ℤ :=
  if interval = 0 then .failed
  else .done ⌈Rounding.ofRat 52 (Rounding.ofRat 52 n / Rounding.ofRat 52 interval)⌉

def xrange (start stop step : ℤ) : Outcome (List ℤ) :=
  if step = 0 then .failed
  else .done ((List.range ⌈((stop - start : ℤ) : ℚ) / step⌉.toNat).map fun i : ℕ =>
    start + i * step)

/-- `xs[w]`, where a negative index counts from the end. -/
def item (xs : List V) (w : ℤ) : Outcome V :=
  raising (if 0 ≤ w then xs[w.toNat]?
    else if -w ≤ xs.length then xs[(xs.length + w).toNat]? else none)

def firsts (m : ℤ) (xs : List V) : List V :=
  xs.take (if 0 ≤ m then m else xs.length + m).toNat

namespace Counter

def lastSetCompleted (c : Counter) : Bool :=
  match c.sets.getLast? with
  | some se => se.2.isSome
  | none => true

def bounds (se : CounterSet) (l : ℕ) : Outcome (ℤ × ℤ) := do
  let lengths ← raising se.2
  let fin ← raising lengths[l]?
  let begin ← raising se.1[l]?
  .done (begin, fin)

def minLen (c : Counter) (se : CounterSet) : Outcome ℤ :=
  c.lines.zipIdx.foldlM (fun m line => do
    let bounds ← bounds se line.1
    let n ← quotient (bounds.2 - bounds.1) c.interval
    .done (if line.2 = 0 then n else min n m)) 0

def samples (c : Counter) (dev : Lines V) (se : CounterSet) (m : ℤ) (l : ℕ) :
    Outcome (List V) := do
  let bounds ← bounds se l
  let indices ← xrange bounds.1 bounds.2 c.interval
  let values ← indices.mapM fun w => do
    let line ← raising dev[l]?
    item line.samples w
  .done (firsts m values)

def sumLine [Zero V] [Add V] (c : Counter) (dev : Lines V) (se : CounterSet) (m : ℤ) :
    Outcome (List V) :=
  c.lines.foldlM (fun sum l => do
    let line ← c.samples dev se m l
    (List.range m.toNat).foldlM (fun sum (idx : ℕ) => do
      let v ← item line idx
      .done (sum.modify idx (· + v))) sum) (List.replicate m.toNat 0)

/-- What `struct.pack` makes of the counts and values. A count must fit an `int`. -/
def pack (c : Counter) (wattsSets : List ℤ) (watts : List V) : Outcome (Reply V) :=
  if FitsInt watts.length ∧ FitsInt wattsSets.length ∧ FitsInt c.lines.length ∧
      ∀ n ∈ wattsSets, FitsInt n then
    .done (.data ⟨watts.length, wattsSets.length, c.lines.length, wattsSets, watts⟩)
  else .failed

def get [Zero V] [Add V] (c : Counter) (dev : Lines V) : Outcome (Reply V) :=
  if c.status = .inactive ∧ c.lastSetCompleted then do
    let minLen ← c.sets.mapM c.minLen
    let wattsSets := minLen.scanl (fun back n => n + back) 0
    let watts ←
      if c.aggregate then
        List.flatten <$> (c.sets.zip minLen).mapM fun se => c.sumLine dev se.1 se.2
      else
        List.flatten <$> c.lines.mapM fun l =>
          List.flatten <$> (c.sets.zip minLen).mapM fun se => c.samples dev se.1 se.2 l
    c.pack wattsSets watts
  else .done (.retval .error)

end Counter

end PMLib.Legacy
