import PMLib.SelectionTables

/-! # Printing a received reply

The printers read the received arrays by computed indices. An index outside an array has no
meaning; the indices themselves stay below the array's size or leave it for good, so that
exact integers stand for the `int`s. Numbers are of an arbitrary type with the operations
that `double` has. -/
namespace PMLib

/-- `counter_t` with `pm_measures_wt`: what a client holds after it has received a reply. -/
structure CounterT (V : Type) where
  aggregate : Bool
  lines : LineT
  nextTiming : ℤ
  timing : List (Option V)
  energy : GetReply V

/-- What a printer has read for one set: a row for each sample, with the value that stands
under each line. `size` is the number of samples as the bounds of the set have it. -/
structure SetTable (V : Type) where
  set : ℤ
  size : ℤ
  rows : List (List (ℕ × V))
  deriving DecidableEq, Repr

section reading

variable {V : Type}

/-- An existing set, or all of them; the check admits one set too many. -/
def setRefused (e : GetReply V) (set : ℤ) : Bool := set > e.wattsSetsSize - 1 || set < -1

def setRange (e : GetReply V) (set : ℤ) : List ℤ :=
  if set = -1 then (List.range (e.wattsSetsSize - 1).toNat).map Nat.cast else [set]

/-- The values under the printed lines, where `index` says which element the line of rank
`ind_print[j]` has. -/
def rowAt (e : GetReply V) (t : SelectionTables) (index : ℤ → ℤ) : Outcome (List (ℕ × V)) :=
  (List.range t.nLinesPrint).mapM fun j => do
    let entry ← Outcome.ofOption t.entries[j]?
    let v ← Counter.readAt e.watts (index entry.1)
    .done (entry.2, v)

def stridedTable (e : GetReply V) (t : SelectionTables) (interval s : ℤ) :
    Outcome (SetTable V) := do
  let ini ← Counter.readAt e.wattsSets s
  let fin ← Counter.readAt e.wattsSets (s + 1)
  let rows ← (List.range (fin - ini).toNat).mapM fun (i : ℕ) =>
    rowAt e t fun r => ini + i + interval * r
  .done ⟨s, fin - ini, rows⟩

def wholeInterval (e : GetReply V) : Outcome ℤ := do
  let last ← Counter.readAt e.wattsSets (e.wattsSetsSize - 1)
  let first ← Counter.readAt e.wattsSets 0
  .done (last - first)

def stridedTables (e : GetReply V) (set : ℤ) (t : SelectionTables) :
    Outcome (List (SetTable V)) := do
  let interval ← wholeInterval e
  (setRange e set).mapM (stridedTable e t interval)

/-- `watts[offset+(i+interval*ind_print[j])]` with the interval of each set, from set to
set with a growing offset. -/
def offsetTables (e : GetReply V) (t : SelectionTables) :
    (offset : ℤ) → List ℤ → Outcome (List (SetTable V))
  | _, [] => .done []
  | offset, s :: ss => do
    let ini ← Counter.readAt e.wattsSets s
    let fin ← Counter.readAt e.wattsSets (s + 1)
    let interval := fin - ini
    let rows ← (List.range interval.toNat).mapM fun (i : ℕ) =>
      rowAt e t fun r => offset + (i + interval * r)
    let rest ← offsetTables e t (offset + t.nLinesCounter * interval) ss
    .done (⟨s, interval, rows⟩ :: rest)

/-- The loops of the text printer start without any offset. The whole interval is read, and
overwritten. -/
def textTables (e : GetReply V) (set : ℤ) (t : SelectionTables) :
    Outcome (List (SetTable V)) := do
  let _ ← wholeInterval e
  offsetTables e t 0 (setRange e set)

def aggregateValues (e : GetReply V) (s : ℤ) : Outcome (ℤ × List V) := do
  let ini ← Counter.readAt e.wattsSets s
  let fin ← Counter.readAt e.wattsSets (s + 1)
  let values ← (List.range (fin - ini).toNat).mapM fun (i : ℕ) =>
    Counter.readAt e.watts (ini + i)
  .done (fin - ini, values)

def headerLines (t : SelectionTables) : Outcome (List ℕ) :=
  (List.range t.nLinesPrint).mapM fun j => Prod.snd <$> Outcome.ofOption t.entries[j]?

def readLines (c : CounterT V) (lines : LineT)
    (layout : SelectionTables → Outcome (List (SetTable V))) :
    Outcome (List ℕ × List (SetTable V)) := do
  let t ← selectionTables c.lines lines c.energy.linesLen
  let header ← headerLines t
  let tables ← layout t
  .done (header, tables)

end reading

variable {V : Type} [Zero V] [Add V] [Sub V] [Mul V] [Div V] [IntCast V]

namespace CounterT

def timingAt (c : CounterT V) (i : ℤ) : Outcome V := do
  let entry ← Counter.readAt c.timing i
  .ofOption entry

def time (c : CounterT V) (s : ℤ) : Outcome V := do
  let stop ← c.timingAt (s * 2 + 1)
  let start ← c.timingAt (s * 2)
  .done (stop - start)

def totalTime (c : CounterT V) (n : ℤ) : Outcome V :=
  (List.range n.toNat).foldlM (fun tot (i : ℕ) => do
    let time ← c.time i
    .done (tot + time)) 0

end CounterT

/-! ## Sheets: csv, text and standard output -/

structure SheetRow (V : Type) where
  set : ℤ
  time : V
  values : List V
  sum : Option V
  deriving DecidableEq, Repr

/-- A printed sheet: the column separator, the line ids of the header unless only the
aggregate is printed, and the rows. -/
structure Sheet (V : Type) where
  separator : Char
  header : Option (List ℕ)
  rows : List (SheetRow V)
  deriving DecidableEq, Repr

/-- The rows of one set. The time column starts at zero and grows by equal steps. -/
def sheetRows (c : CounterT V) (s size : ℤ) (rows : List (List V × Option V)) :
    Outcome (List (SheetRow V)) := do
  let time ← c.time s
  let incTime := time / ((size - 1 : ℤ) : V)
  .done ((rows.zip (List.iterate (· + incTime) 0 rows.length)).map fun row =>
    ⟨s, row.2, row.1.1, row.1.2⟩)

def withSum (row : List (ℕ × V)) : List V × Option V :=
  (row.map (·.2), some ((row.map (·.2)).foldl (· + ·) 0))

/-- What is printed of the values read; `none` is the return of an error. -/
def sheetOf (separator : Char) (c : CounterT V) (read : List ℕ × List (SetTable V)) :
    Outcome (Option (Sheet V)) := do
  let rows ← read.2.mapM fun t => sheetRows c t.set t.size (t.rows.map withSum)
  .done (some ⟨separator, some read.1, rows.flatten⟩)

def aggregateSheet (separator : Char) (c : CounterT V) (set : ℤ) :
    Outcome (Option (Sheet V)) := do
  let rows ← (setRange c.energy set).mapM fun s => do
    let values ← aggregateValues c.energy s
    sheetRows c s values.1 (values.2.map fun v => ([v], none))
  .done (some ⟨separator, none, rows.flatten⟩)

def printSheet (separator : Char) (c : CounterT V) (lines : LineT) (set : ℤ)
    (layout : SelectionTables → Outcome (List (SetTable V))) : Outcome (Option (Sheet V)) :=
  if setRefused c.energy set then .done none
  else if c.aggregate then aggregateSheet separator c set
  else do
    let read ← readLines c lines layout
    sheetOf separator c read

def pmPrintDataCsv (c : CounterT V) (lines : LineT) (set : ℤ) : Outcome (Option (Sheet V)) :=
  printSheet ';' c lines set (stridedTables c.energy set)

def pmPrintDataStdout (c : CounterT V) (lines : LineT) (set : ℤ) : Outcome (Option (Sheet V)) :=
  printSheet '\t' c lines set (stridedTables c.energy set)

def pmPrintDataText (c : CounterT V) (lines : LineT) (set : ℤ) : Outcome (Option (Sheet V)) :=
  printSheet '\t' c lines set (textTables c.energy set)

/-! ## Paraver traces -/

/-- The units that are recognised; any other one leaves the times as they are. -/
inductive TimeUnit where
  | unnamed | ns | us | ms | other
  deriving DecidableEq, Repr

def TimeUnit.factor : TimeUnit → Option ℤ
  | .unnamed | .ns => some 1000000000
  | .us => some 1000000
  | .ms => some 1000
  | .other => none

structure TraceRecord (V : Type) where
  time : V
  code : ℤ
  value : V
  deriving DecidableEq, Repr

structure ParaverTrace (V : Type) where
  totTime : V
  records : List (TraceRecord V)
  deriving DecidableEq, Repr

def paraverTimes (unit : TimeUnit) (c : CounterT V) (set : ℤ) : Outcome (V × V) := do
  let times ←
    if set = -1 then do
      let tot ← c.totalTime c.nextTiming
      let interval ← wholeInterval c.energy
      .done (tot, interval)
    else do
      let tot ← c.time set
      let fin ← Counter.readAt c.energy.wattsSets (set + 1)
      let ini ← Counter.readAt c.energy.wattsSets set
      .done (tot, fin - ini)
  let tot := match unit.factor with
    | some f => times.1 * (f : V)
    | none => times.1
  -- one sample makes this a division by zero, which is infinite in the source
  .done (tot, tot / ((times.2 - 1 : ℤ) : V))

def paraverStart (c : CounterT V) (set : ℤ) : Outcome V :=
  if set = -1 then .done 0 else c.totalTime (set * 2)

def paraverRow (tm : V) (row : List (ℕ × V)) : List (TraceRecord V) :=
  row.map (fun cell => ⟨tm, 500000010 + cell.1, cell.2⟩) ++
    [⟨tm, 500000009, (row.map (·.2)).foldl (· + ·) 0⟩]

def paraverOf (c : CounterT V) (set : ℤ) (times : V × V) (read : List (SetTable V)) :
    Outcome (Option (ParaverTrace V)) := do
  let start ← paraverStart c set
  let rows := read.flatMap SetTable.rows
  .done (some ⟨times.1, ((rows.zip (List.iterate (· + times.2) start rows.length)).map
    fun row => paraverRow row.2 row.1).flatten⟩)

def aggregateParaver (c : CounterT V) (set : ℤ) (times : V × V) :
    Outcome (Option (ParaverTrace V)) := do
  let start ← paraverStart c set
  let sets ← (setRange c.energy set).mapM (aggregateValues c.energy)
  let values := sets.flatMap (·.2)
  .done (some ⟨times.1, (values.zip (List.iterate (· + times.2) start values.length)).map
    fun row => ⟨row.2, 500000009, row.1⟩⟩)

/-- The times are computed before the set is checked. -/
def pmPrintDataParaver (unit : TimeUnit) (c : CounterT V) (lines : LineT) (set : ℤ) :
    Outcome (Option (ParaverTrace V)) := do
  let times ← paraverTimes unit c set
  if setRefused c.energy set then .done none
  else if c.aggregate then aggregateParaver c set times
  else do
    let t ← selectionTables c.lines lines c.energy.linesLen
    let tables ← stridedTables c.energy set t
    paraverOf c set times tables

/-! ## Energy -/

structure EnergyLine (V : Type) where
  line : ℕ
  time : V
  average : V
  energy : V
  deriving DecidableEq, Repr

/-- Without lines there is one figure; otherwise one for each line of each set, and one for
the sum of the lines. -/
inductive EnergyReport (V : Type) where
  | aggregate (time average energy : V)
  | lines (header : List ℕ) (sets : List (List (EnergyLine V) × V))
  deriving DecidableEq, Repr

/-- The accumulator and the time are those of the last set; without any set the time was
never assigned. -/
def aggregateEnergy (c : CounterT V) (set : ℤ) : Outcome (Option (EnergyReport V)) := do
  let last ← (setRange c.energy set).foldlM (fun (state : Option V × V) s => do
    let values ← aggregateValues c.energy s
    let time ← c.time s
    .done (some time, values.2.foldl (· + ·) state.2 / (values.1 : V))) (none, 0)
  let time ← Outcome.ofOption last.1
  .done (some (.aggregate time last.2 (time * last.2)))

/-- `energy[j] += v` for the values of a row, in an array of the allocated size. -/
def addRow (energy : List V) (row : List (ℕ × V)) : Outcome (List V) :=
  if energy.length < row.length then .undefined
  else .done (List.zipWith (· + ·) energy (row.map (·.2)) ++ energy.drop row.length)

/-- One set: the accumulators go on from the set before. -/
def energySet (c : CounterT V) (header : List ℕ) (energy : List V) (t : SetTable V) :
    Outcome (List V × List (EnergyLine V) × V) := do
  let time ← c.time t.set
  let energy ← t.rows.foldlM addRow energy
  if energy.length < header.length then .undefined
  else
    let energy := (energy.take header.length).map (· / (t.size : V)) ++
      energy.drop header.length
    let sum := (energy.take header.length).foldl (· + ·) 0
    .done (energy, (header.zip energy).map (fun le => ⟨le.1, time, le.2, le.2 * time⟩),
      sum * time)

def energySets (c : CounterT V) (header : List ℕ) :
    List V → List (SetTable V) → Outcome (List (List (EnergyLine V) × V))
  | _, [] => .done []
  | energy, t :: ts => do
    let r ← energySet c header energy t
    let rest ← energySets c header r.1 ts
    .done (r.2 :: rest)

/-- `accumulators` is the number of elements, all zero, that the array `energy` has. -/
def energyOf (accumulators : ℕ) (c : CounterT V) (read : List ℕ × List (SetTable V)) :
    Outcome (Option (EnergyReport V)) := do
  let sets ← energySets c read.1 (List.replicate accumulators 0) read.2
  .done (some (.lines read.1 sets))

/-- The source allocates zero accumulators of the size of all lines. -/
def pmCalculateEnergy (accumulators : ℕ) (c : CounterT V) (lines : LineT) (set : ℤ) :
    Outcome (Option (EnergyReport V)) :=
  if setRefused c.energy set then .done none
  else if c.aggregate then aggregateEnergy c set
  else do
    let read ← readLines c lines (stridedTables c.energy set)
    energyOf accumulators c read

end PMLib
