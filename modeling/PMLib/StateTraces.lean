import PMLib.SetArguments
import Mathlib.Algebra.Order.Field.Basic
import Mathlib.Tactic.Ring
import Mathlib.Tactic.FieldSimp
import Mathlib.Tactic.Linarith

/-! # Traces of processor states

Four lines of a device may be the shares of time that a processor has spent in its states. Two
printers make Paraver traces of them. They number the sets from one, and take zero for all. -/
namespace PMLib

variable {V : Type}

/-- What stands in a trace: a share of a state, or the time at which a state was left. -/
inductive StateRecord (V : Type) where
  | share (cpu : ℕ) (t : V) (event : ℕ) (watts : V)
  | left (cpu : ℕ) (t : V) (state : ℕ)
  deriving DecidableEq, Repr

structure StateTrace (V : Type) where
  totTime : V
  records : List (StateRecord V)
  deriving DecidableEq, Repr

section printers

variable [Zero V] [Add V] [Sub V] [Mul V] [Div V] [IntCast V]

/-- The times of the set before the one that is named. -/
def statesTimes (unit : TimeUnit) (c : CounterT V) (set : ℤ) : Outcome (V × V) := do
  let times ←
    if set = 0 then do
      let tot ← c.totalTime c.nextTiming
      let interval ← wholeInterval c.energy
      .done (tot, interval)
    else do
      let tot ← c.time (set - 1)
      let fin ← Counter.readAt c.energy.wattsSets set
      let ini ← Counter.readAt c.energy.wattsSets (set - 1)
      .done (tot, fin - ini)
  let tot := unit.factor.elim times.1 fun f => times.1 * (f : V)
  .done (tot, tot / ((times.2 - 1 : ℤ) : V))

def statesRange (e : GetReply V) (set : ℤ) : List ℤ :=
  if set = 0 then (List.range (e.wattsSetsSize - 1).toNat).map Nat.cast else [set]

def statesStart (c : CounterT V) (set : ℤ) : Outcome V :=
  if set = 0 then .done 0 else c.timingAt (set * 2)

def statesTables (e : GetReply V) (set : ℤ) (t : SelectionTables) :
    Outcome (List (SetTable V)) := do
  let interval ← wholeInterval e
  (statesRange e set).mapM (stridedTable e t interval)

def separateRecords (event : ℕ) (start incTime : V) (rows : List (List (ℕ × V))) :
    List (StateRecord V) :=
  (rows.zip (List.iterate (· + incTime) start rows.length)).flatMap fun row =>
    row.1.map fun cell => .share (cell.1 / 4 + 1) row.2 (event + cell.1 % 4) cell.2

/-- `value_ant` goes on by the share of the state, for the processor of the line. -/
def mergeCell [DecidableEq V] (incTime : V) (s : List V × List (StateRecord V)) (cell : ℕ × V) :
    Outcome (List V × List (StateRecord V)) :=
  if cell.2 = 0 then .done s
  else do
    let ant ← .ofOption s.1[cell.1 / 4]?
    let value := incTime * cell.2 / ((100 : ℤ) : V)
    .done (s.1.set (cell.1 / 4) (ant + value),
      s.2 ++ [.left (cell.1 / 4 + 1) (ant + value) (cell.1 % 4)])

/-- `value_ant` has a place for eight processors. -/
def mergedRecords [DecidableEq V] (incTime : V) (rows : List (List (ℕ × V))) :
    Outcome (List (StateRecord V)) := do
  let s ← rows.foldlM (fun s row => row.foldlM (mergeCell incTime) s) (List.replicate 8 0, [])
  .done s.2

/-- The two printers, up to what they make of the samples. The times are computed before the set
is checked. -/
def printStates (unit : TimeUnit) (c : CounterT V) (lines : LineT) (set : ℤ)
    (records : V → V → List (List (ℕ × V)) → Outcome (List (StateRecord V))) :
    Outcome (Option (StateTrace V)) := do
  let times ← statesTimes unit c set
  if setRefused c.energy set then .done none
  else do
    let t ← selectionTables c.lines lines c.energy.linesLen
    let start ← statesStart c set
    let tables ← statesTables c.energy set t
    let records ← records start times.2 (tables.flatMap SetTable.rows)
    .done (some ⟨times.1, records⟩)

def pmPrintDataParaverCstates [DecidableEq V] (unit : TimeUnit) (c : CounterT V) (lines : LineT)
    (set : ℤ) (separate : Bool) : Outcome (Option (StateTrace V)) :=
  printStates unit c lines set fun start incTime rows =>
    if separate then .done (separateRecords 900000010 start incTime rows)
    else mergedRecords incTime rows

def pmPrintDataParaverPstates (unit : TimeUnit) (c : CounterT V) (lines : LineT) (set : ℤ) :
    Outcome (Option (StateTrace V)) :=
  printStates unit c lines set fun start incTime rows =>
    .done (separateRecords 800000010 start incTime rows)

/-! ## The sets -/

variable {c : CounterT V} {nLines : ℕ} {sizes : List ℕ} {sel : LineT} {set : ℤ}

theorem statesTimes_eq (unit : TimeUnit) (c : CounterT V) (set : ℤ) :
    statesTimes unit c set = paraverTimes unit c (if set = 0 then -1 else set - 1) := by
  unfold statesTimes paraverTimes
  by_cases hall : set = 0
  · simp only [hall, if_true]
    cases unit <;> rfl
  · have hne : set - 1 ≠ -1 := by omega
    simp only [hall, hne, if_false, sub_add_cancel]
    cases unit <;> rfl

omit [Zero V] [Add V] [Sub V] [Mul V] [Div V] [IntCast V] in
theorem statesTables_eq (e : GetReply V) (t : SelectionTables) (hset : set ≠ -1) :
    statesTables e set t = stridedTables e (if set = 0 then -1 else set) t := by
  unfold statesTables stridedTables statesRange setRange
  by_cases hall : set = 0
  · simp only [hall, if_true]
  · simp only [hall, hset, if_false]

omit [Add V] [Sub V] [Mul V] [Div V] [IntCast V] in
theorem CounterT.Holds.statesStart_returns (h : c.Holds nLines sizes) (set : ℤ) :
    (statesStart c set).Returns ↔ (set ≠ 0 → 0 ≤ set ∧ set < sizes.length) := by
  rw [statesStart]
  split_ifs with hall
  · exact iff_of_true (Outcome.returns_done 0) fun hne => absurd hall hne
  · rw [h.timingAt_returns, imp_iff_right hall]
    omega

/-- The sets that a printer of states returns for: all of them, or one that is not the last. -/
def NamesSet (count : ℕ) (set : ℤ) : Prop := set = 0 ∨ 0 < set ∧ set < count

/-- The set whose times are taken, and the one whose samples are printed, in the numbers of the
other printers. -/
def timedSet (set : ℤ) : ℤ := if set = 0 then -1 else set - 1

def shownSet (set : ℤ) : ℤ := if set = 0 then -1 else set

theorem CounterT.Holds.names_of_returns (h : c.Holds nLines sizes) (ha : c.aggregate = false)
    {unit : TimeUnit} {records : V → V → List (List (ℕ × V)) → Outcome (List (StateRecord V))}
    (hr : (printStates unit c sel set records).Returns) :
    NamesSet sizes.length set ∧ LinesRead c sel nLines sizes (shownSet set) := by
  obtain ⟨times, htimes, hr⟩ := Outcome.returns_bind.mp hr
  have hvalid : ValidSet sizes.length (timedSet set) := by
    rw [← h.paraverTimes_returns unit, timedSet, ← statesTimes_eq]
    exact ⟨times, htimes⟩
  have hle : 0 ≤ set ∧ set ≤ sizes.length := by
    unfold ValidSet timedSet at hvalid
    split_ifs at hvalid <;> omega
  have hrefused : ¬ setRefused c.energy set = true := by
    rw [setRefused_iff h.announces]
    omega
  rw [if_neg hrefused] at hr
  obtain ⟨t, ht, hr⟩ := Outcome.returns_bind.mp hr
  obtain ⟨start, _, hr⟩ := Outcome.returns_bind.mp hr
  obtain ⟨tables, htables, _⟩ := Outcome.returns_bind.mp hr
  obtain ⟨t', ht', hspec⟩ := CounterT.Holds.exists_tables h.linesLen sel
  obtain rfl := Outcome.done.inj (ht'.symm.trans ht)
  rw [statesTables_eq _ _ (by omega)] at htables
  have hread := (hspec.strided_returns h.announces (shownSet set)).mp ⟨tables, htables⟩
  refine ⟨?_, (linesRead_iff ha).mpr hread.2⟩
  have hshown := hread.1
  unfold ValidSet shownSet at hshown
  unfold NamesSet
  split_ifs at hshown <;> omega

theorem CounterT.Holds.printStates_eq (h : c.Holds nLines sizes) (ha : c.aggregate = false)
    (hset : NamesSet sizes.length set) (hlines : LinesRead c sel nLines sizes (shownSet set))
    (unit : TimeUnit) : ∃ times start t tables, paraverTimes unit c (timedSet set) = .done times ∧
      statesStart c set = .done start ∧
      selectionTables c.lines sel c.energy.linesLen = .done t ∧
      stridedTables c.energy (shownSet set) t = .done tables ∧
      ∀ records, printStates unit c sel set records = (do
        let records ← records start times.2 (tables.flatMap SetTable.rows)
        .done (some ⟨times.1, records⟩)) := by
  have hvalid : ValidSet sizes.length (timedSet set) := by
    unfold ValidSet timedSet
    unfold NamesSet at hset
    split_ifs <;> omega
  have hshown : ValidSet sizes.length (shownSet set) := by
    unfold ValidSet shownSet
    unfold NamesSet at hset
    split_ifs <;> omega
  have hrefused : ¬ setRefused c.energy set = true := by
    unfold NamesSet at hset
    rw [setRefused_iff h.announces]
    omega
  obtain ⟨times, htimes⟩ := (h.paraverTimes_returns unit _).mpr hvalid
  obtain ⟨start, hstart⟩ := (h.statesStart_returns set).mpr (by
    unfold NamesSet at hset
    omega)
  obtain ⟨t, ht, hspec⟩ := CounterT.Holds.exists_tables h.linesLen sel
  obtain ⟨tables, htables⟩ := (hspec.strided_returns h.announces _).mpr
    ⟨hshown, (linesRead_iff ha).mp hlines⟩
  refine ⟨times, start, t, tables, htimes, hstart, ht, htables, fun records => ?_⟩
  have hread : statesTimes unit c set = .done times := by rw [statesTimes_eq, ← htimes, timedSet]
  have hrows : statesTables c.energy set t = .done tables := by
    rw [statesTables_eq, ← htables, shownSet]
    unfold NamesSet at hset
    omega
  rw [printStates, hread, Outcome.done_bind, if_neg hrefused, ht, Outcome.done_bind, hstart,
    Outcome.done_bind, hrows, Outcome.done_bind]

/-- A printer of states returns for all sets together and for every single one but the last. A
single set is stamped with the step of the one before it. -/
theorem state_sets_shifted [DecidableEq V] (h : c.Holds nLines sizes) (ha : c.aggregate = false)
    (unit : TimeUnit) (sel : LineT) (set : ℤ) :
    ((pmPrintDataParaverPstates unit c sel set).Returns ↔
      NamesSet sizes.length set ∧ LinesRead c sel nLines sizes (shownSet set)) ∧
    ((pmPrintDataParaverCstates unit c sel set true).Returns ↔
      NamesSet sizes.length set ∧ LinesRead c sel nLines sizes (shownSet set)) ∧
    (NamesSet sizes.length set → LinesRead c sel nLines sizes (shownSet set) →
      ∃ times start t tables, paraverTimes unit c (timedSet set) = .done times ∧
        statesStart c set = .done start ∧
        selectionTables c.lines sel c.energy.linesLen = .done t ∧
        stridedTables c.energy (shownSet set) t = .done tables ∧
        pmPrintDataParaverPstates unit c sel set = .done (some ⟨times.1,
          separateRecords 800000010 start times.2 (tables.flatMap SetTable.rows)⟩) ∧
        pmPrintDataParaverCstates unit c sel set true = .done (some ⟨times.1,
          separateRecords 900000010 start times.2 (tables.flatMap SetTable.rows)⟩)) := by
  have hprinted : NamesSet sizes.length set → LinesRead c sel nLines sizes (shownSet set) → _ :=
    fun hset hlines => h.printStates_eq ha hset hlines unit
  refine ⟨⟨h.names_of_returns ha, fun ⟨hset, hlines⟩ => ?_⟩,
    ⟨h.names_of_returns ha, fun ⟨hset, hlines⟩ => ?_⟩, fun hset hlines => ?_⟩
  · obtain ⟨times, start, t, tables, -, -, -, -, hall⟩ := hprinted hset hlines
    exact ⟨_, hall _⟩
  · obtain ⟨times, start, t, tables, -, -, -, -, hall⟩ := hprinted hset hlines
    exact ⟨_, hall _⟩
  · obtain ⟨times, start, t, tables, htimes, hstart, ht, htables, hall⟩ := hprinted hset hlines
    exact ⟨times, start, t, tables, htimes, hstart, ht, htables, hall _, hall _⟩

end printers

/-- Of two sets, the first one is printed when the second is named. The second cannot be. -/
theorem state_sets_shifted_twoSets :
    (pmPrintDataParaverPstates .ns (holding firstLine twoSetsReply) firstLine 1).Returns ∧
      ¬ (pmPrintDataParaverCstates .ns (holding firstLine twoSetsReply) firstLine 2
        true).Returns := by
  have hlines : LinesRead (holding firstLine twoSetsReply) firstLine 1 [1, 1] (shownSet 1) :=
    fun s hs _ => ⟨.inl (by decide), by
      obtain rfl : s = 1 := List.mem_singleton.mp hs
      unfold StridedRoom
      decide⟩
  refine ⟨(state_sets_shifted twoSetsReply_holds rfl .ns firstLine 1).1.mpr
    ⟨.inr (by decide), hlines⟩, fun hr => ?_⟩
  rcases ((state_sets_shifted twoSetsReply_holds rfl .ns firstLine 2).2.1.mp hr).1 with h | h
  · cases h
  · exact absurd h (by decide)

/-! ## Merged records -/

section merged

variable [Field V] [LinearOrder V] [IsStrictOrderedRing V] {incTime : V} {clock : ℕ → V}
  {row : List (ℕ × V)} {cell : ℕ × V}

def share (cpu : ℕ) (row : List (ℕ × V)) : V :=
  ((row.filter fun cell => cell.1 / 4 = cpu).map Prod.snd).sum

end merged

end PMLib
