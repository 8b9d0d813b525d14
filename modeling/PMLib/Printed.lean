import PMLib.Attribution
import Mathlib.Data.List.Iterate

/-! # When the printers show what was recorded

Two ways of computing the indices are in use. One strides over all sets at once, as if the
reply had line after line; the other adds up offsets over the sets that it has printed. -/
namespace PMLib

variable {V : Type}

def tablesOf (m sel : LineT) (nLines : ℕ) : SelectionTables :=
  let printed := (sel.and m).lines nLines
  ⟨printed.length,
    if printed.length = (m.lines nLines).length then printed.length else (m.lines 128).length,
    printed.map fun l => (m.rank l, l)⟩

theorem tablesOf_length (m sel : LineT) (nLines : ℕ) :
    (tablesOf m sel nLines).nLinesPrint = (tablesOf m sel nLines).entries.length := by
  simp [tablesOf]

theorem printed_subset {m sel : LineT} {nLines l : ℕ} (hl : l ∈ (sel.and m).lines nLines) :
    l ∈ m.lines nLines :=
  (LineT.lines_sublist_of_and m sel nLines).subset hl

/-- `n_lines_counter` is the number of measured lines, unless the mask has a bit beyond the
device and some measured line is left out. -/
theorem nLinesCounter_eq_iff (m sel : LineT) (nLines : ℕ) :
    (tablesOf m sel nLines).nLinesCounter = (m.lines nLines).length ↔
      (sel.and m).lines nLines = m.lines nLines ∨
        ∀ l : ℕ, l < 128 → m.isSet l = true → l < nLines := by
  have hsub := LineT.lines_sublist_of_and m sel nLines
  have hall : (sel.and m).lines nLines = m.lines nLines ↔
      ((sel.and m).lines nLines).length = (m.lines nLines).length :=
    ⟨congrArg _, hsub.eq_of_length⟩
  rw [hall, ← LineT.lines_all_iff, tablesOf]
  dsimp only
  split_ifs with h
  · exact ⟨.inl, fun _ => h⟩
  · exact ⟨.inr, fun hor => hor.resolve_left h⟩

theorem readLines_eq_done_iff {c : CounterT V} {m sel : LineT} {nLines : ℕ}
    {layout : SelectionTables → Outcome (List (SetTable V))} {tables : List (SetTable V)}
    (hm : c.lines = m) (hlen : c.energy.linesLen = (m.lines nLines).length)
    (hsel : ∀ l : ℕ, l < 128 → sel.isSet l = true → l < nLines) :
    readLines c sel layout = .done ((sel.and m).lines nLines, tables) ↔
      layout (tablesOf m sel nLines) = .done tables := by
  have htables : selectionTables c.lines sel c.energy.linesLen =
      .done (tablesOf m sel nLines) := by
    rw [hm, hlen]
    exact selectionTables_eq m sel nLines hsel
  have hheader : (tablesOf m sel nLines).entries.map Prod.snd = (sel.and m).lines nLines := by
    simp [tablesOf, Function.comp_def]
  rw [readLines, htables, Outcome.done_bind, headerLines_eq (tablesOf_length m sel nLines),
    Outcome.done_bind, hheader, Outcome.bind_eq_done]
  simp

theorem tables_exact_iff {m sel : LineT} {nLines : ℕ} {ws : List (List (ℕ → V))}
    {e : GetReply V} {set : ℤ} (hset : ValidSet ws.length set) (index : ℕ → ℕ → ℕ → ℤ) :
    (setIndices ws.length set).mapM (tableAt e (tablesOf m sel nLines).entries
        (setSizes (m.lines nLines) (ws.map List.length)) index) =
      .done (recordedTables (m.lines nLines) ((sel.and m).lines nLines) ws set) ↔
    ∀ s ∈ setIndices ws.length set, ∀ w, ws[s]? = some w → ∀ i x, w[i]? = some x →
      ∀ l ∈ (sel.and m).lines nLines,
        Counter.readAt e.watts (index s i (m.rank l)) = .done (x l) := by
  rw [recordedTables, Outcome.mapM_eq_map_iff]
  refine forall₂_congr fun s hs => ?_
  have hw := List.getElem?_eq_getElem (lt_of_mem_setIndices hset hs)
  rw [tablesOf, tableAt_eq_recorded_iff hw fun l hl => printed_subset hl]
  simp [hw]

section printers

variable [Zero V] [Add V] [Sub V] [Mul V] [Div V] [IntCast V]

/-- What the loops of the csv, standard output, Paraver and energy functions read is `read`,
and so is what they make of it. -/
structure StridedExact (c : CounterT V) (sel : LineT) (set : ℤ)
    (read : List ℕ × List (SetTable V)) : Prop where
  reads : readLines c sel (stridedTables c.energy set) = .done read
  csv : pmPrintDataCsv c sel set = sheetOf ';' c read
  stdout : pmPrintDataStdout c sel set = sheetOf '\t' c read
  paraver : ∀ unit, pmPrintDataParaver unit c sel set =
    (paraverTimes unit c set >>= fun times => paraverOf c set times read.2)
  energy : ∀ accumulators, pmCalculateEnergy accumulators c sel set = energyOf accumulators c read

/-- What the loops of the text printer read is `read`, and so is what it prints. -/
structure TextExact (c : CounterT V) (sel : LineT) (set : ℤ)
    (read : List ℕ × List (SetTable V)) : Prop where
  reads : readLines c sel (textTables c.energy set) = .done read
  text : pmPrintDataText c sel set = sheetOf '\t' c read

theorem stridedExact_iff {c : CounterT V} {sel : LineT} {set : ℤ}
    {read : List ℕ × List (SetTable V)} (ha : c.aggregate = false)
    (hr : setRefused c.energy set = false) :
    StridedExact c sel set read ↔
      readLines c sel (stridedTables c.energy set) = .done read := by
  refine ⟨StridedExact.reads, fun h => ?_⟩
  have hsheet : ∀ sep, printSheet sep c sel set (stridedTables c.energy set) =
      sheetOf sep c read := by
    intro sep
    simp [printSheet, hr, ha, h]
  refine ⟨h, hsheet ';', hsheet '\t', fun unit => ?_, fun accumulators => ?_⟩
  · obtain ⟨t, ht, h⟩ := Outcome.bind_eq_done.mp h
    obtain ⟨header, _, h⟩ := Outcome.bind_eq_done.mp h
    obtain ⟨tables, htables, h⟩ := Outcome.bind_eq_done.mp h
    obtain rfl := Outcome.done.inj h
    simp [pmPrintDataParaver, hr, ha, ht, htables]
  · simp [pmCalculateEnergy, hr, ha, h]

omit [Mul V] in
theorem textExact_iff {c : CounterT V} {sel : LineT} {set : ℤ}
    {read : List ℕ × List (SetTable V)} (ha : c.aggregate = false)
    (hr : setRefused c.energy set = false) :
    TextExact c sel set read ↔ readLines c sel (textTables c.energy set) = .done read := by
  refine ⟨TextExact.reads, fun h => ⟨h, ?_⟩⟩
  simp [pmPrintDataText, printSheet, hr, ha, h]

/-! ## The cells -/

section cells

variable {lines printed : List ℕ} {ws : List (List (ℕ → V))} {c : CounterT V} {sel : LineT}
  {set : ℤ}

def printedSamples (lines : List ℕ) (ws : List (List (ℕ → V))) (set : ℤ) : List (ℕ × (ℕ → V)) :=
  (setIndices ws.length set).flatMap fun s =>
    ((ws.getD s []).take ((setSizes lines (ws.map List.length)).getD s 0)).map fun x => (s, x)

omit [Zero V] [Add V] [Sub V] [Mul V] [Div V] [IntCast V] in
theorem map_zip_iterate {α β : Type} (f : α → β) (rows : List α) (step : V → V) (start : V) :
    ((rows.zip (List.iterate step start rows.length)).map fun row => f row.1) = rows.map f := by
  have hlen : rows.length ≤ (List.iterate step start rows.length).length :=
    (List.length_iterate step start rows.length).ge
  rw [← Function.comp_def, ← List.map_map, List.map_fst_zip hlen]

def SheetRow.cells (row : SheetRow V) : ℤ × List V × Option V := (row.set, row.values, row.sum)

omit [Mul V] in
theorem sheetRows_cells {s size : ℤ} {rows : List (List V × Option V)} {shown : List (SheetRow V)}
    (h : sheetRows c s size rows = .done shown) :
    shown.map SheetRow.cells = rows.map fun row => (s, row) := by
  obtain ⟨time, -, h⟩ := Outcome.bind_eq_done.mp h
  obtain rfl := Outcome.done.inj h
  rw [List.map_map]
  exact map_zip_iterate (fun row : List V × Option V => (s, row)) rows _ _

omit [Zero V] [Add V] [Sub V] [Mul V] [Div V] [IntCast V] in
theorem flatMap_recordedTables : (recordedTables lines printed ws set).flatMap SetTable.rows =
    (printedSamples lines ws set).map fun sample => printed.map fun l => (l, sample.2 l) := by
  rw [recordedTables, printedSamples, List.flatMap_map, List.map_flatMap]
  simp only [recordedTable, List.map_map, Function.comp_def]

omit [Mul V] in
/-- The columns are the printed lines. The rows are the samples of the printed sets, in order, with
the value that the sample has on each of the lines. -/
theorem sheetOf_cells {separator : Char} {sheet : Sheet V}
    (h : sheetOf separator c (printed, recordedTables lines printed ws set) =
      .done (some sheet)) :
    sheet.header = some printed ∧ sheet.rows.map SheetRow.cells =
      (printedSamples lines ws set).map fun sample =>
        ((sample.1 : ℤ), printed.map sample.2, some ((printed.map sample.2).foldl (· + ·) 0)) := by
  obtain ⟨rows, hrows, h⟩ := Outcome.bind_eq_done.mp h
  obtain rfl := Option.some.inj (Outcome.done.inj h)
  refine ⟨rfl, ?_⟩
  rw [Outcome.mapM_eq_done, recordedTables, List.forall₂_map_left_iff] at hrows
  rw [printedSamples, List.map_flatten, List.map_flatMap, List.flatMap]
  congr 1
  rw [← List.forall₂_eq_eq_eq, List.forall₂_map_left_iff, List.forall₂_map_right_iff]
  refine hrows.flip.imp fun shown s hs => ?_
  rw [sheetRows_cells hs, recordedTable, List.map_map, List.map_map, List.map_map]
  refine List.map_congr_left fun x _ => ?_
  simp [withSum, Function.comp_def]

omit [Mul V] [Div V] [IntCast V] in
/-- The records of a trace are, sample after sample, one for each printed line and one for the
sum. -/
theorem paraverOf_cells {times : V × V} {trace : ParaverTrace V}
    (h : paraverOf c set times (recordedTables lines printed ws set) = .done (some trace)) :
    (trace.records.map fun r => (r.code, r.value)) =
      (printedSamples lines ws set).flatMap fun sample =>
        (printed.map fun l : ℕ => (500000010 + (l : ℤ), sample.2 l)) ++
          [(500000009, (printed.map sample.2).foldl (· + ·) 0)] := by
  obtain ⟨start, -, h⟩ := Outcome.bind_eq_done.mp h
  obtain rfl := Option.some.inj (Outcome.done.inj h)
  have hrow : ∀ (tm : V) (row : List (ℕ × V)),
      (paraverRow tm row).map (fun r => (r.code, r.value)) =
      row.map (fun cell => (500000010 + (cell.1 : ℤ), cell.2)) ++
        [(500000009, (row.map (·.2)).foldl (· + ·) 0)] := by
    intro tm row
    simp [paraverRow, Function.comp_def]
  simp only [List.map_flatten, List.map_map, Function.comp_def, hrow]
  rw [map_zip_iterate (fun row : List (ℕ × V) => row.map (fun cell => (500000010 + (cell.1 : ℤ),
    cell.2)) ++ [(500000009, (row.map (·.2)).foldl (· + ·) 0)]), flatMap_recordedTables,
    List.map_map, List.flatMap]
  simp only [Function.comp_def, List.map_map]

theorem StridedExact.cells
    (h : StridedExact c sel set (printed, recordedTables lines printed ws set)) :
    (∀ sheet, pmPrintDataCsv c sel set = .done (some sheet) ∨
        pmPrintDataStdout c sel set = .done (some sheet) →
      sheet.header = some printed ∧ sheet.rows.map SheetRow.cells =
        (printedSamples lines ws set).map fun sample =>
          ((sample.1 : ℤ), printed.map sample.2,
            some ((printed.map sample.2).foldl (· + ·) 0))) ∧
    ∀ unit trace, pmPrintDataParaver unit c sel set = .done (some trace) →
      (trace.records.map fun r => (r.code, r.value)) =
        (printedSamples lines ws set).flatMap fun sample =>
          (printed.map fun l : ℕ => (500000010 + (l : ℤ), sample.2 l)) ++
            [(500000009, (printed.map sample.2).foldl (· + ·) 0)] := by
  constructor
  · rintro sheet (hsheet | hsheet)
    · exact sheetOf_cells (h.csv ▸ hsheet)
    · exact sheetOf_cells (h.stdout ▸ hsheet)
  · intro unit trace htrace
    rw [h.paraver] at htrace
    obtain ⟨times, -, htrace⟩ := Outcome.bind_eq_done.mp htrace
    exact paraverOf_cells htrace

omit [Mul V] in
theorem TextExact.cells (h : TextExact c sel set (printed, recordedTables lines printed ws set))
    {sheet : Sheet V} (hsheet : pmPrintDataText c sel set = .done (some sheet)) :
    sheet.header = some printed ∧ sheet.rows.map SheetRow.cells =
      (printedSamples lines ws set).map fun sample =>
        ((sample.1 : ℤ), printed.map sample.2, some ((printed.map sample.2).foldl (· + ·) 0)) :=
  sheetOf_cells (h.text ▸ hsheet)

end cells

end printers

section arithmetic

variable {lens : List ℕ} {s n : ℕ}

/-- The stride over all sets hits the positions of a set when the samples of the other sets
make up for the lines of the sets before. -/
theorem stridedIndex_eq_position_iff (hs : lens[s]? = some n) {count : ℕ} (hc : 1 ≤ count)
    (k : ℕ) :
    (∀ i < n, stridedIndex lens s i k = position count lens s i k) ↔
      (n ≠ 0 → k * (lens.sum - n) = (count - 1) * before lens s) := by
  have hget : lens.getD s 0 = n := by simp [hs]
  have hle : n ≤ lens.sum := (Nat.le_add_left n _).trans (before_add_le hs)
  have hk : k * (lens.sum - n) + k * n = lens.sum * k := by
    rw [← Nat.mul_add, Nat.sub_add_cancel hle, Nat.mul_comm]
  have hb : (count - 1) * before lens s + before lens s = count * before lens s := by
    rw [← Nat.succ_mul, Nat.succ_eq_add_one, Nat.sub_add_cancel hc]
  have hindex : ∀ i, stridedIndex lens s i k = position count lens s i k ↔
      k * (lens.sum - n) = (count - 1) * before lens s := by
    intro i
    rw [stridedIndex, position, hget]
    norm_cast
    omega
  constructor
  · intro h hn
    exact (hindex 0).mp (h 0 (Nat.pos_of_ne_zero hn))
  · intro h i hi
    exact (hindex i).mpr (h (Nat.ne_zero_of_lt hi))

/-- The offset of the text printer is the position of a set when it counts every measured
line for every sample before. -/
theorem textIndex_eq_position_iff (hs : lens[s]? = some n) (nLinesCounter count : ℕ) (set : ℤ)
    (k : ℕ) :
    (∀ i < n, textIndex nLinesCounter set lens s i k = position count lens s i k) ↔
      (n ≠ 0 → (if set = -1 then nLinesCounter * before lens s else 0) =
        count * before lens s) := by
  have hget : lens.getD s 0 = n := by simp [hs]
  have hindex : ∀ i, textIndex nLinesCounter set lens s i k = position count lens s i k ↔
      (if set = -1 then nLinesCounter * before lens s else 0) = count * before lens s := by
    intro i
    rw [textIndex, position, hget, Nat.mul_comm k n]
    split_ifs
    · norm_cast
      omega
    · norm_cast
      omega
  constructor
  · intro h hn
    exact (hindex 0).mp (h 0 (Nat.pos_of_ne_zero hn))
  · intro h i hi
    exact (hindex i).mpr (h (Nat.ne_zero_of_lt hi))

end arithmetic

section shapes

variable [Zero V] [Add V] [Nontrivial V] {m sel : LineT} {nLines : ℕ} {lens : List ℕ} {set : ℤ}

private theorem layout_exact_iff
    (hsel : ∀ l : ℕ, l < 128 → sel.isSet l = true → l < nLines)
    (hset : ValidSet lens.length set)
    (hfit : (m.lines nLines).length * lens.sum < 2 ^ 31) (hsets : lens.length + 1 < 2 ^ 31)
    (layout : GetReply V → ℤ → SelectionTables → Outcome (List (SetTable V)))
    (index : List ℕ → ℕ → ℕ → ℕ → ℤ)
    (hlayout : ∀ (ws : List (List (ℕ → V))) (r : GetReply V), ws.map List.length = lens →
      NativeLayout (m.lines nLines) ws r → layout r set (tablesOf m sel nLines) =
        (setIndices ws.length set).mapM (tableAt r (tablesOf m sel nLines).entries
          (setSizes (m.lines nLines) lens) (index (setSizes (m.lines nLines) lens)))) :
    (∀ (ws : List (List (ℕ → V))) (r : GetReply V) (c : CounterT V),
      ws.map List.length = lens → NativeReply m nLines ws r → c.aggregate = false →
      c.lines = m → c.energy = r → readLines c sel (layout r set) =
        .done ((sel.and m).lines nLines,
          recordedTables (m.lines nLines) ((sel.and m).lines nLines) ws set)) ↔
    ∀ s ∈ setIndices lens.length set, ∀ n, lens[s]? = some n →
      ∀ l ∈ (sel.and m).lines nLines, ∀ i < n,
        index lens s i (m.rank l) = position (m.lines nLines).length lens s i (m.rank l) := by
  have hreads : ∀ (ws : List (List (ℕ → V))) (r : GetReply V) (c : CounterT V),
      ws.map List.length = lens → NativeReply m nLines ws r → c.lines = m → c.energy = r →
      (readLines c sel (layout r set) = .done ((sel.and m).lines nLines,
          recordedTables (m.lines nLines) ((sel.and m).lines nLines) ws set) ↔
        ∀ s ∈ setIndices lens.length set, ∀ w, ws[s]? = some w → ∀ i x, w[i]? = some x →
          ∀ l ∈ (sel.and m).lines nLines,
            Counter.readAt r.watts (index lens s i (m.rank l)) = .done (x l)) := by
    rintro ws r c hlen hr hm rfl
    have hcount : ws.length = lens.length := by rw [← hlen, List.length_map]
    have hlay := hr.layout (by rwa [hlen]) (by rwa [hcount])
    rw [readLines_eq_done_iff hm hlay.linesLen hsel, hlayout ws _ hlen hlay, ← hlen,
      tables_exact_iff (by rwa [hcount]), hcount, hlen]
    refine forall₂_congr fun s _ => forall₂_congr fun w _ => forall₂_congr fun i x =>
      forall_congr' fun _ => forall₂_congr fun l hl => ?_
    rw [setSizes_of_mem (printed_subset hl)]
  constructor
  · intro h s hs n hn l hl i hi
    refine (reads_iff_positions (V := V) (fun l hl => printed_subset hl) hfit hsets
      (index lens)).mp ?_ s hs n hn i hi l hl
    intro ws r hlen hr
    exact (hreads ws r ⟨false, m, 0, [], r⟩ hlen hr rfl rfl).mp
      (h ws r ⟨false, m, 0, [], r⟩ hlen hr rfl rfl rfl)
  · intro h ws r c hlen hr _ hm he
    refine (hreads ws r c hlen hr hm he).mpr ?_
    refine (reads_iff_positions (fun l hl => printed_subset hl) hfit hsets (index lens)).mpr ?_
      ws r hlen hr
    exact fun s hs n hn i hi l hl => h s hs n hn l hl i hi

private theorem shape_exact_iff
    (hsel : ∀ l : ℕ, l < 128 → sel.isSet l = true → l < nLines)
    (hset : ValidSet lens.length set)
    (hfit : (m.lines nLines).length * lens.sum < 2 ^ 31) (hsets : lens.length + 1 < 2 ^ 31)
    (layout : GetReply V → ℤ → SelectionTables → Outcome (List (SetTable V)))
    (index : List ℕ → ℕ → ℕ → ℕ → ℤ)
    (hlayout : ∀ (ws : List (List (ℕ → V))) (r : GetReply V), ws.map List.length = lens →
      NativeLayout (m.lines nLines) ws r → layout r set (tablesOf m sel nLines) =
        (setIndices ws.length set).mapM (tableAt r (tablesOf m sel nLines).entries
          (setSizes (m.lines nLines) lens) (index (setSizes (m.lines nLines) lens))))
    (shows : CounterT V → List ℕ × List (SetTable V) → Prop)
    (hshows : ∀ (c : CounterT V) read, c.aggregate = false → setRefused c.energy set = false →
      (shows c read ↔ readLines c sel (layout c.energy set) = .done read))
    (cond : ℕ → ℕ → ℕ → Prop)
    (hcond : ∀ s n, lens[s]? = some n → ∀ l ∈ (sel.and m).lines nLines,
      ((∀ i < n, index lens s i (m.rank l) =
        position (m.lines nLines).length lens s i (m.rank l)) ↔ (n ≠ 0 → cond s n l))) :
    (∀ (ws : List (List (ℕ → V))) (r : GetReply V) (c : CounterT V),
      ws.map List.length = lens → NativeReply m nLines ws r → c.aggregate = false →
      c.lines = m → c.energy = r → shows c ((sel.and m).lines nLines,
        recordedTables (m.lines nLines) ((sel.and m).lines nLines) ws set)) ↔
    ∀ s ∈ setIndices lens.length set, ∀ n, lens[s]? = some n → n ≠ 0 →
      ∀ l ∈ (sel.and m).lines nLines, cond s n l := by
  have hreads := layout_exact_iff hsel hset hfit hsets layout index hlayout
  have hshown : ∀ (ws : List (List (ℕ → V))) (r : GetReply V) (c : CounterT V),
      ws.map List.length = lens → NativeReply m nLines ws r → c.aggregate = false →
      c.energy = r → ∀ read, shows c read ↔ readLines c sel (layout r set) = .done read := by
    rintro ws r c hlen hr ha rfl read
    have hcount : ws.length = lens.length := by rw [← hlen, List.length_map]
    have hlay := hr.layout (by rwa [hlen]) (by rwa [hcount])
    exact hshows c read ha (hlay.announces.setRefused_eq (by rwa [length_setSizes, hlen]))
  constructor
  · intro h s hs n hn hn₀ l hl
    refine (hcond s n hn l hl).mp ?_ hn₀
    exact hreads.mp (fun ws r c hlen hr ha hm he =>
      (hshown ws r c hlen hr ha he _).mp (h ws r c hlen hr ha hm he)) s hs n hn l hl
  · intro h ws r c hlen hr ha hm he
    refine (hshown ws r c hlen hr ha he _).mpr (hreads.mpr ?_ ws r c hlen hr ha hm he)
    intro s hs n hn l hl
    exact (hcond s n hn l hl).mpr fun hn₀ => h s hs n hn hn₀ l hl

variable [Sub V] [Mul V] [Div V] [IntCast V]

/-- For replies of one shape, to a counter on the lines of `m`: the csv, standard output,
Paraver and energy functions show what was recorded, whatever that was, if and only if in
every set with samples, and for every printed line, the samples of the other sets taken once
for each line before are as many as the samples of the sets before taken once for each line
but one. -/
theorem strided_exact_iff (m sel : LineT) (nLines : ℕ) (lens : List ℕ) (set : ℤ)
    (hsel : ∀ l : ℕ, l < 128 → sel.isSet l = true → l < nLines)
    (hset : ValidSet lens.length set)
    (hfit : (m.lines nLines).length * lens.sum < 2 ^ 31) (hsets : lens.length + 1 < 2 ^ 31) :
    (∀ (ws : List (List (ℕ → V))) (r : GetReply V) (c : CounterT V),
      ws.map List.length = lens → NativeReply m nLines ws r → c.aggregate = false →
      c.lines = m → c.energy = r → StridedExact c sel set ((sel.and m).lines nLines,
        recordedTables (m.lines nLines) ((sel.and m).lines nLines) ws set)) ↔
    ∀ s ∈ setIndices lens.length set, ∀ n, lens[s]? = some n → n ≠ 0 →
      ∀ l ∈ (sel.and m).lines nLines,
        m.rank l * (lens.sum - n) = ((m.lines nLines).length - 1) * before lens s := by
  refine shape_exact_iff hsel hset hfit hsets stridedTables stridedIndex ?_
    (fun c read => StridedExact c sel set read) (fun c read => stridedExact_iff)
    (fun s n l => m.rank l * (lens.sum - n) = ((m.lines nLines).length - 1) * before lens s) ?_
  · intro ws r hlen hlay
    rw [hlay.announces.stridedTables_eq (by rwa [length_setSizes, hlen])
      (tablesOf_length m sel nLines), length_setSizes, List.length_map, hlen]
  · intro s n hn l hl
    exact stridedIndex_eq_position_iff hn (List.length_pos_of_mem (printed_subset hl)) _

end shapes

def firstLine : LineT := LineT.clrAll.set 0

def firstTwoLines : LineT := firstLine.set 1

def twoSets : List (List (ℕ → ℤ)) := [[fun l => 1 + l], [fun l => 3 + l]]

def holding (m : LineT) (r : GetReply ℤ) : CounterT ℤ :=
  ⟨false, m, 2, [some 0, some 1, some 2, some 3], r⟩

theorem strided_exact_oneLine : ∃ r, NativeReply firstLine 1 twoSets r ∧
    StridedExact (holding firstLine r) firstLine (-1)
      ([0], [⟨0, 1, [[(0, 1)]]⟩, ⟨1, 1, [[(0, 3)]]⟩]) := by
  obtain ⟨r, hr⟩ := exists_nativeReply firstLine 1 twoSets (by decide)
  have hiff := strided_exact_iff (V := ℤ) firstLine firstLine 1 [1, 1] (-1) (by decide)
    (.inl rfl) (by decide) (by decide)
  exact ⟨r, hr, hiff.mpr (by decide) twoSets r (holding firstLine r) rfl hr rfl rfl rfl⟩

/-- Two lines and two sets: what set 0 is said to have on line 1 is the first value of set 1. -/
theorem strided_exact_fails : ∃ r, NativeReply firstTwoLines 2 twoSets r ∧
    r.watts = [1, 2, 3, 4] ∧
    readLines (holding firstTwoLines r) firstTwoLines (stridedTables r (-1)) =
      .done ([0, 1], [⟨0, 1, [[(0, 1), (1, 3)]]⟩, ⟨1, 1, [[(0, 2), (1, 4)]]⟩]) ∧
    ¬ StridedExact (holding firstTwoLines r) firstTwoLines (-1)
      ([0, 1], recordedTables [0, 1] [0, 1] twoSets (-1)) := by
  obtain ⟨r, hr⟩ := exists_nativeReply firstTwoLines 2 twoSets (by decide)
  have hreply : r = ⟨4, 3, 2, [0, 1, 2], [1, 2, 3, 4]⟩ :=
    (hr.layout (by decide) (by decide)).unique
      ⟨by decide +kernel, by decide +kernel, rfl, rfl, by decide⟩
  subst hreply
  have hread : readLines (holding firstTwoLines ⟨4, 3, 2, [0, 1, 2], [1, 2, 3, 4]⟩)
      firstTwoLines (stridedTables ⟨4, 3, 2, [0, 1, 2], [1, 2, 3, 4]⟩ (-1)) =
        .done ([0, 1], [⟨0, 1, [[(0, 1), (1, 3)]]⟩, ⟨1, 1, [[(0, 2), (1, 4)]]⟩]) := by
    decide +kernel
  refine ⟨_, hr, rfl, hread, fun h => ?_⟩
  have hsame := h.reads.symm.trans hread
  revert hsame
  decide +kernel

section shapes

variable [Zero V] [Add V] [Nontrivial V] {m sel : LineT} {nLines : ℕ} {lens : List ℕ} {set : ℤ}
  [Sub V] [Mul V] [Div V] [IntCast V]

omit [Mul V] in
/-- For replies of one shape: the text printer shows what was recorded, whatever that was, if
and only if every set with samples that it prints has no samples before it, or all sets are
printed, and all measured lines are printed or the mask has no line beyond the device. -/
theorem text_exact_iff (m sel : LineT) (nLines : ℕ) (lens : List ℕ) (set : ℤ)
    (hsel : ∀ l : ℕ, l < 128 → sel.isSet l = true → l < nLines)
    (hset : ValidSet lens.length set)
    (hfit : (m.lines nLines).length * lens.sum < 2 ^ 31) (hsets : lens.length + 1 < 2 ^ 31) :
    (∀ (ws : List (List (ℕ → V))) (r : GetReply V) (c : CounterT V),
      ws.map List.length = lens → NativeReply m nLines ws r → c.aggregate = false →
      c.lines = m → c.energy = r → TextExact c sel set ((sel.and m).lines nLines,
        recordedTables (m.lines nLines) ((sel.and m).lines nLines) ws set)) ↔
    ∀ s ∈ setIndices lens.length set, ∀ n, lens[s]? = some n → n ≠ 0 →
      ∀ l ∈ (sel.and m).lines nLines, before lens s = 0 ∨ set = -1 ∧
        ((sel.and m).lines nLines = m.lines nLines ∨
          ∀ x : ℕ, x < 128 → m.isSet x = true → x < nLines) := by
  refine shape_exact_iff hsel hset hfit hsets textTables
    (textIndex (tablesOf m sel nLines).nLinesCounter set) ?_
    (fun c read => TextExact c sel set read) (fun c read => textExact_iff)
    (fun s n l => before lens s = 0 ∨ set = -1 ∧
        ((sel.and m).lines nLines = m.lines nLines ∨
          ∀ x : ℕ, x < 128 → m.isSet x = true → x < nLines)) ?_
  · intro ws r hlen hlay
    rw [hlay.announces.textTables_eq (by rwa [length_setSizes, hlen])
      (tablesOf_length m sel nLines), length_setSizes, List.length_map, hlen]
  · intro s n hn l hl
    have hpos : (m.lines nLines).length ≠ 0 :=
      (List.length_pos_of_mem (printed_subset hl)).ne'
    rw [textIndex_eq_position_iff hn, ← nLinesCounter_eq_iff]
    apply imp_congr_right
    intro _
    split_ifs with hall
    · rw [mul_eq_mul_right_iff]
      tauto
    · rw [eq_comm, Nat.mul_eq_zero]
      tauto

end shapes

theorem text_exact_twoLines : ∃ r, NativeReply firstTwoLines 2 twoSets r ∧
    TextExact (holding firstTwoLines r) firstLine (-1)
      ([0], [⟨0, 1, [[(0, 1)]]⟩, ⟨1, 1, [[(0, 3)]]⟩]) := by
  obtain ⟨r, hr⟩ := exists_nativeReply firstTwoLines 2 twoSets (by decide)
  have hiff := text_exact_iff (V := ℤ) firstTwoLines firstLine 2 [1, 1] (-1) (by decide)
    (.inl rfl) (by decide) (by decide)
  exact ⟨r, hr, hiff.mpr (by decide) twoSets r (holding firstTwoLines r) rfl hr rfl rfl rfl⟩

/-- A single set is read from the first one on; and with all bits of the mask set, the first
line alone is read from far beyond the end for the second set. -/
theorem text_exact_fails :
    (∃ r, NativeReply firstLine 1 twoSets r ∧ r.watts = [1, 3] ∧
      readLines (holding firstLine r) firstLine (textTables r 1) =
        .done ([0], [⟨1, 1, [[(0, 1)]]⟩]) ∧
      ¬ TextExact (holding firstLine r) firstLine 1 ([0], recordedTables [0] [0] twoSets 1)) ∧
    ∃ r, NativeReply LineT.setAll 2 twoSets r ∧ r.watts = [1, 2, 3, 4] ∧
      readLines (holding LineT.setAll r) firstLine (textTables r (-1)) = .undefined ∧
      ¬ TextExact (holding LineT.setAll r) firstLine (-1)
        ([0], recordedTables [0, 1] [0] twoSets (-1)) := by
  constructor
  · obtain ⟨r, hr⟩ := exists_nativeReply firstLine 1 twoSets (by decide)
    have hreply : r = ⟨2, 3, 1, [0, 1, 2], [1, 3]⟩ :=
      (hr.layout (by decide) (by decide)).unique
        ⟨by decide +kernel, by decide +kernel, rfl, rfl, by decide⟩
    subst hreply
    have hread : readLines (holding firstLine ⟨2, 3, 1, [0, 1, 2], [1, 3]⟩) firstLine
        (textTables ⟨2, 3, 1, [0, 1, 2], [1, 3]⟩ 1) = .done ([0], [⟨1, 1, [[(0, 1)]]⟩]) := by
      decide +kernel
    refine ⟨_, hr, rfl, hread, fun h => ?_⟩
    have hsame := h.reads.symm.trans hread
    revert hsame
    decide +kernel
  · obtain ⟨r, hr⟩ := exists_nativeReply LineT.setAll 2 twoSets (by decide)
    have hreply : r = ⟨4, 3, 2, [0, 1, 2], [1, 2, 3, 4]⟩ :=
      (hr.layout (by decide) (by decide)).unique
        ⟨by decide +kernel, by decide +kernel, rfl, rfl, by decide⟩
    subst hreply
    have hread : readLines (holding LineT.setAll ⟨4, 3, 2, [0, 1, 2], [1, 2, 3, 4]⟩) firstLine
        (textTables ⟨4, 3, 2, [0, 1, 2], [1, 2, 3, 4]⟩ (-1)) = .undefined := by
      decide +kernel
    refine ⟨_, hr, rfl, hread, fun h => ?_⟩
    have hsame := h.reads.symm.trans hread
    cases hsame

end PMLib
