import PMLib.Holding

/-! # Set arguments

The printers and the energy function compare the set with the number of bounds, of which
there is one more than there are sets. The Paraver printer has used it before. -/
namespace PMLib

variable {V : Type}

section layouts

variable {c : CounterT V} {nLines : ℕ} {sizes : List ℕ} {sel : LineT} {t : SelectionTables}

theorem CounterT.Holds.row_returns (ht : CounterT.Holds.Tables c sel nLines t)
    (index : ℤ → ℤ) (place : ℕ → ℕ) (hindex : ∀ k : ℕ, index k = place k) :
    (rowAt c.energy t index).Returns ↔ c.lines.Fills sel nLines ∧
      ∀ l ∈ (sel.and c.lines).lines nLines,
        place (c.lines.rank l) < c.energy.watts.length := by
  rw [rowAt_returns _ ht.room, ht.filled, ht.entries]
  refine and_congr_right fun _ => ?_
  rw [List.forall_mem_map]
  refine forall₂_congr fun l _ => ?_
  rw [Counter.returns_readAt]
  dsimp only
  rw [hindex]
  omega

theorem CounterT.Holds.Tables.strided_returns (ht : CounterT.Holds.Tables c sel nLines t)
    (h : Announces sizes c.energy) (set : ℤ) :
    (stridedTables c.energy set t).Returns ↔ ValidSet sizes.length set ∧
      ∀ s ∈ setIndices sizes.length set, 0 < sizes.getD s 0 →
        c.lines.Fills sel nLines ∧ StridedRoom c.lines sel nLines c.energy sizes s := by
  have hrow : ∀ s i : ℕ,
      (rowAt c.energy t fun r => (before sizes s : ℤ) + i + sizes.sum * r).Returns ↔
        c.lines.Fills sel nLines ∧ ∀ l ∈ (sel.and c.lines).lines nLines,
          before sizes s + i + sizes.sum * c.lines.rank l < c.energy.watts.length :=
    fun s i => CounterT.Holds.row_returns ht _
      (fun k => before sizes s + i + sizes.sum * k) fun k => by
      push_cast
      rfl
  rw [stridedTables, h.wholeInterval_eq, Outcome.done_bind]
  by_cases hset : ValidSet sizes.length set
  · rw [h.setRange_eq hset, List.mapM_map, Outcome.returns_mapM, and_iff_right hset]
    refine forall₂_congr fun s hs => ?_
    rw [Function.comp_apply, stridedTable,
      h.read_bounds (lt_of_mem_setIndices hset hs), Outcome.returns_bind_done,
      Outcome.returns_mapM, bounds_sub, Int.toNat_natCast]
    simp only [List.mem_range, hrow]
    constructor
    · intro hrows hpos
      obtain ⟨hfills, hlast⟩ := hrows (sizes.getD s 0 - 1) (by omega)
      refine ⟨hfills, fun l hl => ?_⟩
      have := hlast l hl
      omega
    · intro hroom i hi
      obtain ⟨hfills, hlast⟩ := hroom (Nat.zero_lt_of_lt hi)
      refine ⟨hfills, fun l hl => ?_⟩
      have := hlast l hl
      omega
  · refine iff_of_false ?_ fun hr => hset hr.1
    have hall : set ≠ -1 := fun hm => hset (.inl hm)
    rw [setRange, if_neg hall, Outcome.returns_mapM]
    intro hr
    exact h.read_no_bounds (fun hs => hset (.inr hs)) _
      (hr set (List.mem_singleton.mpr rfl))

theorem CounterT.Holds.text_rows (ht : CounterT.Holds.Tables c sel nLines t)
    (offset size : ℕ) :
    (∀ i < size, (rowAt c.energy t fun r => (offset : ℤ) + (i + size * r)).Returns) ↔
      (0 < size → c.lines.Fills sel nLines ∧ ∀ l ∈ (sel.and c.lines).lines nLines,
        offset + size * (c.lines.rank l + 1) ≤ c.energy.watts.length) := by
  have hrow : ∀ i : ℕ, (rowAt c.energy t fun r => (offset : ℤ) + (i + size * r)).Returns ↔
      c.lines.Fills sel nLines ∧ ∀ l ∈ (sel.and c.lines).lines nLines,
        offset + (i + size * c.lines.rank l) < c.energy.watts.length :=
    fun i => row_returns ht _ (fun k => offset + (i + size * k)) fun k => by
      push_cast
      rfl
  simp only [hrow, Nat.mul_add, Nat.mul_one]
  constructor
  · intro hrows hpos
    obtain ⟨hfills, hlast⟩ := hrows (size - 1) (by omega)
    refine ⟨hfills, fun l hl => ?_⟩
    have := hlast l hl
    omega
  · intro hsize i hi
    obtain ⟨hfills, hlast⟩ := hsize (Nat.zero_lt_of_lt hi)
    refine ⟨hfills, fun l hl => ?_⟩
    have := hlast l hl
    omega

theorem CounterT.Holds.offset_returns (h : c.Holds nLines sizes) (t : SelectionTables) (n s : ℕ)
    (hn : s + n ≤ sizes.length) :
    (offsetTables c.energy t (t.nLinesCounter * before sizes s : ℕ)
        ((List.range' s n).map fun s : ℕ => (s : ℤ))).Returns ↔
      ∀ s' ∈ List.range' s n, ∀ i < sizes.getD s' 0,
        (rowAt c.energy t fun r => ((t.nLinesCounter * before sizes s' : ℕ) : ℤ) +
          (i + sizes.getD s' 0 * r)).Returns := by
  induction n generalizing s with
  | zero => simp [offsetTables]
  | succ n ih =>
    have hlt : s < sizes.length := by omega
    have hoffset : ((t.nLinesCounter * before sizes s : ℕ) : ℤ) +
        t.nLinesCounter * (sizes.getD s 0 : ℤ) =
        ((t.nLinesCounter * before sizes (s + 1) : ℕ) : ℤ) := by
      rw [before_succ (List.getElem?_eq_getElem hlt), List.getD_eq_getElem?_getD,
        List.getElem?_eq_getElem hlt, Option.getD_some]
      push_cast
      ring
    rw [List.range'_succ, List.map_cons, offsetTables, h.announces.read_bounds hlt, bounds_sub]
    dsimp only
    rw [hoffset, Int.toNat_natCast,
      Outcome.returns_bind_of_forall fun _ _ => Outcome.returns_bind_done, ih (s + 1) (by omega),
      Outcome.returns_mapM]
    simp [List.mem_range]

/-- All the values are there that the text printer reads of set `s`: it counts its lines for
every sample before, unless it prints that set alone. -/
def TextRoom (m sel : LineT) (nLines : ℕ) (r : GetReply V) (sizes : List ℕ) (set : ℤ) (s : ℕ) :
    Prop :=
  ∀ l ∈ (sel.and m).lines nLines,
    (if set = -1 then countedLines m sel nLines * before sizes s else 0) +
      sizes.getD s 0 * (m.rank l + 1) ≤ r.watts.length

theorem CounterT.Holds.text_returns (h : c.Holds nLines sizes)
    (ht : CounterT.Holds.Tables c sel nLines t) (set : ℤ) :
    (textTables c.energy set t).Returns ↔ ValidSet sizes.length set ∧
      ∀ s ∈ setIndices sizes.length set, 0 < sizes.getD s 0 →
        c.lines.Fills sel nLines ∧ TextRoom c.lines sel nLines c.energy sizes set s := by
  rw [textTables, h.announces.wholeInterval_eq, Outcome.done_bind]
  by_cases hset : ValidSet sizes.length set
  · rw [h.announces.setRange_eq hset, and_iff_right hset]
    unfold setIndices TextRoom
    split_ifs with hall
    · have hzero : (0 : ℤ) = (t.nLinesCounter * before sizes 0 : ℕ) := by simp
      rw [List.range_eq_range', hzero, h.offset_returns t _ 0 (by omega)]
      refine forall₂_congr fun s _ => ?_
      rw [text_rows ht]
      refine imp_congr_right fun _ => and_congr_right fun hfills => ?_
      rw [ht.counted hfills]
    · obtain hset | ⟨h₀, hlt⟩ := hset
      · exact absurd hset hall
      have hlt : set.toNat < sizes.length := by omega
      have hrows := text_rows ht 0 (sizes.getD set.toNat 0)
      rw [List.map_singleton, offsetTables, h.announces.read_bounds hlt, bounds_sub]
      dsimp only
      rw [offsetTables, Int.toNat_natCast,
        Outcome.returns_bind_of_forall (P := True) fun _ _ => by simp, and_true,
        Outcome.returns_mapM]
      simp only [List.mem_range, List.mem_singleton, forall_eq]
      rw [show (0 : ℤ) = ((0 : ℕ) : ℤ) from rfl, hrows]
  · refine iff_of_false ?_ fun hr => hset hr.1
    have hall : set ≠ -1 := fun hm => hset (.inl hm)
    rw [setRange, if_neg hall, offsetTables]
    exact h.announces.read_no_bounds (fun hs => hset (.inr hs)) _

end layouts

/-- The aggregate of the processed sets is read when these sets are there, and their last
values. -/
theorem CounterT.Holds.aggregate_returns {c : CounterT V} {nLines : ℕ} {sizes : List ℕ}
    (h : c.Holds nLines sizes) (set : ℤ) :
    (∀ s ∈ setRange c.energy set, (aggregateValues c.energy s).Returns) ↔
      ValidSet sizes.length set ∧ ∀ s ∈ setIndices sizes.length set, 0 < sizes.getD s 0 →
        before sizes s + sizes.getD s 0 ≤ c.energy.watts.length := by
  by_cases hset : ValidSet sizes.length set
  · rw [h.announces.setRange_eq hset, and_iff_right hset, List.forall_mem_map]
    exact forall₂_congr fun s hs =>
      h.announces.aggregateValues_returns (lt_of_mem_setIndices hset hs)
  · refine iff_of_false (fun hr => ?_) fun hr => hset hr.1
    have hall : set ≠ -1 := fun hm => hset (.inl hm)
    rw [setRange, if_neg hall] at hr
    exact h.announces.read_no_bounds (fun hs => hset (.inr hs)) _
      (hr set (List.mem_singleton.mpr rfl))

theorem Announces.forall_setRange {sizes : List ℕ} {e : GetReply V} (h : Announces sizes e)
    (set : ℤ) : (∀ s ∈ setRange e set, 0 ≤ s ∧ s < sizes.length) ↔
      ValidSet sizes.length set := by
  by_cases hset : ValidSet sizes.length set
  · refine iff_of_true (fun s hs => ?_) hset
    rw [h.setRange_eq hset] at hs
    obtain ⟨n, hn, rfl⟩ := List.mem_map.mp hs
    have := lt_of_mem_setIndices hset hn
    omega
  · have hall : set ≠ -1 := fun hm => hset (.inl hm)
    refine iff_of_false (fun hr => ?_) hset
    rw [setRange, if_neg hall] at hr
    exact hset (.inr (hr set (List.mem_singleton.mpr rfl)))

/-! ## What the loops read -/

section reads

variable [Sub V]

/-- What the loops of the sheets and of the energy function read of a reply and of the times.
The header names the lines, and reads neither. -/
def loopReads (c : CounterT V) (lines : LineT) (set : ℤ)
    (layout : SelectionTables → Outcome (List (SetTable V))) : Outcome (List V) :=
  if c.aggregate then (setRange c.energy set).mapM fun s => do
    let _ ← aggregateValues c.energy s
    c.time s
  else do
    let t ← selectionTables c.lines lines c.energy.linesLen
    let tables ← layout t
    tables.mapM fun table => c.time table.set

variable {c : CounterT V} {nLines : ℕ} {sizes : List ℕ} {sel : LineT}

theorem CounterT.Holds.aggregate_reads (h : c.Holds nLines sizes) (ha : c.aggregate = true)
    (set : ℤ) (layout : SelectionTables → Outcome (List (SetTable V))) :
    (loopReads c sel set layout).Returns ↔ ValidSet sizes.length set ∧
      ∀ s ∈ setIndices sizes.length set, 0 < sizes.getD s 0 →
        before sizes s + sizes.getD s 0 ≤ c.energy.watts.length := by
  have hpass : ∀ s : ℤ, (aggregateValues c.energy s >>= fun _ => c.time s).Returns ↔
      (aggregateValues c.energy s).Returns ∧ 0 ≤ s ∧ s < sizes.length :=
    fun s => Outcome.returns_bind_of_forall fun _ _ => h.time_returns s
  rw [loopReads, if_pos ha, Outcome.returns_mapM]
  simp only [hpass]
  rw [forall₂_and, h.announces.forall_setRange, h.aggregate_returns]
  tauto

omit [Sub V] in
theorem stridedTable_set {e : GetReply V} {t : SelectionTables} {interval s : ℤ}
    {table : SetTable V} (h : stridedTable e t interval s = .done table) : table.set = s := by
  obtain ⟨ini, _, h⟩ := Outcome.bind_eq_done.mp h
  obtain ⟨fin, _, h⟩ := Outcome.bind_eq_done.mp h
  obtain ⟨rows, _, h⟩ := Outcome.bind_eq_done.mp h
  obtain rfl := Outcome.done.inj h
  rfl

omit [Sub V] in
theorem offsetTables_sets {e : GetReply V} {t : SelectionTables} {offset : ℤ} {ss : List ℤ}
    {tables : List (SetTable V)} (h : offsetTables e t offset ss = .done tables) :
    tables.map SetTable.set = ss := by
  induction ss generalizing offset tables with
  | nil =>
    obtain rfl := Outcome.done.inj h
    rfl
  | cons s ss ih =>
    obtain ⟨ini, _, h⟩ := Outcome.bind_eq_done.mp h
    obtain ⟨fin, _, h⟩ := Outcome.bind_eq_done.mp h
    obtain ⟨rows, _, h⟩ := Outcome.bind_eq_done.mp h
    obtain ⟨rest, hrest, h⟩ := Outcome.bind_eq_done.mp h
    obtain rfl := Outcome.done.inj h
    rw [List.map_cons, ih hrest]

def KeepsSets (e : GetReply V) (set : ℤ)
    (layout : SelectionTables → Outcome (List (SetTable V))) : Prop :=
  ∀ t tables, layout t = .done tables → tables.map SetTable.set = setRange e set

omit [Sub V] in
theorem stridedTables_keepsSets (e : GetReply V) (set : ℤ) :
    KeepsSets e set (stridedTables e set) := by
  intro t tables h
  obtain ⟨interval, _, h⟩ := Outcome.bind_eq_done.mp h
  rw [Outcome.mapM_eq_done] at h
  rw [← List.forall₂_eq_eq_eq, List.forall₂_map_left_iff]
  exact h.flip.imp fun _ _ hs => stridedTable_set hs

omit [Sub V] in
theorem textTables_keepsSets (e : GetReply V) (set : ℤ) :
    KeepsSets e set (textTables e set) := by
  intro t tables h
  obtain ⟨interval, _, h⟩ := Outcome.bind_eq_done.mp h
  exact offsetTables_sets h

theorem CounterT.Holds.line_reads (h : c.Holds nLines sizes) (ha : c.aggregate = false) {set : ℤ}
    {layout : SelectionTables → Outcome (List (SetTable V))}
    (hkeeps : KeepsSets c.energy set layout) {t : SelectionTables}
    (ht : selectionTables c.lines sel c.energy.linesLen = .done t) :
    (loopReads c sel set layout).Returns ↔ (layout t).Returns ∧ ValidSet sizes.length set := by
  rw [loopReads, if_neg (by simp [ha]), ht, Outcome.done_bind, Outcome.returns_bind_of_forall]
  intro tables htables
  have hsets := hkeeps t tables htables
  rw [Outcome.returns_mapM]
  simp only [h.time_returns]
  have hall : (∀ table ∈ tables, 0 ≤ table.set ∧ table.set < sizes.length) ↔
      ∀ s ∈ setRange c.energy set, 0 ≤ s ∧ s < sizes.length := by
    rw [← hsets, List.forall_mem_map]
  rw [hall]
  exact h.announces.forall_setRange set

/-- The values of the processed sets that have samples are all there, and so are the printed
lines. -/
def LinesRead (c : CounterT V) (sel : LineT) (nLines : ℕ) (sizes : List ℕ) (set : ℤ) : Prop :=
  ∀ s ∈ setIndices sizes.length set, 0 < sizes.getD s 0 →
    if c.aggregate then before sizes s + sizes.getD s 0 ≤ c.energy.watts.length
    else c.lines.Fills sel nLines ∧ StridedRoom c.lines sel nLines c.energy sizes s

omit [Sub V] in
theorem linesRead_iff {set : ℤ} (ha : c.aggregate = false) : LinesRead c sel nLines sizes set ↔
    ∀ s ∈ setIndices sizes.length set, 0 < sizes.getD s 0 →
      c.lines.Fills sel nLines ∧ StridedRoom c.lines sel nLines c.energy sizes s := by
  simp only [LinesRead, ha, Bool.false_eq_true, if_false]

omit [Sub V] in
theorem linesRead_iff_sums {set : ℤ} (ha : c.aggregate = true) :
    LinesRead c sel nLines sizes set ↔ ∀ s ∈ setIndices sizes.length set, 0 < sizes.getD s 0 →
      before sizes s + sizes.getD s 0 ≤ c.energy.watts.length := by
  simp only [LinesRead, ha, if_true]

def TextRead (c : CounterT V) (sel : LineT) (nLines : ℕ) (sizes : List ℕ) (set : ℤ) : Prop :=
  ∀ s ∈ setIndices sizes.length set, 0 < sizes.getD s 0 →
    if c.aggregate then before sizes s + sizes.getD s 0 ≤ c.energy.watts.length
    else c.lines.Fills sel nLines ∧ TextRoom c.lines sel nLines c.energy sizes set s

theorem CounterT.Holds.loopReads_iff (h : c.Holds nLines sizes) {set : ℤ}
    {layout : SelectionTables → Outcome (List (SetTable V))}
    (hkeeps : KeepsSets c.energy set layout) {P : ℕ → Prop}
    (hlayout : ∀ t, CounterT.Holds.Tables c sel nLines t → ((layout t).Returns ↔
      ValidSet sizes.length set ∧
        ∀ s ∈ setIndices sizes.length set, 0 < sizes.getD s 0 → P s)) :
    (loopReads c sel set layout).Returns ↔ ValidSet sizes.length set ∧
      ∀ s ∈ setIndices sizes.length set, 0 < sizes.getD s 0 →
        if c.aggregate then before sizes s + sizes.getD s 0 ≤ c.energy.watts.length
        else P s := by
  by_cases ha : c.aggregate = true
  · simp only [ha, if_true]
    exact h.aggregate_reads ha set layout
  · have ha' : c.aggregate = false := by simpa using ha
    obtain ⟨t, ht, hspec⟩ := CounterT.Holds.exists_tables h.linesLen sel
    simp only [ha', Bool.false_eq_true, if_false]
    rw [h.line_reads ha' hkeeps ht, hlayout t hspec]
    tauto

theorem CounterT.Holds.loopReads_strided (h : c.Holds nLines sizes) (set : ℤ) :
    (loopReads c sel set (stridedTables c.energy set)).Returns ↔
      ValidSet sizes.length set ∧ LinesRead c sel nLines sizes set :=
  h.loopReads_iff (stridedTables_keepsSets c.energy set) fun _ ht =>
    ht.strided_returns h.announces set

theorem CounterT.Holds.loopReads_text (h : c.Holds nLines sizes) (set : ℤ) :
    (loopReads c sel set (textTables c.energy set)).Returns ↔
      ValidSet sizes.length set ∧ TextRead c sel nLines sizes set :=
  h.loopReads_iff (textTables_keepsSets c.energy set) fun _ ht => h.text_returns ht set

end reads

/-! ## The functions -/

theorem setRefused_iff {e : GetReply V} (h : Announces sizes e) (set : ℤ) :
    setRefused e set = true ↔ sizes.length < set ∨ set < -1 := by
  unfold setRefused
  rw [h.wattsSetsSize]
  simp only [Bool.or_eq_true, decide_eq_true_eq]
  omega

section functions

variable [Zero V] [Add V] [Sub V] [Mul V] [Div V] [IntCast V]
  {c : CounterT V} {nLines : ℕ} {sizes : List ℕ} {sel : LineT}

omit [Mul V] in
theorem printSheet_eq_none {separator : Char} {set : ℤ}
    {layout : SelectionTables → Outcome (List (SetTable V))} :
    printSheet separator c sel set layout = .done none ↔ setRefused c.energy set = true := by
  unfold printSheet
  split_ifs with hr ha
  · exact iff_of_true rfl hr
  · refine iff_of_false (fun h => ?_) hr
    obtain ⟨_, _, h⟩ := Outcome.bind_eq_done.mp h
    cases h
  · refine iff_of_false (fun h => ?_) hr
    obtain ⟨_, _, h⟩ := Outcome.bind_eq_done.mp h
    obtain ⟨_, _, h⟩ := Outcome.bind_eq_done.mp h
    cases h

theorem pmCalculateEnergy_eq_none {accumulators : ℕ} {set : ℤ} :
    pmCalculateEnergy accumulators c sel set = .done none ↔ setRefused c.energy set = true := by
  unfold pmCalculateEnergy
  split_ifs with hr ha
  · exact iff_of_true rfl hr
  · refine iff_of_false (fun h => ?_) hr
    obtain ⟨_, _, h⟩ := Outcome.bind_eq_done.mp h
    obtain ⟨_, _, h⟩ := Outcome.bind_eq_done.mp h
    cases h
  · refine iff_of_false (fun h => ?_) hr
    obtain ⟨_, _, h⟩ := Outcome.bind_eq_done.mp h
    obtain ⟨_, _, h⟩ := Outcome.bind_eq_done.mp h
    cases h

omit [Mul V] in
/-- A sheet is printed when the loops read what they need and the header has its lines. -/
theorem printSheet_returns {separator : Char} {set : ℤ}
    {layout : SelectionTables → Outcome (List (SetTable V))} {t : SelectionTables}
    (ht : selectionTables c.lines sel c.energy.linesLen = .done t)
    (hr : setRefused c.energy set = false) :
    (printSheet separator c sel set layout).Returns ↔ (loopReads c sel set layout).Returns ∧
      (c.aggregate = false → (headerLines t).Returns) := by
  have hrows : ∀ s size rows, (sheetRows c s size rows).Returns ↔ (c.time s).Returns :=
    fun s size rows => Outcome.returns_bind_done
  unfold printSheet loopReads
  rw [if_neg (by simp [hr])]
  split_ifs with ha
  · rw [aggregateSheet, Outcome.returns_bind_done, Outcome.returns_mapM, Outcome.returns_mapM,
      and_iff_left (by simp [ha])]
    refine forall₂_congr fun s _ => ?_
    rw [Outcome.returns_bind_of_forall fun values _ => hrows s _ _,
      Outcome.returns_bind_of_forall fun _ _ => Iff.rfl]
  · rw [readLines, ht, Outcome.done_bind, Outcome.done_bind, bind_assoc,
      Outcome.returns_bind_of_forall (P := (layout t >>= fun tables =>
        tables.mapM fun table => c.time table.set).Returns), and_comm,
      imp_iff_right (by simpa using ha)]
    intro header _
    rw [bind_assoc, Outcome.returns_bind, Outcome.returns_bind]
    refine exists_congr fun tables => and_congr_right fun _ => ?_
    rw [Outcome.done_bind, sheetOf, Outcome.returns_bind_done, Outcome.returns_mapM,
      Outcome.returns_mapM]
    exact forall₂_congr fun table _ => hrows table.set _ _

omit [Zero V] [Sub V] [Mul V] [Div V] [IntCast V] in
theorem foldlM_addRow {energy : List V} {rows : List (List (ℕ × V))}
    (h : ∀ row ∈ rows, row.length ≤ energy.length) :
    ∃ energy', rows.foldlM addRow energy = .done energy' ∧ energy'.length = energy.length := by
  obtain ⟨energy', h', hlen, _⟩ := Outcome.foldlM_rule
    (fun (acc : List V) rest => acc.length = energy.length ∧
      ∀ row ∈ rest, row.length ≤ energy.length) (f := addRow) (s := energy) (l := rows)
    (by
      rintro acc row rest ⟨hacc, hrest⟩
      have hrow := hrest row (by simp)
      refine ⟨_, if_neg (by omega), ?_, fun r hr => hrest r (by simp [hr])⟩
      simp only [List.length_append, List.length_zipWith, List.length_map, List.length_drop]
      omega)
    ⟨rfl, h⟩
  exact ⟨energy', h', hlen⟩

theorem energySets_returns {header : List ℕ} {tables : List (SetTable V)} {energy : List V}
    (hh : header.length ≤ energy.length)
    (hrows : ∀ table ∈ tables, ∀ row ∈ table.rows, row.length ≤ energy.length) :
    (energySets c header energy tables).Returns ↔
      ∀ table ∈ tables, (c.time table.set).Returns := by
  induction tables generalizing energy with
  | nil => simp [energySets]
  | cons table tables ih =>
    obtain ⟨energy', h', hlen⟩ := foldlM_addRow (hrows table (by simp))
    rw [energySets, energySet, h', Outcome.returns_bind_of_forall (P :=
      ∀ table ∈ tables, (c.time table.set).Returns), Outcome.returns_bind_of_forall (P := True)
        fun _ _ => by rw [Outcome.done_bind, if_neg (by omega)]; simp]
    · simp
    · intro r hr
      obtain ⟨time, _, hr⟩ := Outcome.bind_eq_done.mp hr
      rw [Outcome.done_bind, if_neg (by omega)] at hr
      have hr₁ : r.1.length = energy.length := by
        rw [← Outcome.done.inj hr]
        simp only [List.length_append, List.length_map, List.length_take, List.length_drop]
        omega
      rw [Outcome.returns_bind_done]
      exact ih (by omega) fun t ht row hrow => by
        have := hrows t (by simp [ht]) row hrow
        omega

omit [Zero V] [Add V] [Sub V] [Mul V] [Div V] [IntCast V] in
theorem stridedTables_rows {e : GetReply V} {t : SelectionTables} {set : ℤ}
    {tables : List (SetTable V)} (h : stridedTables e set t = .done tables) :
    ∀ table ∈ tables, ∀ row ∈ table.rows, row.length = t.nLinesPrint := by
  obtain ⟨interval, _, h⟩ := Outcome.bind_eq_done.mp h
  intro table htable row hrow
  obtain ⟨s, _, hs⟩ := Outcome.exists_of_mem_mapM h htable
  obtain ⟨ini, _, hs⟩ := Outcome.bind_eq_done.mp hs
  obtain ⟨fin, _, hs⟩ := Outcome.bind_eq_done.mp hs
  obtain ⟨rows, hrows, hs⟩ := Outcome.bind_eq_done.mp hs
  obtain rfl := Outcome.done.inj hs
  obtain ⟨i, _, hi⟩ := Outcome.exists_of_mem_mapM hrows hrow
  have hlen := (Outcome.mapM_eq_done.mp hi).length_eq
  rw [List.length_range] at hlen
  exact hlen.symm

/-- The loop over the sets when only the aggregate was measured: it assigns the time and
adds to the accumulator in every pass. -/
def aggregatePass (c : CounterT V) (state : Option V × V) (s : ℤ) : Outcome (Option V × V) := do
  let values ← aggregateValues c.energy s
  let time ← c.time s
  .done (some time, values.2.foldl (· + ·) state.2 / (values.1 : V))

omit [Zero V] [Mul V] in
theorem aggregatePass_time {ss : List ℤ} {state last : Option V × V}
    (h : ss.foldlM (aggregatePass c) state = .done last) :
    last.1.isSome = true ↔ ss ≠ [] ∨ state.1.isSome = true := by
  induction ss generalizing state with
  | nil =>
    obtain rfl := Outcome.done.inj h
    simp
  | cons s ss ih =>
    rw [List.foldlM_cons] at h
    obtain ⟨next, hnext, h⟩ := Outcome.bind_eq_done.mp h
    obtain ⟨values, _, hnext⟩ := Outcome.bind_eq_done.mp hnext
    obtain ⟨time, _, hnext⟩ := Outcome.bind_eq_done.mp hnext
    rw [ih h, ← Outcome.done.inj hnext]
    simp

theorem aggregateEnergy_returns {set : ℤ} : (aggregateEnergy c set).Returns ↔
    ((setRange c.energy set).mapM fun s => do
      let _ ← aggregateValues c.energy s
      c.time s).Returns ∧ setRange c.energy set ≠ [] := by
  have hloop : aggregateEnergy c set = ((setRange c.energy set).foldlM (aggregatePass c)
      (none, 0) >>= fun last => do
        let time ← Outcome.ofOption last.1
        .done (some (.aggregate time last.2 (time * last.2)))) := rfl
  rw [hloop, Outcome.returns_bind_of_forall (P := setRange c.energy set ≠ []),
    Outcome.returns_foldlM (P := fun s =>
      (aggregateValues c.energy s >>= fun _ => c.time s).Returns), Outcome.returns_mapM]
  · intro s _ state
    rw [aggregatePass, Outcome.returns_bind, Outcome.returns_bind]
    exact exists_congr fun _ => and_congr_right fun _ => Outcome.returns_bind_done
  · intro last hlast
    rw [Outcome.returns_bind_done, Outcome.returns_ofOption, aggregatePass_time hlast]
    simp

/-- The energy function reports when its loops read what they need, the header has its lines
and, if only the aggregate was measured, there is a set. -/
theorem pmCalculateEnergy_returns {accumulators : ℕ} {set : ℤ} {t : SelectionTables}
    (ht : selectionTables c.lines sel c.energy.linesLen = .done t)
    (hroom : t.nLinesPrint ≤ accumulators) (hr : setRefused c.energy set = false) :
    (pmCalculateEnergy accumulators c sel set).Returns ↔
      (loopReads c sel set (stridedTables c.energy set)).Returns ∧
        (c.aggregate = true → setRange c.energy set ≠ []) ∧
        (c.aggregate = false → (headerLines t).Returns) := by
  unfold pmCalculateEnergy loopReads
  rw [if_neg (by simp [hr])]
  split_ifs with ha
  · rw [aggregateEnergy_returns]
    simp [ha]
  · rw [readLines, ht, Outcome.done_bind, Outcome.done_bind, bind_assoc,
      Outcome.returns_bind_of_forall (P := (stridedTables c.energy set t >>= fun tables =>
        tables.mapM fun table => c.time table.set).Returns)]
    · simp [ha, and_comm]
    intro header hheader
    rw [bind_assoc, Outcome.returns_bind, Outcome.returns_bind]
    refine exists_congr fun tables => and_congr_right fun htables => ?_
    have hlen : header.length = t.nLinesPrint := by
      have := (Outcome.mapM_eq_done.mp hheader).length_eq
      rw [List.length_range] at this
      exact this.symm
    rw [Outcome.done_bind, energyOf, Outcome.returns_bind_done, energySets_returns,
      Outcome.returns_mapM]
    · rw [List.length_replicate]
      exact hlen.trans_le hroom
    · intro table htable row hrow
      rw [List.length_replicate]
      exact (stridedTables_rows htables table htable row hrow).trans_le hroom

theorem CounterT.Holds.paraverTimes_returns (h : c.Holds nLines sizes) (unit : TimeUnit)
    (set : ℤ) : (paraverTimes unit c set).Returns ↔ ValidSet sizes.length set := by
  rw [paraverTimes]
  split_ifs with hall
  · subst hall
    refine iff_of_true ?_ (.inl rfl)
    simp only [h.announces.wholeInterval_eq, Outcome.done_bind, Outcome.returns_bind_done]
    rw [h.totalTime_returns, h.nextTiming]
  · simp only [Outcome.done_bind]
    rw [Outcome.returns_bind_of_forall fun _ _ =>
        Outcome.returns_bind_of_forall (P := (Counter.readAt c.energy.wattsSets set).Returns)
          fun _ _ => Outcome.returns_bind_done,
      h.time_returns, and_comm (a := (Counter.readAt c.energy.wattsSets (set + 1)).Returns),
      h.announces.returns_bounds, and_self, ValidSet, or_iff_right hall]

omit [Mul V] [Div V] [IntCast V] in
theorem CounterT.Holds.paraverStart_returns (h : c.Holds nLines sizes) (set : ℤ) :
    (paraverStart c set).Returns ↔ (set ≠ -1 → set * 2 ≤ sizes.length) := by
  rw [paraverStart]
  split_ifs with hall
  · exact iff_of_true (Outcome.returns_done 0) fun h => absurd hall h
  · rw [h.totalTime_returns, imp_iff_right hall]

/-- The Paraver printer reads within the arrays for existing sets only, and only while the
entries that it adds up for the start are there. -/
theorem CounterT.Holds.paraver_returns (h : c.Holds nLines sizes) (unit : TimeUnit) (set : ℤ) :
    (pmPrintDataParaver unit c sel set).Returns ↔ ValidSet sizes.length set ∧
      LinesRead c sel nLines sizes set ∧ (set ≠ -1 → set * 2 ≤ sizes.length) := by
  have hrefused : ValidSet sizes.length set → ¬ setRefused c.energy set = true := by
    intro hset
    rw [h.announces.setRefused_eq hset]
    exact Bool.false_ne_true
  rw [pmPrintDataParaver, Outcome.returns_bind_of_forall (P := ValidSet sizes.length set →
    LinesRead c sel nLines sizes set ∧ (set ≠ -1 → set * 2 ≤ sizes.length)),
    h.paraverTimes_returns]
  · exact and_congr_right fun hset => imp_iff_right hset
  · intro times htimes
    have hset := (h.paraverTimes_returns unit set).mp ⟨times, htimes⟩
    rw [if_neg (hrefused hset), imp_iff_right hset]
    by_cases ha : c.aggregate = true
    · rw [if_pos ha, aggregateParaver, Outcome.returns_bind_of_forall fun _ _ =>
        Outcome.returns_bind_done, h.paraverStart_returns, Outcome.returns_mapM,
        h.aggregate_returns, linesRead_iff_sums ha]
      tauto
    · have ha' : c.aggregate = false := by simpa using ha
      obtain ⟨t, ht, hspec⟩ := CounterT.Holds.exists_tables h.linesLen sel
      have hwrites : ∀ tables : List (SetTable V), (paraverOf c set times tables).Returns ↔
          (set ≠ -1 → set * 2 ≤ sizes.length) := by
        intro tables
        rw [paraverOf, Outcome.returns_bind_done, h.paraverStart_returns]
      rw [if_neg ha, ht, Outcome.done_bind, Outcome.returns_bind_of_forall fun tables _ =>
        hwrites tables, hspec.strided_returns h.announces, linesRead_iff ha', and_iff_right hset]

end functions

/-- A call returns an error or reads within the arrays, and it returns an error for every
argument that names no set. -/
structure SetChecked {α β : Type} (count : ℕ) (set : ℤ) (returned : Outcome (Option α))
    (reads : Outcome β) : Prop where
  safe : returned = .done none ∨ reads.Returns
  refused : ¬ ValidSet count set → returned = .done none

theorem setChecked_iff {α β : Type} {e : GetReply V} {sizes : List ℕ} (h : Announces sizes e)
    {set : ℤ} {returned : Outcome (Option α)} {reads : Outcome β} {P : Prop}
    (hnone : returned = .done none ↔ setRefused e set = true)
    (hreads : reads.Returns ↔ ValidSet sizes.length set ∧ P) :
    SetChecked sizes.length set returned reads ↔
      set ≠ sizes.length ∧ (ValidSet sizes.length set → P) := by
  have hrefused := hnone.trans (setRefused_iff h set)
  constructor
  · rintro ⟨hsafe, hret⟩
    refine ⟨?_, fun hset => ?_⟩
    · rintro rfl
      have := hrefused.mp (hret (by unfold ValidSet; omega))
      omega
    · rcases hsafe with hr | hr
      · have := hrefused.mp hr
        unfold ValidSet at hset
        omega
      · exact (hreads.mp hr).2
  · rintro ⟨hne, hP⟩
    by_cases hset : ValidSet sizes.length set
    · exact ⟨.inr (hreads.mpr ⟨hset, hP hset⟩), fun hn => absurd hset hn⟩
    · have hr : returned = .done none := by
        refine hrefused.mpr ?_
        unfold ValidSet at hset
        omega
      exact ⟨.inl hr, fun _ => hr⟩

section checked

variable [Zero V] [Add V] [Sub V] [Mul V] [Div V] [IntCast V] {c : CounterT V} {nLines : ℕ}
  {sizes : List ℕ}

/-- When each of the five functions checks its argument. -/
theorem set_checked_iff (h : c.Holds nLines sizes) (sel : LineT) (set : ℤ) (unit : TimeUnit)
    (accumulators : ℕ) :
    (SetChecked sizes.length set (pmPrintDataCsv c sel set)
        (loopReads c sel set (stridedTables c.energy set)) ↔
      set ≠ sizes.length ∧ (ValidSet sizes.length set → LinesRead c sel nLines sizes set)) ∧
    (SetChecked sizes.length set (pmPrintDataStdout c sel set)
        (loopReads c sel set (stridedTables c.energy set)) ↔
      set ≠ sizes.length ∧ (ValidSet sizes.length set → LinesRead c sel nLines sizes set)) ∧
    (SetChecked sizes.length set (pmCalculateEnergy accumulators c sel set)
        (loopReads c sel set (stridedTables c.energy set)) ↔
      set ≠ sizes.length ∧ (ValidSet sizes.length set → LinesRead c sel nLines sizes set)) ∧
    (SetChecked sizes.length set (pmPrintDataText c sel set)
        (loopReads c sel set (textTables c.energy set)) ↔
      set ≠ sizes.length ∧ (ValidSet sizes.length set → TextRead c sel nLines sizes set)) ∧
    (SetChecked sizes.length set (pmPrintDataParaver unit c sel set)
        (pmPrintDataParaver unit c sel set) ↔
      ValidSet sizes.length set ∧ LinesRead c sel nLines sizes set ∧
        (set ≠ -1 → set * 2 ≤ sizes.length)) := by
  refine ⟨setChecked_iff h.announces printSheet_eq_none (h.loopReads_strided set),
    setChecked_iff h.announces printSheet_eq_none (h.loopReads_strided set),
    setChecked_iff h.announces pmCalculateEnergy_eq_none (h.loopReads_strided set),
    setChecked_iff h.announces printSheet_eq_none (h.loopReads_text set), ?_⟩
  rw [← h.paraver_returns unit set]
  constructor
  · rintro ⟨hr | hr, _⟩
    · exact ⟨none, hr⟩
    · exact hr
  · intro hr
    exact ⟨.inr hr, fun hset => absurd ((h.paraver_returns unit set).mp hr).1 hset⟩

end checked

def twoSetsReply : GetReply ℤ := ⟨2, 3, 1, [0, 1, 2], [1, 3]⟩

theorem twoSetsReply_holds : (holding firstLine twoSetsReply).Holds 1 [1, 1] where
  announces := ⟨by decide, by decide⟩
  linesLen := by decide
  wattsSize := rfl
  nextTiming := rfl
  timing := rfl
  written := by decide

/-- Two lines, two sets of which two samples are announced for each line and one is sent. -/
def shortReply : GetReply ℤ := ⟨4, 3, 2, [0, 2, 4], [1, 2, 3, 4]⟩

theorem shortReply_holds : (holding firstTwoLines shortReply).Holds 2 [2, 2] where
  announces := ⟨by decide, by decide⟩
  linesLen := by decide
  wattsSize := rfl
  nextTiming := rfl
  timing := rfl
  written := by decide

theorem set_checked_shortReply :
    SetChecked 2 1 (pmPrintDataCsv (holding firstTwoLines shortReply) firstLine 1)
      (loopReads (holding firstTwoLines shortReply) firstLine 1 (stridedTables shortReply 1)) ∧
    SetChecked 2 1 (pmPrintDataText (holding firstTwoLines shortReply) firstLine 1)
      (loopReads (holding firstTwoLines shortReply) firstLine 1 (textTables shortReply 1)) ∧
    SetChecked 2 1 (pmPrintDataParaver .ns (holding firstTwoLines shortReply) firstLine 1)
      (pmPrintDataParaver .ns (holding firstTwoLines shortReply) firstLine 1) := by
  have hiff := set_checked_iff shortReply_holds firstLine 1 .ns 1
  have hlines : LinesRead (holding firstTwoLines shortReply) firstLine 2 [2, 2] 1 :=
    fun s hs _ => ⟨.inl (by decide), by
      obtain rfl : s = 1 := List.mem_singleton.mp hs
      unfold StridedRoom
      decide⟩
  have htext : TextRead (holding firstTwoLines shortReply) firstLine 2 [2, 2] 1 :=
    fun s hs _ => ⟨.inl (by decide), by
      obtain rfl : s = 1 := List.mem_singleton.mp hs
      unfold TextRoom
      decide⟩
  exact ⟨hiff.1.mpr ⟨by decide, fun _ => hlines⟩, hiff.2.2.2.1.mpr ⟨by decide, fun _ => htext⟩,
    hiff.2.2.2.2.mpr ⟨.inr (by decide), hlines, by decide⟩⟩

/-- There is no set 2, and no set -2; and of the second line nothing has been sent where the
stride looks for it. -/
theorem set_checked_fails :
    ¬ SetChecked 2 2 (pmPrintDataCsv (holding firstLine twoSetsReply) firstLine 2)
      (loopReads (holding firstLine twoSetsReply) firstLine 2 (stridedTables twoSetsReply 2)) ∧
    ¬ SetChecked 2 2 (pmPrintDataStdout (holding firstLine twoSetsReply) firstLine 2)
      (loopReads (holding firstLine twoSetsReply) firstLine 2 (stridedTables twoSetsReply 2)) ∧
    ¬ SetChecked 2 2 (pmCalculateEnergy 1 (holding firstLine twoSetsReply) firstLine 2)
      (loopReads (holding firstLine twoSetsReply) firstLine 2 (stridedTables twoSetsReply 2)) ∧
    ¬ SetChecked 2 2 (pmPrintDataText (holding firstLine twoSetsReply) firstLine 2)
      (loopReads (holding firstLine twoSetsReply) firstLine 2 (textTables twoSetsReply 2)) ∧
    ¬ SetChecked 2 (-2) (pmPrintDataParaver .ns (holding firstLine twoSetsReply) firstLine (-2))
      (pmPrintDataParaver .ns (holding firstLine twoSetsReply) firstLine (-2)) ∧
    ¬ SetChecked 2 (-1) (pmPrintDataCsv (holding firstTwoLines shortReply) firstTwoLines (-1))
      (loopReads (holding firstTwoLines shortReply) firstTwoLines (-1)
        (stridedTables shortReply (-1))) := by
  have hinvalid : ¬ ValidSet 2 2 ∧ ¬ ValidSet 2 (-2) := by
    unfold ValidSet
    decide
  refine ⟨fun h => ?_, fun h => ?_, fun h => ?_, fun h => ?_, fun h => ?_, fun h => ?_⟩
  · exact absurd (h.refused hinvalid.1) (by decide +kernel)
  · exact absurd (h.refused hinvalid.1) (by decide +kernel)
  · exact absurd (h.refused hinvalid.1) (by decide +kernel)
  · exact absurd (h.refused hinvalid.1) (by decide +kernel)
  · exact absurd (h.refused hinvalid.2) (by decide +kernel)
  · have hundefined : loopReads (holding firstTwoLines shortReply) firstTwoLines (-1)
        (stridedTables shortReply (-1)) = .undefined := by
      decide +kernel
    rcases h.safe with hr | ⟨tables, hr⟩
    · exact absurd hr (by decide +kernel)
    · rw [hundefined] at hr
      cases hr

end PMLib
