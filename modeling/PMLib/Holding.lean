import PMLib.Printed

/-! # Reading a reply that a client holds

The arrays are those of one reply and of the times of its sets, so that a read that returns
is a read inside them. -/
namespace PMLib

variable {V : Type}

/-- A counter holds a reply that announces sets of the given sizes, on the lines of its mask
that the device has. How many values came with it is another matter. Its `timing` ends with
the times of these sets. -/
structure CounterT.Holds (c : CounterT V) (nLines : ℕ) (sizes : List ℕ) : Prop where
  announces : Announces sizes c.energy
  linesLen : c.energy.linesLen = (c.lines.lines nLines).length
  wattsSize : c.energy.wattsSize = c.energy.watts.length
  nextTiming : c.nextTiming = sizes.length
  timing : c.timing.length = 2 * sizes.length
  written : ∀ entry ∈ c.timing, entry.isSome = true

/-- Every selected line of the mask was measured, or all measured lines are selected. -/
def LineT.Fills (m sel : LineT) (nLines : ℕ) : Prop :=
  (sel.and m).lines 128 = (sel.and m).lines nLines ∨ (sel.and m).lines nLines = m.lines nLines

namespace LineT

variable {m sel : LineT} {nLines : ℕ}

theorem fills_iff (m sel : LineT) (nLines : ℕ) :
    m.Fills sel nLines ↔ min ((sel.and m).lines 128).length (m.lines nLines).length =
      ((sel.and m).lines nLines).length := by
  have hpre := (sel.and m).lines_isPrefix_all nLines
  have hsub := lines_sublist_of_and m sel nLines
  have hcounted := hpre.length_le
  have hmeasured := hsub.length_le
  constructor
  · rintro (h | h)
    · rw [h]
      omega
    · rw [← h]
      omega
  · intro h
    by_cases hle : ((sel.and m).lines 128).length ≤ (m.lines nLines).length
    · exact .inl (hpre.eq_of_length (by omega)).symm
    · exact .inr (hsub.eq_of_length (by omega))

end LineT

def countedLines (m sel : LineT) (nLines : ℕ) : ℕ :=
  if (sel.and m).lines nLines = m.lines nLines then (m.lines nLines).length
  else (m.lines 128).length

theorem Counter.returns_readAt {data : List V} {idx : ℤ} :
    (Counter.readAt data idx).Returns ↔ 0 ≤ idx ∧ idx < data.length := by
  unfold Counter.readAt
  split_ifs with h
  · rw [Outcome.returns_ofOption, isSome_getElem?]
    omega
  · simp [h]

section sets

variable {e : GetReply V} {sizes : List ℕ}

theorem Announces.returns_bounds (h : Announces sizes e) {s : ℤ} :
    ((Counter.readAt e.wattsSets s).Returns ∧ (Counter.readAt e.wattsSets (s + 1)).Returns) ↔
      0 ≤ s ∧ s < sizes.length := by
  have hlen : e.wattsSets.length = sizes.length + 1 := by
    rw [h.wattsSets, List.length_map, List.length_scanl]
  rw [Counter.returns_readAt, Counter.returns_readAt, hlen]
  omega

theorem before_add_getD_le (sizes : List ℕ) (s : ℕ) :
    before sizes s + sizes.getD s 0 ≤ sizes.sum := by
  by_cases hs : s < sizes.length
  · rw [List.getD_eq_getElem?_getD, List.getElem?_eq_getElem hs]
    exact before_add_le (List.getElem?_eq_getElem hs)
  · rw [List.getD_eq_getElem?_getD, List.getElem?_eq_none (by omega)]
    exact before_le sizes s

/-- The last value of a set is the one that may be missing. -/
theorem Announces.aggregateValues_returns (h : Announces sizes e) {s : ℕ}
    (hs : s < sizes.length) : (aggregateValues e s).Returns ↔
      (0 < sizes.getD s 0 → before sizes s + sizes.getD s 0 ≤ e.watts.length) := by
  rw [aggregateValues, h.read_bounds hs, bounds_sub, Int.toNat_natCast,
    Outcome.returns_bind_done, Outcome.returns_mapM]
  simp only [List.mem_range, Counter.returns_readAt]
  constructor
  · intro hall hpos
    have := hall (sizes.getD s 0 - 1) (by omega)
    omega
  · intro hroom i hi
    have := hroom (Nat.zero_lt_of_lt hi)
    omega

theorem Announces.read_no_bounds {α : Type} (h : Announces sizes e) {s : ℤ}
    (hs : ¬ (0 ≤ s ∧ s < sizes.length)) (f : ℤ → ℤ → Outcome α) : ¬ (do
      let ini ← Counter.readAt e.wattsSets s
      let fin ← Counter.readAt e.wattsSets (s + 1)
      f ini fin).Returns := by
  intro hr
  obtain ⟨ini, hini, hr⟩ := Outcome.returns_bind.mp hr
  exact hs (h.returns_bounds.mp ⟨⟨ini, hini⟩, hr.of_bind⟩)

end sets

theorem rowAt_returns (e : GetReply V) {t : SelectionTables}
    (hle : t.entries.length ≤ t.nLinesPrint) (index : ℤ → ℤ) :
    (rowAt e t index).Returns ↔ t.nLinesPrint = t.entries.length ∧
      ∀ entry ∈ t.entries, (Counter.readAt e.watts (index entry.1)).Returns := by
  by_cases hfull : t.nLinesPrint = t.entries.length
  · rw [rowAt_eq e hfull, Outcome.returns_mapM]
    simp [hfull]
  · refine iff_of_false ?_ fun h => hfull h.1
    rw [rowAt, Outcome.returns_mapM]
    intro h
    have hlast := (h t.entries.length (List.mem_range.mpr (by omega))).of_bind
    simp at hlast

namespace CounterT.Holds

variable {c : CounterT V} {nLines : ℕ} {sizes : List ℕ}

theorem timingAt_returns (h : c.Holds nLines sizes) (i : ℤ) :
    (c.timingAt i).Returns ↔ 0 ≤ i ∧ i < 2 * sizes.length := by
  have hread : (Counter.readAt c.timing i).Returns ↔ 0 ≤ i ∧ i < c.timing.length :=
    Counter.returns_readAt
  rw [h.timing] at hread
  rw [CounterT.timingAt, Outcome.returns_bind_of_forall (P := True), and_true, hread]
  · push_cast
    exact Iff.rfl
  · intro entry hentry
    rw [Counter.readAt] at hentry
    split_ifs at hentry
    exact iff_of_true (Outcome.returns_ofOption.mpr
      (h.written entry (List.mem_of_getElem? (Outcome.ofOption_eq_done.mp hentry)))) trivial

theorem time_returns [Sub V] (h : c.Holds nLines sizes) (s : ℤ) :
    (c.time s).Returns ↔ 0 ≤ s ∧ s < sizes.length := by
  rw [CounterT.time, Outcome.returns_bind_of_forall (P := (c.timingAt (s * 2)).Returns)
    fun _ _ => Outcome.returns_bind_done, h.timingAt_returns, h.timingAt_returns]
  omega

theorem totalTime_returns [Zero V] [Add V] [Sub V] (h : c.Holds nLines sizes) (n : ℤ) :
    (c.totalTime n).Returns ↔ n ≤ sizes.length := by
  rw [CounterT.totalTime, Outcome.returns_foldlM (P := fun i : ℕ => i < sizes.length)]
  · constructor
    · intro hall
      by_contra hn
      have := hall sizes.length (List.mem_range.mpr (by omega))
      omega
    · intro hn i hi
      rw [List.mem_range] at hi
      omega
  · intro i _ tot
    rw [Outcome.returns_bind_done, h.time_returns]
    omega

structure Tables (c : CounterT V) (sel : LineT) (nLines : ℕ) (t : SelectionTables) : Prop where
  entries : t.entries = ((sel.and c.lines).lines nLines).map fun l => (c.lines.rank l, l)
  room : t.entries.length ≤ t.nLinesPrint
  filled : t.nLinesPrint = t.entries.length ↔ c.lines.Fills sel nLines
  counted : c.lines.Fills sel nLines → t.nLinesCounter = countedLines c.lines sel nLines

theorem exists_tables (h : c.energy.linesLen = (c.lines.lines nLines).length) (sel : LineT) : ∃ t,
    selectionTables c.lines sel c.energy.linesLen = .done t ∧ Tables c sel nLines t := by
  obtain ⟨counter, ht, hall, hsome⟩ := selectionTables_spec c.lines sel nLines
  have hsub := LineT.lines_sublist_of_and c.lines sel nLines
  have hpre := ((sel.and c.lines).lines_isPrefix_all nLines).length_le
  have hfill := LineT.fills_iff c.lines sel nLines
  refine ⟨_, by rw [h, ht], rfl, ?_, ?_, fun hfills => ?_⟩
  · rw [List.length_map]
    exact Nat.le_min.mpr ⟨hpre, hsub.length_le⟩
  · rw [List.length_map]
    exact hfill.symm
  · unfold countedLines
    split_ifs with hne
    · exact hall (by rw [hne])
    have hlt : ((sel.and c.lines).lines nLines).length < (c.lines.lines nLines).length :=
      Nat.lt_of_le_of_ne hsub.length_le fun heq => hne (hsub.eq_of_length heq)
    have := hfill.mp hfills
    exact hsome (by omega)

end CounterT.Holds

/-! ## What the stride reads -/

section room

variable {m sel : LineT} {nLines : ℕ} {sizes : List ℕ}

/-- All the values are there that the stride reads of set `s` on the printed lines. -/
def StridedRoom (m sel : LineT) (nLines : ℕ) (r : GetReply V) (sizes : List ℕ) (s : ℕ) : Prop :=
  ∀ l ∈ (sel.and m).lines nLines,
    before sizes s + sizes.getD s 0 + sizes.sum * m.rank l ≤ r.watts.length

end room

section strided

variable [Zero V] {m sel : LineT} {nLines : ℕ} {sizes : List ℕ}

def rowsTable (printed : List ℕ) (rows : ℕ → List (ℕ → V)) (s : ℕ) : SetTable V :=
  ⟨s, (rows s).length, (rows s).map fun x => printed.map fun l => (l, x l)⟩

def block (watts : List V) (start n : ℕ) : List V :=
  (List.range n).map fun i => watts.getD (start + i) 0

def stridedRows (m : LineT) (r : GetReply V) (sizes : List ℕ) (s : ℕ) : List (ℕ → V) :=
  (List.range (sizes.getD s 0)).map fun i l =>
    r.watts.getD (before sizes s + i + sizes.sum * m.rank l) 0

@[simp] theorem length_block (watts : List V) (start n : ℕ) :
    (block watts start n).length = n := by
  simp [block]

theorem block_eq_slice {watts : List V} {start n : ℕ} (h : start + n ≤ watts.length) :
    block watts start n = (watts.drop start).take n := by
  apply List.ext_getElem?
  intro i
  rw [block, List.getElem?_map, List.getElem?_take, List.getElem?_drop]
  by_cases hi : i < n
  · rw [List.getElem?_range hi, Option.map_some, if_pos hi, List.getD_eq_getElem?_getD,
      List.getElem?_eq_getElem (show start + i < watts.length by omega)]
    rfl
  · rw [List.getElem?_eq_none (by simpa using hi), if_neg hi]
    rfl

theorem mapM_readAt_block {watts : List V} {start n : ℕ}
    (h : 0 < n → start + n ≤ watts.length) :
    ((List.range n).mapM fun i : ℕ => Counter.readAt watts ((start : ℤ) + i)) =
      .done (block watts start n) := by
  refine Outcome.mapM_eq_map fun i hi => ?_
  have hi := List.mem_range.mp hi
  have hlt : start + i < watts.length := by
    have := h (Nat.zero_lt_of_lt hi)
    omega
  rw [← Nat.cast_add, Counter.readAt, if_pos (Int.natCast_nonneg _), Int.toNat_natCast,
    List.getD_eq_getElem?_getD, List.getElem?_eq_getElem hlt]
  rfl

theorem Announces.aggregateValues_eq {r : GetReply V} (h : Announces sizes r) {s : ℕ}
    (hs : s < sizes.length)
    (hroom : 0 < sizes.getD s 0 → before sizes s + sizes.getD s 0 ≤ r.watts.length) :
    aggregateValues r s =
      .done ((sizes.getD s 0 : ℤ), block r.watts (before sizes s) (sizes.getD s 0)) := by
  rw [aggregateValues, h.read_bounds hs, bounds_sub, Int.toNat_natCast, mapM_readAt_block hroom,
    Outcome.done_bind]

@[simp] theorem length_stridedRows (m : LineT) (r : GetReply V) (sizes : List ℕ) (s : ℕ) :
    (stridedRows m r sizes s).length = sizes.getD s 0 := by
  simp [stridedRows]

theorem readings_stridedRows (m : LineT) (r : GetReply V) (sizes : List ℕ) (s l : ℕ) :
    readings l (stridedRows m r sizes s) =
      block r.watts (before sizes s + sizes.sum * m.rank l) (sizes.getD s 0) := by
  rw [readings, stridedRows, block, List.map_map]
  refine List.map_congr_left fun i _ => ?_
  rw [Function.comp_apply, Nat.add_right_comm]

theorem tableAt_strided {r : GetReply V} {s : ℕ}
    (hroom : 0 < sizes.getD s 0 → StridedRoom m sel nLines r sizes s) :
    tableAt r (tablesOf m sel nLines).entries sizes (stridedIndex sizes) s =
      .done (rowsTable ((sel.and m).lines nLines) (stridedRows m r sizes) s) := by
  have hread : ∀ i < sizes.getD s 0, ∀ l ∈ (sel.and m).lines nLines,
      Counter.readAt r.watts (stridedIndex sizes s i (m.rank l)) =
        .done (r.watts.getD (before sizes s + i + sizes.sum * m.rank l) 0) := by
    intro i hi l hl
    have hlast := hroom (Nat.zero_lt_of_lt hi) l hl
    have hlt : before sizes s + i + sizes.sum * m.rank l < r.watts.length := by omega
    have hindex : stridedIndex sizes s i (m.rank l) =
        ((before sizes s + i + sizes.sum * m.rank l : ℕ) : ℤ) := by
      rw [stridedIndex]
      push_cast
      ring
    rw [hindex, Counter.readAt, if_pos (Int.natCast_nonneg _), Int.toNat_natCast,
      List.getD_eq_getElem?_getD, List.getElem?_eq_getElem hlt]
    rfl
  rw [tableAt, rowsTable, stridedRows, List.length_map, List.length_range, tablesOf,
    Outcome.mapM_eq_map (g := fun i => ((sel.and m).lines nLines).map fun l =>
      (l, r.watts.getD (before sizes s + i + sizes.sum * m.rank l) 0)), Outcome.done_bind,
    List.map_map]
  · rfl
  · intro i hi
    rw [List.mapM_map]
    refine Outcome.mapM_eq_map fun l hl => ?_
    rw [Function.comp_apply, hread i (List.mem_range.mp hi) l hl, Outcome.done_bind]

theorem Announces.stridedTables_eq_rows {r : GetReply V} (h : Announces sizes r) {set : ℤ}
    (hset : ValidSet sizes.length set)
    (hroom : ∀ s ∈ setIndices sizes.length set, 0 < sizes.getD s 0 →
      StridedRoom m sel nLines r sizes s) :
    stridedTables r set (tablesOf m sel nLines) = .done ((setIndices sizes.length set).map
      (rowsTable ((sel.and m).lines nLines) (stridedRows m r sizes))) := by
  rw [h.stridedTables_eq hset (tablesOf_length m sel nLines)]
  exact Outcome.mapM_eq_map fun s hs => tableAt_strided (hroom s hs)

end strided

end PMLib
