import PMLib.LineMask

/-! # The line tables of the printers

Two loops over the bits of a mask find which lines are printed, and where each of them
stands among the measured lines. The reply says how many lines the server has measured. -/
namespace PMLib

/-- `n_lines_print` and `n_lines_counter` with the filled entries of `ind_print` and
`ind_lines`, both of which have room for `n_lines_print`. -/
structure SelectionTables where
  nLinesPrint : ℕ
  nLinesCounter : ℕ
  entries : List (ℕ × ℕ)
  deriving DecidableEq, Repr

def nLineBits : ℕ := 128

def countLines (pLines counterLines : LineT) (linesLen : ℤ) :
    (n i nLinesPrint nLinesCounter : ℕ) → ℕ × ℕ
  | 0, _, nLinesPrint, nLinesCounter => (nLinesPrint, nLinesCounter)
  | n + 1, i, nLinesPrint, nLinesCounter =>
    if nLinesPrint < linesLen then
      countLines pLines counterLines linesLen n (i + 1)
        (if pLines.isSet i then nLinesPrint + 1 else nLinesPrint)
        (if counterLines.isSet i then nLinesCounter + 1 else nLinesCounter)
    else (nLinesPrint, nLinesCounter)

def fillTables (pLines counterLines : LineT) (linesLen : ℤ) (nLinesPrint : ℕ) :
    (n i j : ℕ) → List (ℕ × ℕ) → Outcome (List (ℕ × ℕ))
  | 0, _, _, entries => .done entries
  | n + 1, i, j, entries =>
    if j < linesLen then
      if pLines.isSet i && counterLines.isSet i then
        if entries.length < nLinesPrint then
          fillTables pLines counterLines linesLen nLinesPrint n (i + 1) (j + 1)
            (entries ++ [(j, i)])
        else .undefined
      else if !pLines.isSet i && counterLines.isSet i then
        fillTables pLines counterLines linesLen nLinesPrint n (i + 1) (j + 1) entries
      else fillTables pLines counterLines linesLen nLinesPrint n (i + 1) j entries
    else .done entries

def selectionTables (counterLines lines : LineT) (linesLen : ℤ) : Outcome SelectionTables := do
  let pLines := lines.and counterLines
  let counts := countLines pLines counterLines linesLen nLineBits 0 0 0
  let entries ← fillTables pLines counterLines linesLen counts.1 nLineBits 0 0 []
  .done ⟨counts.1, counts.2, entries⟩

namespace LineT

variable {m p : LineT}

theorem lines_zero (m : LineT) : m.lines 0 = [] := by simp [lines]

theorem lines_succ (m : LineT) {i : ℕ} (hi : i < 128) :
    m.lines (i + 1) = m.lines i ++ if m.isSet i then [i] else [] := by
  have h₁ : min (i + 1) 128 = i + 1 := by omega
  have h₂ : min i 128 = i := by omega
  rw [lines, lines, h₁, h₂, List.range_succ, List.filter_append]
  by_cases h : m.isSet i <;> simp [h]

theorem lines_min (m : LineT) (nLines : ℕ) : m.lines (min nLines 128) = m.lines nLines := by
  simp [lines]

theorem lines_isPrefix (m : LineT) {i j : ℕ} (h : i ≤ j) : m.lines i <+: m.lines j := by
  obtain ⟨k, hk⟩ : ∃ k, min j 128 = min i 128 + k := ⟨min j 128 - min i 128, by omega⟩
  rw [lines, lines, hk, List.range_add]
  simp

theorem lines_length_mono (m : LineT) {i j : ℕ} (h : i ≤ j) :
    (m.lines i).length ≤ (m.lines j).length := (m.lines_isPrefix h).length_le

theorem lines_filter (h : ∀ l : ℕ, p.isSet l = true → m.isSet l = true) (nLines : ℕ) :
    p.lines nLines = (m.lines nLines).filter fun l : ℕ => p.isSet l := by
  rw [lines, lines, List.filter_filter]
  refine List.filter_congr fun l _ => ?_
  have := h l
  cases hp : p.isSet l <;> simp_all

def rank (m : LineT) (l : ℕ) : ℕ := (m.lines l).length

theorem getElem?_rank {nLines l : ℕ} (hl : l ∈ m.lines nLines) :
    (m.lines nLines)[m.rank l]? = some l := by
  obtain ⟨hlt, hset⟩ := mem_lines.mp hl
  obtain ⟨rest, hrest⟩ := m.lines_isPrefix (i := l + 1) (j := nLines) (by omega)
  rw [← hrest, lines_succ m (by omega), hset, if_pos rfl, rank, List.append_assoc,
    List.getElem?_append_right (Nat.le_refl _), Nat.sub_self]
  rfl

theorem eq_rank {nLines k l : ℕ} (h : (m.lines nLines)[k]? = some l) : k = m.rank l := by
  have hnodup : (m.lines nLines).Nodup := (m.lines_sorted nLines).imp Nat.ne_of_lt
  obtain ⟨h₁, h₂⟩ := List.getElem?_eq_some_iff.mp h
  obtain ⟨h₃, h₄⟩ := List.getElem?_eq_some_iff.mp (getElem?_rank (List.mem_of_getElem? h))
  exact hnodup.getElem_inj_iff.mp (h₂.trans h₄.symm)

end LineT

section counting

variable {m p : LineT} {linesLen : ℤ}

private theorem length_step (q : LineT) {i : ℕ} (hi : i < 128) :
    (if q.isSet i then (q.lines i).length + 1 else (q.lines i).length) =
      (q.lines (i + 1)).length := by
  rw [q.lines_succ hi]
  by_cases h : q.isSet i <;> simp [h]

/-- As long as some measured line is not printed, the counting loop visits all bits. -/
theorem countLines_all (hlt : ((p.lines 128).length : ℤ) < linesLen) :
    ∀ n i, i + n = 128 →
      countLines p m linesLen n i (p.lines i).length (m.lines i).length =
        ((p.lines 128).length, (m.lines 128).length) := by
  intro n
  induction n with
  | zero =>
    intro i hi
    obtain rfl : i = 128 := by omega
    rfl
  | succ n ih =>
    intro i hi
    have := p.lines_length_mono (i := i) (j := 128) (by omega)
    rw [countLines, if_pos (by omega), length_step p (by omega), length_step m (by omega)]
    exact ih (i + 1) (by omega)

theorem countLines_exit {j : ℕ} (hj : ((p.lines j).length : ℤ) = linesLen) (hj' : j ≤ 128) :
    ∀ n i, i + n = 128 → i ≤ j → ∃ i' ≤ j, ((p.lines i').length : ℤ) = linesLen ∧
      countLines p m linesLen n i (p.lines i).length (m.lines i).length =
        ((p.lines i').length, (m.lines i').length) := by
  intro n
  induction n with
  | zero =>
    intro i hi hij
    obtain rfl : i = j := by omega
    exact ⟨i, Nat.le_refl i, hj, rfl⟩
  | succ n ih =>
    intro i hi hij
    have := p.lines_length_mono hij
    by_cases hlt : ((p.lines i).length : ℤ) < linesLen
    · have hne : i ≠ j := by
        rintro rfl
        omega
      rw [countLines, if_pos hlt, length_step p (by omega), length_step m (by omega)]
      exact ih (i + 1) (by omega) (by omega)
    · exact ⟨i, hij, by omega, by rw [countLines, if_neg hlt]⟩

/-- The counting loop counts the lines to print, but no more than were measured. -/
theorem countLines_fst {len : ℕ} : ∀ n i, i + n = 128 → (p.lines i).length ≤ len →
    (countLines p m len n i (p.lines i).length (m.lines i).length).1 =
      min (p.lines 128).length len := by
  intro n
  induction n with
  | zero =>
    intro i hi hle
    obtain rfl : i = 128 := by omega
    exact (Nat.min_eq_left hle).symm
  | succ n ih =>
    intro i hi hle
    have hmono := p.lines_length_mono (i := i) (j := 128) (by omega)
    rw [countLines]
    by_cases hlt : (p.lines i).length < len
    · have hnext : (p.lines (i + 1)).length ≤ len := by
        rw [← length_step p (by omega)]
        split_ifs <;> omega
      rw [if_pos (by exact_mod_cast hlt), length_step p (by omega), length_step m (by omega)]
      exact ih (i + 1) (by omega) hnext
    · rw [if_neg (by exact_mod_cast hlt)]
      change (p.lines i).length = _
      omega

end counting

section filling

variable {m p : LineT} {nLines room : ℕ}

theorem fillTables_eq (hp : ∀ l : ℕ, p.isSet l = true → m.isSet l = true) (hn : nLines ≤ 128)
    (hfit : (p.lines nLines).length ≤ room) :
    ∀ n i, i + n = 128 → i ≤ nLines →
      fillTables p m (m.lines nLines).length room n i (m.lines i).length
        ((p.lines i).map fun l => (m.rank l, l)) =
      .done ((p.lines nLines).map fun l => (m.rank l, l)) := by
  intro n
  induction n with
  | zero =>
    intro i hi hin
    obtain rfl : i = nLines := by omega
    rfl
  | succ n ih =>
    intro i hi hin
    rw [fillTables]
    by_cases hlt : (m.lines i).length < (m.lines nLines).length
    · have hne : i ≠ nLines := by
        rintro rfl
        omega
      have hi' : i < 128 := by omega
      rw [if_pos (by exact_mod_cast hlt)]
      by_cases hpi : p.isSet i = true
      · have hmi := hp i hpi
        have hroom : (p.lines i).length < room := by
          have := p.lines_length_mono (i := i + 1) (j := nLines) (by omega)
          rw [p.lines_succ hi', hpi, if_pos rfl, List.length_append, List.length_singleton] at this
          omega
        have hm : (m.lines i).length + 1 = (m.lines (i + 1)).length := by
          rw [m.lines_succ hi', hmi]; simp
        have hentries : (p.lines i).map (fun l => (m.rank l, l)) ++ [((m.lines i).length, i)] =
            (p.lines (i + 1)).map fun l => (m.rank l, l) := by
          rw [p.lines_succ hi', hpi]; simp [LineT.rank]
        rw [hpi, hmi, Bool.and_self, if_pos rfl, List.length_map, if_pos hroom, hm, hentries]
        exact ih (i + 1) (by omega) (by omega)
      · have hpi : p.isSet i = false := by simpa using hpi
        have hpl : p.lines (i + 1) = p.lines i := by rw [p.lines_succ hi', hpi]; simp
        rw [← hpl]
        by_cases hmi : m.isSet i = true
        · have hm : (m.lines i).length + 1 = (m.lines (i + 1)).length := by
            rw [m.lines_succ hi', hmi]; simp
          rw [hpi, hmi, hm]
          exact ih (i + 1) (by omega) (by omega)
        · have hmi : m.isSet i = false := by simpa using hmi
          have hm : m.lines (i + 1) = m.lines i := by rw [m.lines_succ hi', hmi]; simp
          rw [hpi, hmi, ← hm]
          exact ih (i + 1) (by omega) (by omega)
    · -- all measured lines are found: the rest of the mask adds nothing below `nLines`
      have hsame : m.lines i = m.lines nLines :=
        (m.lines_isPrefix hin).eq_of_length_le (by omega)
      rw [if_neg (by exact_mod_cast hlt), LineT.lines_filter hp i, LineT.lines_filter hp nLines,
        hsame]

end filling

namespace LineT

variable (m sel : LineT)

theorem and_isSet {l : ℤ} (h : (sel.and m).isSet l = true) : m.isSet l = true := by
  rw [isSet_and, Bool.and_eq_true] at h
  exact h.2

theorem lines_and_length_le (nLines : ℕ) :
    ((sel.and m).lines nLines).length ≤ (m.lines nLines).length := by
  rw [lines_filter (fun l hl => and_isSet m sel hl)]
  exact List.length_filter_le _ _

theorem lines_sublist_of_and (nLines : ℕ) :
    ((sel.and m).lines nLines).Sublist (m.lines nLines) := by
  rw [lines_filter fun l hl => and_isSet m sel hl]
  exact List.filter_sublist

theorem lines_isPrefix_all (m : LineT) (nLines : ℕ) : m.lines nLines <+: m.lines 128 := by
  rw [← lines_min m nLines]
  exact m.lines_isPrefix (Nat.min_le_right nLines 128)

end LineT

/-- The tables for any selection: each printed line with its rank among the measured ones.
`n_lines_print` also counts selected bits of the mask that were not measured, and
`n_lines_counter` the other ones, unless every measured line is printed. -/
theorem selectionTables_spec (m sel : LineT) (nLines : ℕ) :
    let counted := (sel.and m).lines 128
    let printed := (sel.and m).lines nLines
    ∃ nLinesCounter, selectionTables m sel (m.lines nLines).length = .done
        ⟨min counted.length (m.lines nLines).length, nLinesCounter,
          printed.map fun l => (m.rank l, l)⟩ ∧
      (printed.length = (m.lines nLines).length → nLinesCounter = (m.lines nLines).length) ∧
      (counted.length < (m.lines nLines).length → nLinesCounter = (m.lines 128).length) := by
  intro counted printed
  have hp : ∀ l : ℕ, (sel.and m).isSet l = true → m.isSet l = true :=
    fun l => LineT.and_isSet m sel
  have hn : min nLines 128 ≤ 128 := by omega
  have hzero : ∀ q : LineT, (q.lines 0).length = 0 := fun q => by rw [q.lines_zero]; rfl
  have hroom : printed.length ≤ min counted.length (m.lines nLines).length := by
    have hmeasured := LineT.lines_and_length_le m sel nLines
    have hcounted := (sel.and m).lines_length_mono hn
    rw [LineT.lines_min] at hcounted
    exact Nat.le_min.mpr ⟨hcounted, hmeasured⟩
  have hfill : fillTables (sel.and m) m (m.lines nLines).length
      (min counted.length (m.lines nLines).length) nLineBits 0 0 [] =
        .done (printed.map fun l => (m.rank l, l)) := by
    have hfit : ((sel.and m).lines (min nLines 128)).length ≤
        min counted.length (m.lines nLines).length := by
      rwa [LineT.lines_min]
    have h := fillTables_eq hp hn hfit nLineBits 0 (by rfl) (by omega)
    rwa [LineT.lines_zero, LineT.lines_zero, LineT.lines_min, LineT.lines_min] at h
  have hcount : (countLines (sel.and m) m (m.lines nLines).length nLineBits 0 0 0).1 =
      min counted.length (m.lines nLines).length := by
    have hle : ((sel.and m).lines 0).length ≤ (m.lines nLines).length := by
      rw [hzero]
      exact Nat.zero_le _
    have h := countLines_fst nLineBits 0 (m := m) (by rfl) hle
    rwa [hzero, hzero] at h
  refine ⟨(countLines (sel.and m) m (m.lines nLines).length nLineBits 0 0 0).2, ?_, ?_, ?_⟩
  · rw [selectionTables]
    simp only [hcount, hfill, Outcome.done_bind]
  · intro hall
    have hj : (((sel.and m).lines (min nLines 128)).length : ℤ) =
        ((m.lines nLines).length : ℤ) := by
      rw [LineT.lines_min]
      exact_mod_cast hall
    obtain ⟨i', hi', hlen, hc⟩ := countLines_exit hj hn nLineBits 0 (m := m) (by rfl) (by omega)
    rw [hzero, hzero] at hc
    have hlow := LineT.lines_and_length_le m sel i'
    have hhigh := m.lines_length_mono (i := i') (j := nLines) (by omega)
    rw [hc]
    simp only
    omega
  · intro hlt
    have hlt' : (((sel.and m).lines 128).length : ℤ) < (m.lines nLines).length := by
      exact_mod_cast hlt
    have hc := countLines_all hlt' nLineBits 0 (m := m) (by rfl)
    rw [hzero, hzero] at hc
    rw [hc]

theorem LineT.lines_and_of_existing {m sel : LineT} {nLines : ℕ}
    (hsel : ∀ l : ℕ, l < 128 → sel.isSet l = true → l < nLines) :
    (sel.and m).lines 128 = (sel.and m).lines nLines := by
  refine (LineT.lines_sorted _ _).eq_of_mem_iff (LineT.lines_sorted _ _) fun l => ?_
  rw [LineT.mem_lines, LineT.mem_lines]
  refine and_congr_left fun hl => ?_
  rw [LineT.isSet_and, Bool.and_eq_true] at hl
  have := hsel l
  constructor
  · intro h
    have := this (by omega) hl.1
    omega
  · omega

/-- The tables for a selection of existing lines: each printed line with its rank among the
measured ones. `n_lines_counter` also counts mask bits beyond the device, unless every
measured line is printed. -/
theorem selectionTables_eq (m sel : LineT) (nLines : ℕ)
    (hsel : ∀ l : ℕ, l < 128 → sel.isSet l = true → l < nLines) :
    let printed := (sel.and m).lines nLines
    selectionTables m sel (m.lines nLines).length = .done
      ⟨printed.length,
        if printed.length = (m.lines nLines).length then printed.length
          else (m.lines 128).length,
        printed.map fun l => (m.rank l, l)⟩ := by
  intro printed
  have hle : printed.length ≤ (m.lines nLines).length := LineT.lines_and_length_le m sel nLines
  obtain ⟨counter, ht, hall, hsome⟩ := selectionTables_spec m sel nLines
  rw [LineT.lines_and_of_existing hsel] at ht hsome
  rw [ht, Nat.min_eq_left hle]
  by_cases heq : printed.length = (m.lines nLines).length
  · rw [if_pos heq, hall heq, heq]
  · have hlt : printed.length < (m.lines nLines).length := by omega
    rw [if_neg heq, hsome hlt]

/-! ## When the tables are right -/

structure SelectionTables.Right (t : SelectionTables) (sel : LineT) (measured : List ℕ) : Prop where
  nLinesCounter : t.nLinesCounter = measured.length
  nLinesPrint : t.nLinesPrint = t.entries.length
  indLines : t.entries.map Prod.snd = measured.filter fun l : ℕ => sel.isSet l
  indPrint : ∀ entry ∈ t.entries, measured[entry.1]? = some entry.2

section Right

theorem LineT.lines_and (m sel : LineT) (nLines : ℕ) :
    (sel.and m).lines nLines = (m.lines nLines).filter fun l : ℕ => sel.isSet l := by
  rw [lines_filter fun l hl => and_isSet m sel hl]
  refine List.filter_congr fun l hl => ?_
  rw [isSet_and, (mem_lines.mp hl).2, Bool.and_true]

theorem entries_right (m sel : LineT) (nLines : ℕ) :
    let entries := ((sel.and m).lines nLines).map fun l => (m.rank l, l)
    (entries.map Prod.snd = (m.lines nLines).filter fun l : ℕ => sel.isSet l) ∧
      ∀ entry ∈ entries, (m.lines nLines)[entry.1]? = some entry.2 := by
  refine ⟨by rw [List.map_map, ← LineT.lines_and]; exact List.map_id _, fun entry he => ?_⟩
  obtain ⟨l, hl, rfl⟩ := List.mem_map.mp he
  exact LineT.getElem?_rank ((LineT.lines_sublist_of_and m sel nLines).subset hl)

theorem LineT.lines_all_iff (m : LineT) (nLines : ℕ) :
    (m.lines 128).length = (m.lines nLines).length ↔
      ∀ l : ℕ, l < 128 → m.isSet l = true → l < nLines := by
  constructor
  · intro hlen l hl hset
    have hmem : l ∈ m.lines 128 := mem_lines.mpr ⟨by omega, hset⟩
    rw [← (m.lines_isPrefix_all nLines).eq_of_length hlen.symm, mem_lines] at hmem
    omega
  · intro h
    congr 1
    refine (m.lines_sorted 128).eq_of_mem_iff (m.lines_sorted nLines) fun l => ?_
    rw [mem_lines, mem_lines]
    refine and_congr_left fun hset => ⟨fun hl => ?_, fun hl => by omega⟩
    have := h l (by omega) hset
    omega

theorem LineT.lines_and_all_iff (m sel : LineT) (nLines : ℕ) :
    ((sel.and m).lines nLines).length = (m.lines nLines).length ↔
      ∀ l ∈ m.lines nLines, sel.isSet l = true := by
  rw [LineT.lines_and, List.length_filter_eq_length_iff]

/-- The printers' tables are right exactly when the mask has no lines that the device has
not, or every measured line is selected. -/
theorem tables_right_iff (m sel : LineT) (nLines : ℕ) :
    ∃ measured, Counter.setLines nLines m.bits = .done measured ∧
      ∃ t, selectionTables m sel measured.length = .done t ∧
        (t.Right sel measured ↔
          (∀ l : ℕ, l < 128 → m.isSet l = true → l < nLines) ∨
            ∀ l ∈ measured, sel.isSet l = true) := by
  refine ⟨_, Counter.setLines_bits nLines m, ?_⟩
  obtain ⟨counter, ht, hall, hsome⟩ := selectionTables_spec m sel nLines
  refine ⟨_, ht, ?_⟩
  obtain ⟨hlines, hprint⟩ := entries_right m sel nLines
  rw [← LineT.lines_all_iff, ← LineT.lines_and_all_iff]
  have hmore := (m.lines_isPrefix_all nLines).length_le
  have hcounted := ((sel.and m).lines_isPrefix_all nLines).length_le
  have hprinted := LineT.lines_and_length_le m sel nLines
  have hbits := LineT.lines_and_length_le m sel 128
  have hrest : (m.lines 128).length = (m.lines nLines).length →
      ((sel.and m).lines 128).length = ((sel.and m).lines nLines).length := by
    rw [LineT.lines_all_iff, LineT.lines_all_iff]
    exact fun h l hl hset => h l hl (LineT.and_isSet m sel hset)
  constructor
  · rintro ⟨hcounter, hn, -, -⟩
    simp only [List.length_map] at hcounter hn
    -- some measured line is left out, so that the loop has counted all bits of the mask
    by_contra hno
    push Not at hno
    have := hsome (by omega)
    omega
  · rintro (h | h)
    · have hn := hrest h
      refine ⟨?_, ?_, hlines, hprint⟩
      · by_cases heq : ((sel.and m).lines nLines).length = (m.lines nLines).length
        · exact hall heq
        · rw [← h]
          exact hsome (by omega)
      · simp only [List.length_map]
        omega
    · refine ⟨hall h, ?_, hlines, hprint⟩
      simp only [List.length_map]
      omega

/-- With all bits of the mask set and one of two lines selected, all bits are counted. -/
theorem tables_right_fails : ¬ ∀ (m sel : LineT) (nLines : ℕ) measured,
    Counter.setLines nLines m.bits = .done measured →
      ∃ t, selectionTables m sel measured.length = .done t ∧ t.Right sel measured := by
  intro h
  obtain ⟨t, ht, hright⟩ := h LineT.setAll (LineT.clrAll.set 0) 2 [0, 1] (by decide +kernel)
  have hcounter : selectionTables LineT.setAll (LineT.clrAll.set 0) 2 =
      .done ⟨1, 128, [(0, 0)]⟩ := by
    decide +kernel
  obtain rfl := Outcome.done.inj (hcounter.symm.trans ht)
  exact absurd hright.nLinesCounter (by decide)

end Right

end PMLib
