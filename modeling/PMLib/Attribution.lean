import PMLib.Printers
import PMLib.ReplyLayout

/-! # What the printers attribute to a set and a line

A printer computes an index for each sample of a set and each printed line. It shows what
was recorded, whatever that was, exactly when all its indices are the positions at which
the server has put the samples. -/
namespace PMLib

variable {V : Type}

def ValidSet (count : ℕ) (set : ℤ) : Prop := set = -1 ∨ 0 ≤ set ∧ set < count

def setIndices (count : ℕ) (set : ℤ) : List ℕ :=
  if set = -1 then List.range count else [set.toNat]

theorem lt_of_mem_setIndices {count s : ℕ} {set : ℤ} (h : ValidSet count set)
    (hs : s ∈ setIndices count set) : s < count := by
  unfold setIndices at hs
  split_ifs at hs with hall
  · exact List.mem_range.mp hs
  · rw [List.mem_singleton] at hs
    obtain h | h := h
    · exact absurd h hall
    · omega

def recordedTable (lines printed : List ℕ) (ws : List (List (ℕ → V))) (s : ℕ) : SetTable V :=
  ⟨s, (setSizes lines (ws.map List.length)).getD s 0,
    ((ws.getD s []).take ((setSizes lines (ws.map List.length)).getD s 0)).map fun x =>
      printed.map fun l => (l, x l)⟩

def recordedTables (lines printed : List ℕ) (ws : List (List (ℕ → V))) (set : ℤ) :
    List (SetTable V) :=
  (setIndices ws.length set).map (recordedTable lines printed ws)

/-! ## Tables by index -/

def tableAt (e : GetReply V) (entries : List (ℕ × ℕ)) (sizes : List ℕ)
    (index : ℕ → ℕ → ℕ → ℤ) (s : ℕ) : Outcome (SetTable V) := do
  let rows ← (List.range (sizes.getD s 0)).mapM fun i => entries.mapM fun entry => do
    let v ← Counter.readAt e.watts (index s i entry.1)
    .done (entry.2, v)
  .done ⟨s, sizes.getD s 0, rows⟩

/-- `watts[i+interval*ind_print[j]]`, with `i` from the bound of the set on. -/
def stridedIndex (sizes : List ℕ) (s i k : ℕ) : ℤ := before sizes s + i + sizes.sum * k

/-- `watts[offset+(i+interval*ind_print[j])]`; a single set is read without offset. -/
def textIndex (nLinesCounter : ℕ) (set : ℤ) (sizes : List ℕ) (s i k : ℕ) : ℤ :=
  (if set = -1 then nLinesCounter * before sizes s else 0) + (i + sizes.getD s 0 * k)

theorem rowAt_eq (e : GetReply V) {t : SelectionTables} (ht : t.nLinesPrint = t.entries.length)
    (index : ℤ → ℤ) : rowAt e t index = (t.entries.mapM fun entry => do
      let v ← Counter.readAt e.watts (index entry.1)
      .done (entry.2, v)) := by
  rw [rowAt, ht]
  exact Outcome.mapM_range_ofOption t.entries

theorem headerLines_eq {t : SelectionTables} (ht : t.nLinesPrint = t.entries.length) :
    headerLines t = .done (t.entries.map Prod.snd) := by
  rw [headerLines, ht, Outcome.mapM_range_eq_map_iff]
  intro i entry hi
  rw [hi]
  rfl

theorem bounds_sub (sizes : List ℕ) (s : ℕ) :
    ((before sizes s + sizes.getD s 0 : ℕ) : ℤ) - (before sizes s : ℤ) =
      (sizes.getD s 0 : ℤ) := by
  push_cast
  omega

namespace Announces

variable {sizes : List ℕ} {r : GetReply V} {t : SelectionTables} {set : ℤ}

theorem setRange_eq (h : Announces sizes r) (hset : ValidSet sizes.length set) :
    setRange r set = (setIndices sizes.length set).map fun s : ℕ => (s : ℤ) := by
  have hcount : (r.wattsSetsSize - 1).toNat = sizes.length := by
    rw [h.wattsSetsSize]
    omega
  unfold setRange setIndices
  rw [hcount]
  split_ifs with hall
  · rfl
  · obtain hset | ⟨h₀, _⟩ := hset
    · exact absurd hset hall
    · simp [Int.toNat_of_nonneg h₀]

theorem setRefused_eq (h : Announces sizes r) (hset : ValidSet sizes.length set) :
    setRefused r set = false := by
  unfold setRefused
  rw [h.wattsSetsSize]
  unfold ValidSet at hset
  simp only [Bool.or_eq_false_iff, decide_eq_false_iff_not, gt_iff_lt]
  omega

theorem wholeInterval_eq (h : Announces sizes r) :
    wholeInterval r = .done (sizes.sum : ℤ) := by
  have hlast : r.wattsSetsSize - 1 = (sizes.length : ℤ) := by
    rw [h.wattsSetsSize]
    omega
  have hfirst := h.readAt_wattsSets (Nat.zero_le sizes.length)
  rw [Nat.cast_zero] at hfirst
  have hall : before sizes sizes.length =
      sizes.sum := by
    rw [before, List.take_length]
  rw [wholeInterval, hlast, h.readAt_wattsSets (Nat.le_refl _), Outcome.done_bind, hfirst,
    Outcome.done_bind, hall]
  simp

theorem readAt_fin (h : Announces sizes r) {s : ℕ} (hs : s < sizes.length) :
    Counter.readAt r.wattsSets (s + 1 : ℤ) =
      .done ((before sizes s + sizes.getD s 0 : ℕ) : ℤ) := by
  have hread := h.readAt_wattsSets (s := s + 1) (by omega)
  rw [before_succ (List.getElem?_eq_getElem hs)] at hread
  rw [List.getD_eq_getElem?_getD, List.getElem?_eq_getElem hs]
  exact_mod_cast hread

theorem read_bounds {α : Type} (h : Announces sizes r) {s : ℕ} (hs : s < sizes.length)
    (f : ℤ → ℤ → Outcome α) : (do
      let ini ← Counter.readAt r.wattsSets s
      let fin ← Counter.readAt r.wattsSets (s + 1)
      f ini fin) = f (before sizes s) (before sizes s + sizes.getD s 0 : ℕ) := by
  rw [h.readAt_wattsSets (by omega), Outcome.done_bind, h.readAt_fin hs, Outcome.done_bind]

theorem stridedTables_eq (h : Announces sizes r) (hset : ValidSet sizes.length set)
    (ht : t.nLinesPrint = t.entries.length) :
    stridedTables r set t = (setIndices sizes.length set).mapM
      (tableAt r t.entries sizes
        (stridedIndex sizes)) := by
  rw [stridedTables, h.wholeInterval_eq, Outcome.done_bind, h.setRange_eq hset, List.mapM_map]
  apply Outcome.mapM_congr
  intro s hs
  have hlt := lt_of_mem_setIndices hset hs
  rw [Function.comp_apply, stridedTable, h.read_bounds hlt, bounds_sub, Int.toNat_natCast]
  simp only [rowAt_eq r ht]
  rfl

private theorem offsetTables_range (h : Announces sizes r)
    (ht : t.nLinesPrint = t.entries.length) (n s : ℕ) (hn : s + n ≤ sizes.length) :
    offsetTables r t
        (t.nLinesCounter * before sizes s : ℕ)
        ((List.range' s n).map fun s : ℕ => (s : ℤ)) =
      (List.range' s n).mapM (tableAt r t.entries sizes
        (textIndex t.nLinesCounter (-1) sizes)) := by
  induction n generalizing s with
  | zero => rfl
  | succ n ih =>
    have hlt : s < sizes.length := by omega
    have hsucc := before_succ (List.getElem?_eq_getElem hlt)
    have hgetD : sizes.getD s 0 =
        sizes[s] := by
      rw [List.getD_eq_getElem?_getD, List.getElem?_eq_getElem hlt, Option.getD_some]
    have hoffset : ((t.nLinesCounter * before sizes s : ℕ) : ℤ) +
        t.nLinesCounter * (sizes.getD s 0 : ℤ) =
        ((t.nLinesCounter * before sizes (s + 1) : ℕ) : ℤ) := by
      rw [hsucc, hgetD]
      push_cast
      ring
    rw [List.range'_succ, List.map_cons, offsetTables, h.read_bounds hlt, bounds_sub]
    dsimp only
    rw [hoffset, ih (s + 1) (by omega), List.mapM_cons, tableAt, Int.toNat_natCast]
    simp only [rowAt_eq r ht, textIndex, if_true, bind_assoc, Outcome.done_bind, Nat.cast_mul]
    rfl

theorem textTables_eq (h : Announces sizes r) (hset : ValidSet sizes.length set)
    (ht : t.nLinesPrint = t.entries.length) :
    textTables r set t = (setIndices sizes.length set).mapM
      (tableAt r t.entries sizes
        (textIndex t.nLinesCounter set sizes)) := by
  rw [textTables, h.wholeInterval_eq, Outcome.done_bind, h.setRange_eq hset]
  unfold setIndices
  split_ifs with hall
  · subst hall
    have hrange := h.offsetTables_range ht sizes.length 0 (by omega)
    rw [before_zero, Nat.mul_zero, Nat.cast_zero] at hrange
    rw [List.range_eq_range']
    exact hrange
  · obtain hset | ⟨h₀, hlt⟩ := hset
    · exact absurd hset hall
    have hlt : set.toNat < sizes.length := by omega
    rw [List.map_singleton, offsetTables, h.read_bounds hlt, bounds_sub]
    dsimp only
    rw [offsetTables, List.mapM_cons, List.mapM_nil, tableAt, Int.toNat_natCast]
    simp only [rowAt_eq r ht, textIndex, if_neg hall, bind_assoc, Outcome.done_bind]
    rfl

end Announces

/-! ## Which indices are right -/

theorem tableAt_eq_recorded_iff {e : GetReply V} {lines printed : List ℕ}
    {ws : List (List (ℕ → V))} {rank : ℕ → ℕ} {index : ℕ → ℕ → ℕ → ℤ} {s : ℕ} {w : List (ℕ → V)}
    (hs : ws[s]? = some w) (hsub : ∀ l ∈ printed, l ∈ lines) :
    tableAt e (printed.map fun l => (rank l, l)) (setSizes lines (ws.map List.length)) index s =
        .done (recordedTable lines printed ws s) ↔
      ∀ i x, w[i]? = some x → ∀ l ∈ printed,
        Counter.readAt e.watts (index s i (rank l)) = .done (x l) := by
  have hsize : (setSizes lines (ws.map List.length)).getD s 0 =
      if lines = [] then 0 else w.length := by
    simp [setSizes, hs]
  have hget : ws.getD s [] = w := by simp [hs]
  generalize hn : (setSizes lines (ws.map List.length)).getD s 0 = n at hsize
  have hlen : (w.take n).length = n := by
    rw [List.length_take, hsize]
    split_ifs <;> omega
  have hrows : (tableAt e (printed.map fun l => (rank l, l))
      (setSizes lines (ws.map List.length)) index s = .done (recordedTable lines printed ws s)) ↔
      ((List.range (w.take n).length).mapM fun i => (printed.map fun l => (rank l, l)).mapM
        fun entry => do
          let v ← Counter.readAt e.watts (index s i entry.1)
          .done (entry.2, v)) = .done ((w.take n).map fun x => printed.map fun l => (l, x l)) := by
    rw [tableAt, recordedTable, hn, hget, hlen, Outcome.bind_eq_done]
    simp
  rw [hrows, Outcome.mapM_range_eq_map_iff]
  constructor
  · intro h i x hi l hl
    have hne : lines ≠ [] := List.ne_nil_of_mem (hsub l hl)
    rw [if_neg hne] at hsize
    have hrow := h i x (by rwa [hsize, List.take_length])
    rw [List.mapM_map, Outcome.mapM_eq_map_iff] at hrow
    obtain ⟨v, hv, heq⟩ := Outcome.bind_eq_done.mp (hrow l hl)
    rw [hv]
    simpa using heq
  · intro h i x hi
    rw [List.mapM_map, Outcome.mapM_eq_map_iff]
    intro l hl
    have hx : w[i]? = some x := by
      obtain ⟨hlt, rfl⟩ := List.getElem?_eq_some_iff.mp hi
      rw [List.getElem_take]
      exact List.getElem?_eq_getElem _
    rw [Function.comp_apply, h i x hx l hl, Outcome.done_bind]

def marked (lens : List ℕ) (a b : V) (s i l : ℕ) : List (List (ℕ → V)) :=
  lens.mapIdx fun s' n => (List.range n).map fun i' l' =>
    if s' = s ∧ i' = i ∧ l' = l then a else b

theorem marked_lengths (lens : List ℕ) (a b : V) (s i l : ℕ) :
    (marked lens a b s i l).map List.length = lens := by
  apply List.ext_getElem?
  intro j
  rw [marked, List.getElem?_map, List.getElem?_mapIdx]
  cases lens[j]? <;> simp

theorem marked_apply {lens : List ℕ} {a b : V} {s i l s' i' : ℕ} {w : List (ℕ → V)} {x : ℕ → V}
    (hw : (marked lens a b s i l)[s']? = some w) (hx : w[i']? = some x) (l' : ℕ) :
    x l' = if s' = s ∧ i' = i ∧ l' = l then a else b := by
  rw [marked, List.getElem?_mapIdx, Option.map_eq_some_iff] at hw
  obtain ⟨n, _, rfl⟩ := hw
  rw [List.getElem?_map, Option.map_eq_some_iff] at hx
  obtain ⟨j, hj, rfl⟩ := hx
  obtain ⟨_, rfl⟩ := List.getElem?_eq_some_iff.mp hj
  rw [List.getElem_range]

theorem exists_marked {lens : List ℕ} {s i n : ℕ} (hs : lens[s]? = some n) (hi : i < n) (a b : V)
    (l : ℕ) : ∃ w x, (marked lens a b s i l)[s]? = some w ∧ w[i]? = some x ∧ x l = a := by
  have hw : (marked lens a b s i l)[s]?.map List.length = some n := by
    rw [← List.getElem?_map, marked_lengths, hs]
  obtain ⟨w, hw, hlen⟩ := Option.map_eq_some_iff.mp hw
  have hx := List.getElem?_eq_getElem (l := w) (i := i) (by omega)
  exact ⟨w, _, hw, hx, by rw [marked_apply hw hx, if_pos ⟨rfl, rfl, rfl⟩]⟩

/-- The indices read what was recorded, in every reply of one shape, if and only if they are
the positions of the samples: a marked value is found at no other index. -/
theorem reads_iff_positions [Zero V] [Add V] [Nontrivial V] {m : LineT} {nLines : ℕ}
    {lens printed indices : List ℕ} (hsub : ∀ l ∈ printed, l ∈ m.lines nLines)
    (hfit : (m.lines nLines).length * lens.sum < 2 ^ 31) (hsets : lens.length + 1 < 2 ^ 31)
    (index : ℕ → ℕ → ℕ → ℤ) :
    (∀ (ws : List (List (ℕ → V))) (r : GetReply V), ws.map List.length = lens →
      NativeReply m nLines ws r → ∀ s ∈ indices, ∀ w, ws[s]? = some w →
        ∀ i x, w[i]? = some x → ∀ l ∈ printed,
          Counter.readAt r.watts (index s i (m.rank l)) = .done (x l)) ↔
      ∀ s ∈ indices, ∀ n, lens[s]? = some n → ∀ i < n, ∀ l ∈ printed,
        index s i (m.rank l) = position (m.lines nLines).length lens s i (m.rank l) := by
  constructor
  · intro h s hs n hn i hi l hl
    obtain ⟨a, b, hab⟩ := exists_pair_ne V
    have hlen := marked_lengths lens a b s i l
    have hpos : 0 < (m.lines nLines).length := List.length_pos_of_mem (hsub l hl)
    have hsum : lens.sum < 2 ^ 31 := lt_of_le_of_lt (Nat.le_mul_of_pos_left _ hpos) hfit
    obtain ⟨r, hr⟩ := exists_nativeReply m nLines (marked lens a b s i l) (by rwa [hlen])
    have hlay := hr.layout (by rwa [hlen]) (by rwa [← List.length_map List.length, hlen])
    obtain ⟨w, x, hw, hx, hxl⟩ := exists_marked hn hi a b l
    have hread := h _ r hlen hr s hs w hw i x hx l hl
    rw [hxl, Counter.readAt] at hread
    split_ifs at hread with h₀
    rw [Outcome.ofOption_eq_done] at hread
    obtain ⟨s', i', k, l', w', x', hw', hx', hk, hp⟩ :=
      hlay.exists_position (List.getElem?_eq_some_iff.mp hread).1
    have hval := hlay.getElem?_position hw' hx' hk
    rw [← hp, hread, Option.some.injEq, marked_apply hw' hx'] at hval
    -- the value read is the marked one, so that its position is that of the mark
    have hmark : s' = s ∧ i' = i ∧ l' = l := by
      by_contra hno
      rw [if_neg hno] at hval
      exact hab hval
    obtain ⟨rfl, rfl, rfl⟩ := hmark
    rw [← LineT.eq_rank hk, ← hlen, ← hp, LineT.eq_rank hk, Int.toNat_of_nonneg h₀]
  · intro h ws r hlen hr s hs w hw i x hi l hl
    have hlay := hr.layout (by rwa [hlen]) (by rwa [← List.length_map List.length, hlen])
    have hn : lens[s]? = some w.length := by rw [← hlen, List.getElem?_map, hw]; rfl
    have hlt := (List.getElem?_eq_some_iff.mp hi).1
    have hpos := hlay.getElem?_position hw hi (LineT.getElem?_rank (hsub l hl))
    rw [h s hs _ hn i hlt l hl, Counter.readAt, if_pos (Int.natCast_nonneg _), Int.toNat_natCast,
      ← hlen, hpos]
    rfl

end PMLib
