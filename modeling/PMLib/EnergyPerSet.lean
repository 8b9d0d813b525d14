import PMLib.LegacyReply
import PMLib.TraceStart
import Mathlib.Algebra.CharZero.Defs
import Mathlib.Tactic.FieldSimp

/-! # The energy of each set

The energy function adds to accumulators, divides them in place, and goes on to the next set.
A line of a single set has the mean of what its stride reads; the sets after it have a part of
that mean in their own. -/
namespace PMLib

variable {V : Type}

/-! ## The two orders of a reply -/

/-- The C++ server sends set after set, the legacy one line after line. -/
inductive ReplyOrder where
  | setBySet | lineByLine
  deriving DecidableEq, Repr

namespace ReplyOrder

def watts (order : ReplyOrder) (lines : List ℕ) (ws : List (List (ℕ → V))) : List V :=
  match order with
  | .setBySet => ws.flatMap fun w => lines.flatMap fun l => readings l w
  | .lineByLine => lines.flatMap fun l => ws.flatMap fun w => readings l w

def start (order : ReplyOrder) (n : ℕ) (lens : List ℕ) (s k : ℕ) : ℕ :=
  match order with
  | .setBySet => n * before lens s + k * lens.getD s 0
  | .lineByLine => before lens s + lens.sum * k

end ReplyOrder

/-- A reply with the windows `ws` on the given lines. It announces as many samples for each
set as `sizes` says, which may be more than the window has. -/
structure Laid (order : ReplyOrder) (lines sizes : List ℕ) (ws : List (List (ℕ → V)))
    (r : GetReply V) : Prop where
  watts : r.watts = order.watts lines ws
  sets : sizes.length = ws.length
  announces : Announces (setSizes lines sizes) r
  wattsSize : r.wattsSize = r.watts.length
  linesLen : r.linesLen = lines.length

theorem NativeLayout.laid {lines : List ℕ} {ws : List (List (ℕ → V))} {r : GetReply V}
    (h : NativeLayout lines ws r) : Laid .setBySet lines (ws.map List.length) ws r :=
  ⟨h.watts, List.length_map _, h.announces, h.wattsSize, h.linesLen⟩

def Counter.kept [Zero V] (c : Counter) (w : List (ℕ → V)) : List (ℕ → V) :=
  ((List.range (c.setSize w)).filter fun x => x % c.interval.toNat = 0).map fun x l => column l w x

open Int32Conv in
/-- What the C++ server sends at any interval: of the announced samples, every `interval`-th. -/
theorem Counter.laid_windowReply [Zero V] [Add V] {c : Counter} {ws : List (List (ℕ → V))}
    (ha : c.aggregate = false) (hlines : c.lines.length < 2 ^ 31) (hsets : ws.length + 1 < 2 ^ 31)
    (hsum : (ws.map c.setSize).sum < 2 ^ 31)
    (hwatts : (c.windowReply ws).watts.length < 2 ^ 31) :
    Laid .setBySet c.lines (ws.map c.setSize) (ws.map c.kept) (c.windowReply ws) := by
  have hsizes : setSizes c.lines (ws.map c.setSize) = ws.map c.setSize := by
    rw [setSizes, List.map_map]
    refine List.map_congr_left fun w _ => ?_
    unfold setSize
    simp only [Function.comp_apply]
    split_ifs <;> rfl
  have hbounds : (c.windowReply ws).wattsSets =
      ((ws.map c.setSize).scanl (· + ·) 0).map fun n : ℕ => (n : ℤ) := by
    rw [← scanl_wrap32 _ 0 (by omega)]
    simp only [windowReply, List.map_map, Function.comp_def, Nat.cast_zero]
  refine ⟨?_, by rw [List.length_map, List.length_map], ⟨by rw [hsizes, hbounds], ?_⟩, ?_, ?_⟩
  · rw [windowReply, ReplyOrder.watts, List.flatMap_map]
    refine List.flatMap_congr fun w _ => ?_
    rw [windowBlock, if_neg (by simp [ha])]
    refine List.flatMap_congr fun l _ => ?_
    rw [readings, kept, List.map_map]
    rfl
  · have hcount : (c.windowReply ws).wattsSetsSize =
        wrap32 ((c.windowReply ws).wattsSets.length : ℤ) := by
      simp only [windowReply]
    rw [hcount, hbounds, List.length_map, List.length_scanl, List.length_map, hsizes,
      List.length_map, wrap32_natCast hsets, Nat.cast_succ]
  · have hcount : (c.windowReply ws).wattsSize =
        wrap32 ((c.windowReply ws).watts.length : ℤ) := by
      simp only [windowReply]
    rw [hcount, wrap32_natCast hwatts]
  · have hcount : (c.windowReply ws).linesLen = wrap32 (c.lines.length : ℤ) := by
      simp only [windowReply]
    rw [hcount, wrap32_natCast hlines]

def Window.kept (k : ℕ) (lines : List ℕ) (w : Window V) : List (ℕ → V) :=
  (List.range (w.count k lines)).map fun i l => w.value l (i * k)

theorem Legacy.Carries.laid {k : ℕ} {lines : List ℕ} {ws : List (Window V)} {r : GetReply V}
    (h : Legacy.Carries (Legacy.counts k lines ws) lines (Legacy.lineMajor k lines ws) r) :
    Laid .lineByLine lines ((ws.map (Window.kept k lines)).map List.length)
      (ws.map (Window.kept k lines)) r := by
  have hlens : setSizes lines ((ws.map (Window.kept k lines)).map List.length) =
      Legacy.counts k lines ws := by
    rw [setSizes, Legacy.counts, List.map_map, List.map_map]
    refine List.map_congr_left fun w _ => ?_
    simp only [Function.comp_apply, Window.kept, List.length_map, List.length_range]
    split_ifs with hl
    · rw [hl]
      rfl
    · rfl
  refine ⟨?_, List.length_map _, hlens ▸ h.announces, h.wattsSize, h.linesLen⟩
  rw [h.watts, Legacy.lineMajor, ReplyOrder.watts]
  simp only [List.flatMap_map]
  simp [readings, Window.kept, Window.block, Function.comp_def]

theorem exists_laid (order : ReplyOrder) (lines : List ℕ) {sizes : List ℕ}
    {ws : List (List (ℕ → V))} (hsets : sizes.length = ws.length) :
    ∃ r, Laid order lines sizes ws r := by
  refine ⟨⟨(order.watts lines ws).length, ws.length + 1, lines.length, _, order.watts lines ws⟩,
    rfl, hsets, ⟨rfl, ?_⟩, rfl, rfl⟩
  rw [length_setSizes, hsets]

namespace Laid

variable {order : ReplyOrder} {lines sizes : List ℕ} {ws : List (List (ℕ → V))} {r : GetReply V}

theorem native (h : Laid .setBySet lines sizes ws r) :
    ∃ r', NativeLayout lines ws r' ∧ r'.watts = r.watts :=
  ⟨⟨r.watts.length, ws.length + 1, lines.length, _, r.watts⟩, ⟨h.watts, rfl, rfl, rfl, rfl⟩, rfl⟩

private theorem length_line (ws : List (List (ℕ → V))) (l : ℕ) :
    (ws.flatMap fun w => readings l w).length = (ws.map List.length).sum := by
  rw [List.length_flatMap]
  simp [readings]

private theorem offset_line (ws : List (List (ℕ → V))) (l s : ℕ) :
    Blocks.offset (ws.map fun w => readings l w) s = before (ws.map List.length) s := by
  rw [Blocks.offset, before, ← List.map_take, ← List.map_take, List.map_map]
  simp [Function.comp_def, readings]

private theorem offset_lines (lines : List ℕ) (ws : List (List (ℕ → V))) {k : ℕ}
    (hk : k ≤ lines.length) :
    Blocks.offset (lines.map fun l => ws.flatMap fun w => readings l w) k =
      (ws.map List.length).sum * k := by
  rw [Nat.mul_comm]
  apply Blocks.offset_uniform
  · intro b hb
    obtain ⟨l, _, rfl⟩ := List.mem_map.mp hb
    exact length_line ws l
  · simpa using hk

theorem length_watts (h : Laid order lines sizes ws r) :
    r.watts.length = lines.length * (ws.map List.length).sum := by
  rw [h.watts]
  cases order with
  | setBySet => exact PMLib.length_watts lines ws
  | lineByLine =>
    rw [ReplyOrder.watts, List.length_flatMap, List.map_congr_left fun l _ => length_line ws l]
    simp

theorem getElem?_start (h : Laid order lines sizes ws r) {s i k l : ℕ} {w : List (ℕ → V)}
    {x : ℕ → V}
    (hs : ws[s]? = some w) (hi : w[i]? = some x) (hk : lines[k]? = some l) :
    r.watts[order.start lines.length (ws.map List.length) s k + i]? = some (x l) := by
  cases order with
  | setBySet =>
    obtain ⟨r', h', hwatts⟩ := h.native
    rw [← hwatts]
    exact h'.getElem?_position hs hi hk
  | lineByLine =>
    have hilt := (List.getElem?_eq_some_iff.mp hi).1
    have hklt := (List.getElem?_eq_some_iff.mp hk).1
    have hrow : (ws.flatMap fun w => readings l w)[before (ws.map List.length) s + i]? =
        some (x l) := by
      rw [List.flatMap_def, ← offset_line ws l s, Blocks.getElem?_flatten (b := readings l w)
        (by simp [hs]) (by simpa [readings] using hilt)]
      simp [readings, hi]
    have hinner := (List.getElem?_eq_some_iff.mp hrow).1
    rw [ReplyOrder.start, Nat.add_comm (before _ _), Nat.add_assoc, h.watts, ReplyOrder.watts,
      List.flatMap_def, ← offset_lines lines ws hklt.le, Blocks.getElem?_flatten
        (b := ws.flatMap fun w => readings l w) (by simp [hk]) hinner, hrow]

theorem exists_start (h : Laid order lines sizes ws r) {p : ℕ} (hp : p < r.watts.length) :
    ∃ s i k l w x, ws[s]? = some w ∧ w[i]? = some x ∧ lines[k]? = some l ∧
      p = order.start lines.length (ws.map List.length) s k + i := by
  cases order with
  | setBySet =>
    obtain ⟨r', h', hwatts⟩ := h.native
    exact h'.exists_position (hwatts ▸ hp)
  | lineByLine =>
    rw [h.watts, ReplyOrder.watts, List.flatMap_def] at hp
    obtain ⟨k, j, b, hk, hj, hpj⟩ := Blocks.exists_offset hp
    obtain ⟨l, hl, rfl⟩ : ∃ l, lines[k]? = some l ∧ (ws.flatMap fun w => readings l w) = b := by
      simpa using hk
    rw [List.flatMap_def] at hj
    obtain ⟨s, i, b, hs, hi, hjs⟩ := Blocks.exists_offset hj
    obtain ⟨w, hw, rfl⟩ : ∃ w, ws[s]? = some w ∧ readings l w = b := by simpa using hs
    have hi : i < w.length := by simpa [readings] using hi
    have hklt := (List.getElem?_eq_some_iff.mp hl).1
    rw [offset_lines lines ws hklt.le] at hpj
    rw [offset_line] at hjs
    refine ⟨s, i, k, l, w, w[i], hw, List.getElem?_eq_getElem hi, hl, ?_⟩
    rw [ReplyOrder.start]
    omega

end Laid

/-! ## What the loops compute -/

section sums

variable [Field V]

def energyLines (printed : List ℕ) (time : V) (average : ℕ → V) : List (EnergyLine V) :=
  printed.map fun l => ⟨l, time, average l, average l * time⟩

/-- The reports on the given sets when the accumulators start with `a`: the mean of the
values read, with what is left of the sets before. -/
def reportsFrom (printed : List ℕ) (d : ℕ → V) (rows : ℕ → List (ℕ → V)) :
    (a : ℕ → V) → List ℕ → List (List (EnergyLine V) × V)
  | _, [] => []
  | a, s :: ss =>
    let average := fun l => (a l + (readings l (rows s)).sum) / ((rows s).length : V)
    (energyLines printed (d s) average, (printed.map average).foldl (· + ·) 0 * d s) ::
      reportsFrom printed d rows average ss

variable {c : CounterT V} {printed : List ℕ} {d : ℕ → V} {rows : ℕ → List (ℕ → V)}

theorem addRow_printed (a v : ℕ → V) (rest : List V) :
    addRow (printed.map a ++ rest) (printed.map fun l => (l, v l)) =
      .done (printed.map (fun l => a l + v l) ++ rest) := by
  have hzip : List.zipWith (· + ·) (printed.map a ++ rest) (printed.map v) =
      printed.map fun l => a l + v l := by
    induction printed with
    | nil => simp
    | cons l printed ih => simpa using ih
  have hroom : ¬ (printed.map a ++ rest).length < (printed.map fun l => (l, v l)).length := by
    simp
  rw [addRow, if_neg hroom, List.map_map]
  have hsnd : Prod.snd ∘ (fun l => (l, v l)) = v := rfl
  have hdrop : (printed.map a ++ rest).drop (printed.map fun l => (l, v l)).length = rest := by
    rw [List.drop_left']
    simp
  rw [hsnd, hzip, hdrop]

theorem foldlM_addRow_printed (a : ℕ → V) (rest : List V) (xs : List (ℕ → V)) :
    (xs.map fun x => printed.map fun l => (l, x l)).foldlM addRow (printed.map a ++ rest) =
      .done (printed.map (fun l => a l + (readings l xs).sum) ++ rest) := by
  induction xs generalizing a with
  | nil => simp [readings]
  | cons x xs ih =>
    rw [List.map_cons, List.foldlM_cons, addRow_printed, Outcome.done_bind, ih]
    simp [readings, add_assoc]

theorem energySet_rowsTable {s : ℕ} (ht : c.time s = .done (d s)) (a : ℕ → V) (rest : List V) :
    energySet c printed (printed.map a ++ rest) (rowsTable printed rows s) =
      let average := fun l => (a l + (readings l (rows s)).sum) / ((rows s).length : V)
      .done (printed.map average ++ rest, energyLines printed (d s) average,
        (printed.map average).foldl (· + ·) 0 * d s) := by
  have hzip : ∀ average : ℕ → V, (printed.zip (printed.map average ++ rest)).map
      (fun le => (⟨le.1, d s, le.2, le.2 * d s⟩ : EnergyLine V)) =
        energyLines printed (d s) average := by
    intro average
    unfold energyLines
    induction printed with
    | nil => simp
    | cons l printed ih => simpa using ih
  rw [energySet, rowsTable]
  dsimp only
  rw [ht, Outcome.done_bind, foldlM_addRow_printed, Outcome.done_bind, if_neg (by simp)]
  have htake : ∀ f : ℕ → V, (printed.map f ++ rest).take printed.length = printed.map f :=
    fun f => List.take_left' (by simp)
  have hdrop : ∀ f : ℕ → V, (printed.map f ++ rest).drop printed.length = rest :=
    fun f => List.drop_left' (by simp)
  rw [htake, hdrop, List.map_map, hzip, htake]
  simp [Function.comp_def]

theorem energySets_rowsTable {ss : List ℕ} (ht : ∀ s ∈ ss, c.time s = .done (d s)) (a : ℕ → V)
    (rest : List V) :
    energySets c printed (printed.map a ++ rest) (ss.map (rowsTable printed rows)) =
      .done (reportsFrom printed d rows a ss) := by
  induction ss generalizing a with
  | nil => rfl
  | cons s ss ih =>
    rw [List.map_cons, energySets, energySet_rowsTable (ht s (by simp)), Outcome.done_bind,
      ih fun s hs => ht s (by simp [hs]), Outcome.done_bind]
    rfl

end sums

/-! ## What a client with a reply is told -/

section received

variable [Field V]

structure Received (order : ReplyOrder) (m : LineT) (nLines : ℕ) (sizes : List ℕ)
    (ws : List (List (ℕ → V))) (d : ℕ → V) (c : CounterT V) : Prop where
  aggregate : c.aggregate = false
  lines : c.lines = m
  laid : Laid order (m.lines nLines) sizes ws c.energy
  times : ∀ s : ℕ, s < ws.length → c.time s = .done (d s)

variable {order : ReplyOrder} {m sel : LineT} {nLines : ℕ} {sizes : List ℕ}
  {ws : List (List (ℕ → V))} {d : ℕ → V} {c : CounterT V} {set : ℤ} {accumulators : ℕ}

theorem Received.length_sizes (h : Received order m nLines sizes ws d c) :
    (setSizes (m.lines nLines) sizes).length = ws.length := by
  rw [length_setSizes, h.laid.sets]

theorem Received.not_refused (h : Received order m nLines sizes ws d c)
    (hset : ValidSet ws.length set) : setRefused c.energy set = false :=
  h.laid.announces.setRefused_eq (by rwa [h.length_sizes])

theorem Received.energy_eq (h : Received order m nLines sizes ws d c)
    (hsel : ∀ l : ℕ, l < 128 → sel.isSet l = true → l < nLines) (hset : ValidSet ws.length set)
    (hroom : ((sel.and m).lines nLines).length ≤ accumulators)
    (hsent : ∀ s ∈ setIndices ws.length set, 0 < (setSizes (m.lines nLines) sizes).getD s 0 →
      StridedRoom m sel nLines c.energy (setSizes (m.lines nLines) sizes) s) :
    pmCalculateEnergy accumulators c sel set = .done (some (.lines ((sel.and m).lines nLines)
      (reportsFrom ((sel.and m).lines nLines) d
        (stridedRows m c.energy (setSizes (m.lines nLines) sizes)) 0
        (setIndices ws.length set)))) := by
  have htables : stridedTables c.energy set (tablesOf m sel nLines) = _ :=
    h.laid.announces.stridedTables_eq_rows (by rwa [h.length_sizes]) (by rwa [h.length_sizes])
  rw [h.length_sizes] at htables
  have hread := (readLines_eq_done_iff h.lines h.laid.linesLen hsel).mpr htables
  obtain ⟨rest, hrest⟩ : ∃ rest : List V, List.replicate accumulators (0 : V) =
      ((sel.and m).lines nLines).map (0 : ℕ → V) ++ rest := by
    refine ⟨List.replicate (accumulators - ((sel.and m).lines nLines).length) 0, ?_⟩
    have hzero : ((sel.and m).lines nLines).map (0 : ℕ → V) =
        List.replicate ((sel.and m).lines nLines).length 0 := List.map_const' ..
    rw [hzero, List.replicate_append_replicate, Nat.add_sub_cancel' hroom]
  rw [pmCalculateEnergy, if_neg (by simp [h.not_refused hset]), if_neg (by simp [h.aggregate]),
    hread, Outcome.done_bind, energyOf, hrest, energySets_rowsTable, Outcome.done_bind]
  intro s hs
  exact h.times s (lt_of_mem_setIndices hset hs)

theorem Received.sent_of_energy (h : Received order m nLines sizes ws d c)
    (hset : ValidSet ws.length set) {report : EnergyReport V}
    (hdone : pmCalculateEnergy accumulators c sel set = .done (some report)) :
    ∀ s ∈ setIndices ws.length set, 0 < (setSizes (m.lines nLines) sizes).getD s 0 →
      StridedRoom m sel nLines c.energy (setSizes (m.lines nLines) sizes) s := by
  obtain rfl := h.lines
  rw [pmCalculateEnergy, if_neg (by simp [h.not_refused hset]), if_neg (by simp [h.aggregate])]
    at hdone
  obtain ⟨read, hread, _⟩ := Outcome.bind_eq_done.mp hdone
  obtain ⟨t, ht, hread⟩ := Outcome.bind_eq_done.mp hread
  obtain ⟨header, _, hread⟩ := Outcome.bind_eq_done.mp hread
  obtain ⟨tables, htables, _⟩ := Outcome.bind_eq_done.mp hread
  obtain ⟨t', ht', hspec⟩ := CounterT.Holds.exists_tables h.laid.linesLen sel
  obtain rfl := Outcome.done.inj (ht'.symm.trans ht)
  have hreads := ((hspec.strided_returns h.laid.announces set).mp ⟨tables, htables⟩).2
  rw [h.length_sizes] at hreads
  exact fun s hs hpos => (hreads s hs hpos).2

end received

/-! ## Blocks of the array -/

section blocks

variable [Field V]

namespace Laid

variable {order : ReplyOrder} {lines sizes lens : List ℕ} {ws : List (List (ℕ → V))}
  {r : GetReply V}

theorem readings_eq (h : Laid order lines sizes ws r) {s k l : ℕ} {w : List (ℕ → V)}
    (hs : ws[s]? = some w) (hk : lines[k]? = some l) :
    readings l w = block r.watts (order.start lines.length (ws.map List.length) s k) w.length := by
  apply List.ext_getElem?
  intro i
  rw [readings, block, List.getElem?_map, List.getElem?_map]
  by_cases hi : i < w.length
  · have hx := List.getElem?_eq_getElem hi
    rw [hx, List.getElem?_range hi, Option.map_some, Option.map_some, List.getD_eq_getElem?_getD,
      h.getElem?_start hs hx hk]
    rfl
  · rw [List.getElem?_eq_none (by omega), List.getElem?_eq_none (by simpa using hi)]
    rfl

theorem getD_marked {s i k l n : ℕ} (h : Laid order lines sizes (marked lens 1 0 s i l) r)
    (hlines : lines.Nodup) (hs : lens[s]? = some n) (hi : i < n) (hk : lines[k]? = some l)
    (q : ℕ) : r.watts.getD q 0 = if q = order.start lines.length lens s k + i then 1 else 0 := by
  obtain ⟨w, x, hw, hx, hxl⟩ := exists_marked hs hi (1 : V) 0 l
  have hmark := h.getElem?_start hw hx hk
  rw [marked_lengths, hxl] at hmark
  split_ifs with hq
  · rw [hq, List.getD_eq_getElem?_getD, hmark]
    rfl
  · by_cases hlt : q < r.watts.length
    · obtain ⟨s', i', k', l', w', x', hw', hx', hk', hp⟩ := h.exists_start hlt
      have hval := h.getElem?_start hw' hx' hk'
      rw [← hp, marked_apply hw' hx', if_neg] at hval
      · rw [List.getD_eq_getElem?_getD, hval]
        rfl
      rintro ⟨rfl, rfl, rfl⟩
      rw [marked_lengths] at hp
      rw [(List.getElem?_inj (List.getElem?_eq_some_iff.mp hk).1 hlines).mp
        (hk.trans hk'.symm)] at hq
      exact hq hp
    · rw [List.getD_eq_getElem?_getD, List.getElem?_eq_none (by omega)]
      rfl

end Laid

theorem sum_block {watts : List V} {p : ℕ} (h : ∀ q, watts.getD q 0 = if q = p then 1 else 0)
    (start n : ℕ) : (block watts start n).sum = if start ≤ p ∧ p < start + n then 1 else 0 := by
  induction n with
  | zero => simp [block]
  | succ n ih =>
    have hsucc : block watts start (n + 1) = block watts start n ++ [watts.getD (start + n) 0] := by
      simp [block, List.range_succ]
    rw [hsucc, List.sum_append, ih, List.sum_singleton, h]
    split_ifs <;> first | omega | simp

end blocks

/-! ## Each set on its own -/

section perSet

variable [Field V]

def mean (samples : List V) : V := samples.sum / (samples.length : V)

def EnergyExact (accumulators : ℕ) (c : CounterT V) (sel : LineT) (set : ℤ) (printed : List ℕ)
    (ws : List (List (ℕ → V))) (d : ℕ → V) : Prop :=
  ∃ report, pmCalculateEnergy accumulators c sel set = .done (some (.lines printed report)) ∧
    report.map Prod.fst = (setIndices ws.length set).map fun s =>
      energyLines printed (d s) fun l => mean (readings l (ws.getD s []))

/-- The stride, which goes by the announced samples, begins where those sent of the set do. -/
def ReplyOrder.Met (order : ReplyOrder) (count : ℕ) (sizes lens : List ℕ) (s k : ℕ) : Prop :=
  match order with
  | .setBySet => before sizes s + k * (sizes.sum - sizes.getD s 0) = count * before lens s
  | .lineByLine => before sizes s + sizes.sum * k = before lens s + lens.sum * k

theorem ReplyOrder.met_iff {order : ReplyOrder} {count : ℕ} {sizes lens : List ℕ} {s k : ℕ}
    (hs : sizes.getD s 0 = lens.getD s 0) :
    order.Met count sizes lens s k ↔
      before sizes s + sizes.sum * k = order.start count lens s k := by
  cases order with
  | lineByLine => rfl
  | setBySet =>
    have hle : sizes.getD s 0 ≤ sizes.sum :=
      (Nat.le_add_left _ _).trans (before_add_getD_le sizes s)
    have hk : k * (sizes.sum - sizes.getD s 0) + k * sizes.getD s 0 = sizes.sum * k := by
      rw [← Nat.mul_add, Nat.sub_add_cancel hle, Nat.mul_comm]
    rw [Met, start, ← hs]
    omega

theorem energyLines_inj {printed : List ℕ} {time : V} {f g : ℕ → V} :
    energyLines printed time f = energyLines printed time g ↔ ∀ l ∈ printed, f l = g l := by
  rw [energyLines, energyLines, List.map_inj_left]
  refine forall₂_congr fun l _ => ⟨fun h => congrArg EnergyLine.average h, fun h => by rw [h]⟩

def timesOf (d : ℕ → V) (n : ℕ) : List (Option V) :=
  (List.range (2 * n)).map fun i => some (if i % 2 = 0 then 0 else d (i / 2))

theorem time_timesOf {c : CounterT V} {d : ℕ → V} {n s : ℕ} (hc : c.timing = timesOf d n)
    (hs : s < n) : c.time s = .done (d s) := by
  have hat : ∀ i < 2 * n, c.timingAt (i : ℕ) = .done (if i % 2 = 0 then 0 else d (i / 2)) := by
    intro i hi
    rw [CounterT.timingAt, Counter.readAt, if_pos (Int.natCast_nonneg i), Int.toNat_natCast, hc,
      timesOf, List.getElem?_map, List.getElem?_range hi]
    rfl
  have hstop := hat (s * 2 + 1) (by omega)
  have hstart := hat (s * 2) (by omega)
  rw [if_neg (by omega), show (s * 2 + 1) / 2 = s by omega] at hstop
  rw [if_pos (by omega)] at hstart
  push_cast at hstop hstart
  rw [CounterT.time, hstop, Outcome.done_bind, hstart, Outcome.done_bind, sub_zero]

theorem exists_received (order : ReplyOrder) (m : LineT) (nLines : ℕ) {sizes : List ℕ}
    {ws : List (List (ℕ → V))} (hsets : sizes.length = ws.length) (d : ℕ → V) :
    ∃ c : CounterT V, Received order m nLines sizes ws d c := by
  obtain ⟨r, hr⟩ := exists_laid order (m.lines nLines) hsets
  refine ⟨⟨false, m, ws.length, timesOf d ws.length, r⟩, rfl, rfl, hr, ?_⟩
  exact fun s hs => time_timesOf rfl hs

section shape

variable {order : ReplyOrder} {m sel : LineT} {nLines : ℕ} {sizes lens : List ℕ} {set : ℤ}

/-- The energy function is right about every reply of one shape: the sets have `lens` samples
on each line, and `sizes` are announced. -/
def ShapeExact (V : Type) [Field V] (order : ReplyOrder) (m sel : LineT) (nLines : ℕ)
    (sizes lens : List ℕ) (set : ℤ) : Prop :=
  ∀ (ws : List (List (ℕ → V))) (d : ℕ → V) (c : CounterT V) (accumulators : ℕ),
    ws.map List.length = lens → Received order m nLines sizes ws d c →
    ((sel.and m).lines nLines).length ≤ accumulators →
    EnergyExact accumulators c sel set ((sel.and m).lines nLines) ws d

theorem ShapeExact.exists_marked (h : ShapeExact V order m sel nLines sizes lens set)
    (hsel : ∀ l : ℕ, l < 128 → sel.isSet l = true → l < nLines) (hset : ValidSet lens.length set)
    (hsets : sizes.length = lens.length) {s n i l : ℕ} (hs : lens[s]? = some n) (hi : i < n)
    (hl : l ∈ (sel.and m).lines nLines) :
    ∃ r, Laid order (m.lines nLines) sizes (marked lens (1 : V) 0 s i l) r ∧
      (∀ q, r.watts.getD q 0 =
        if q = order.start (m.lines nLines).length lens s (m.rank l) + i then 1 else 0) ∧
      (reportsFrom ((sel.and m).lines nLines) 0 (stridedRows m r sizes) 0
        (setIndices lens.length set)).map Prod.fst =
      (setIndices lens.length set).map fun s' : ℕ =>
        energyLines ((sel.and m).lines nLines) ((0 : ℕ → V) s')
          fun l' => mean (readings l' ((marked lens (1 : V) 0 s i l).getD s' [])) := by
  have hlens := marked_lengths lens (1 : V) 0 s i l
  have hcount : (marked lens (1 : V) 0 s i l).length = lens.length := by
    rw [← List.length_map (f := List.length), hlens]
  obtain ⟨c, hc⟩ := exists_received order m nLines (hsets.trans hcount.symm) (0 : ℕ → V)
  obtain ⟨report, hreport, hexact⟩ := h _ _ c _ hlens hc le_rfl
  have hset' : ValidSet (marked lens (1 : V) 0 s i l).length set := by rwa [hcount]
  rw [hc.energy_eq hsel hset' le_rfl (hc.sent_of_energy hset' hreport),
    setSizes_of_mem (printed_subset hl), hcount] at hreport
  obtain ⟨_, rfl⟩ := EnergyReport.lines.inj (Option.some.inj (Outcome.done.inj hreport))
  rw [hcount] at hexact
  refine ⟨c.energy, hc.laid, fun q => ?_, hexact⟩
  exact hc.laid.getD_marked (m.lines_sorted nLines |>.imp Nat.ne_of_lt) hs hi
    (LineT.getElem?_rank (printed_subset hl)) q

theorem mean_marked {r : GetReply V} {s n i l : ℕ}
    (hr : Laid order (m.lines nLines) sizes (marked lens (1 : V) 0 s i l) r)
    (hmark : ∀ q, r.watts.getD q 0 =
      if q = order.start (m.lines nLines).length lens s (m.rank l) + i then 1 else 0)
    (hs : lens[s]? = some n) (hi : i < n) (hl : l ∈ m.lines nLines) :
    mean (readings l ((marked lens (1 : V) 0 s i l).getD s [])) = 1 / (n : V) := by
  obtain ⟨w, hw, hwn⟩ : ∃ w, (marked lens (1 : V) 0 s i l)[s]? = some w ∧ w.length = n := by
    obtain ⟨w, _, hw, _, _⟩ := PMLib.exists_marked hs hi (1 : V) 0 l
    have := NativeLayout.getD_length hw
    rw [marked_lengths, List.getD_eq_getElem?_getD, hs, Option.getD_some] at this
    exact ⟨w, hw, this.symm⟩
  rw [List.getD_eq_getElem?_getD, hw, Option.getD_some, mean,
    hr.readings_eq hw (LineT.getElem?_rank hl), marked_lengths, sum_block hmark, hwn,
    if_pos ⟨by omega, by omega⟩, length_block]

/-- The first set that is processed has the right mean only if as many samples are sent of it as
are announced, and the stride begins where these do: else the mark of a sample is missed, or
divided by the wrong number. -/
theorem ShapeExact.first_met [CharZero V] (h : ShapeExact V order m sel nLines sizes lens set)
    (hsel : ∀ l : ℕ, l < 128 → sel.isSet l = true → l < nLines) (hset : ValidSet lens.length set)
    (hsets : sizes.length = lens.length) {s n l : ℕ} {ss : List ℕ}
    (hss : setIndices lens.length set = s :: ss) (hs : lens[s]? = some n) (hn : 0 < n)
    (hl : l ∈ (sel.and m).lines nLines) :
    sizes.getD s 0 = n ∧ before sizes s + sizes.sum * m.rank l =
      order.start (m.lines nLines).length lens s (m.rank l) := by
  have hmarked : ∀ i < n, sizes.getD s 0 = n ∧
      before sizes s + sizes.sum * m.rank l ≤
        order.start (m.lines nLines).length lens s (m.rank l) + i ∧
      order.start (m.lines nLines).length lens s (m.rank l) + i <
        before sizes s + sizes.sum * m.rank l + sizes.getD s 0 := by
    intro i hi
    obtain ⟨r, hr, hmark, hexact⟩ := h.exists_marked hsel hset hsets hs hi hl
    rw [hss, reportsFrom, List.map_cons, List.map_cons, List.cons.injEq, energyLines_inj] at hexact
    have hfirst := hexact.1 l hl
    rw [readings_stridedRows, sum_block hmark, length_stridedRows,
      mean_marked hr hmark hs hi (printed_subset hl), Pi.zero_apply, zero_add] at hfirst
    have hne : (1 : V) / n ≠ 0 := one_div_ne_zero (Nat.cast_ne_zero.mpr hn.ne')
    split_ifs at hfirst with hin
    · rw [one_div, one_div, inv_inj, Nat.cast_inj] at hfirst
      exact ⟨hfirst, hin⟩
    · rw [zero_div] at hfirst
      exact absurd hfirst.symm hne
  have hfirst := hmarked 0 hn
  have hlast := hmarked (n - 1) (by omega)
  exact ⟨hfirst.1, by omega⟩

private theorem left_ne_zero [CharZero V] {n n' : ℕ} (hn : 0 < n) (hn' : 0 < n') (q : ℕ) :
    ((1 : V) / n + q) / n' ≠ 0 := by
  have hne : (n : V) ≠ 0 := Nat.cast_ne_zero.mpr hn.ne'
  have hsum : (1 : V) / n + q = ((1 + q * n : ℕ) : V) / n := by
    push_cast
    field_simp
  rw [hsum]
  exact div_ne_zero (div_ne_zero (Nat.cast_ne_zero.mpr (by omega)) hne)
    (Nat.cast_ne_zero.mpr hn'.ne')

/-- Two sets are too many: a part of the first mean is in the second, unless no sample is
announced for the second, and then it has no mean. -/
theorem ShapeExact.length_le_one [CharZero V] (h : ShapeExact V order m sel nLines sizes lens set)
    (hsel : ∀ l : ℕ, l < 128 → sel.isSet l = true → l < nLines) (hset : ValidSet lens.length set)
    (hsets : sizes.length = lens.length)
    (hpos : ∀ s ∈ setIndices lens.length set, 0 < lens.getD s 0) {l : ℕ}
    (hl : l ∈ (sel.and m).lines nLines) : set = -1 → lens.length ≤ 1 := by
  intro hall
  by_contra hlen
  obtain ⟨k, hk⟩ : ∃ k, lens.length = k + 2 := ⟨lens.length - 2, by omega⟩
  obtain ⟨ss, hss⟩ : ∃ ss, setIndices lens.length set = 0 :: 1 :: ss := by
    refine ⟨(List.range k).map (· + 2), ?_⟩
    rw [setIndices, if_pos hall, hk, List.range_succ_eq_map, List.range_succ_eq_map]
    simp [Function.comp_def]
  obtain ⟨n, hn⟩ : ∃ n, lens[0]? = some n := ⟨lens[0], List.getElem?_eq_getElem (by omega)⟩
  obtain ⟨n', hn'⟩ : ∃ n', lens[1]? = some n' := ⟨lens[1], List.getElem?_eq_getElem (by omega)⟩
  have hget : lens.getD 0 0 = n := by simp [hn]
  have hget' : lens.getD 1 0 = n' := by simp [hn']
  have hn₀ : 0 < n := hget ▸ hpos 0 (by simp [hss])
  have hn₁ : 0 < n' := hget' ▸ hpos 1 (by simp [hss])
  obtain ⟨hfirst, hstart⟩ := h.first_met hsel hset hsets hss hn hn₀ hl
  -- the report on the second set
  have hsecond : ∀ {s i : ℕ} {r : GetReply V},
      (reportsFrom ((sel.and m).lines nLines) 0 (stridedRows m r sizes) 0
        (setIndices lens.length set)).map Prod.fst =
      ((setIndices lens.length set).map fun s' : ℕ =>
        energyLines ((sel.and m).lines nLines) ((0 : ℕ → V) s')
          fun l' => mean (readings l' ((marked lens (1 : V) 0 s i l).getD s' []))) →
      ((block r.watts (before sizes 0 + sizes.sum * m.rank l) (sizes.getD 0 0)).sum /
          (sizes.getD 0 0 : V) +
        (block r.watts (before sizes 1 + sizes.sum * m.rank l) (sizes.getD 1 0)).sum) /
          (sizes.getD 1 0 : V) =
        mean (readings l ((marked lens (1 : V) 0 s i l).getD 1 [])) := by
    intro s i r hexact
    rw [hss, reportsFrom, reportsFrom, List.map_cons, List.map_cons, List.map_cons, List.map_cons,
      List.cons.injEq, List.cons.injEq, energyLines_inj, energyLines_inj] at hexact
    have hsecond := hexact.2.1 l hl
    rwa [readings_stridedRows, readings_stridedRows, length_stridedRows, length_stridedRows,
      Pi.zero_apply, zero_add] at hsecond
  rcases Nat.eq_zero_or_pos (sizes.getD 1 0) with hnone | hsome
  · obtain ⟨r, hr, hmark, hexact⟩ := h.exists_marked hsel hset hsets hn' hn₁ hl
    have hmean := hsecond hexact
    rw [hnone, Nat.cast_zero, div_zero,
      mean_marked hr hmark hn' hn₁ (printed_subset hl)] at hmean
    exact one_div_ne_zero (Nat.cast_ne_zero.mpr hn₁.ne') hmean.symm
  obtain ⟨r, hr, hmark, hexact⟩ := h.exists_marked hsel hset hsets hn hn₀ hl
  have hmean := hsecond hexact
  -- the second set has no mark of its own
  have hzero : (readings l ((marked lens (1 : V) 0 0 0 l).getD 1 [])).sum = 0 := by
    refine List.sum_eq_zero fun v hv => ?_
    obtain ⟨x, hx, rfl⟩ := List.mem_map.mp hv
    obtain ⟨w, hw⟩ : ∃ w, (marked lens (1 : V) 0 0 0 l)[1]? = some w := by
      refine ⟨_, List.getElem?_eq_getElem ?_⟩
      rw [← List.length_map (f := List.length), marked_lengths]
      omega
    rw [List.getD_eq_getElem?_getD, hw, Option.getD_some] at hx
    obtain ⟨i, hi⟩ := List.getElem?_of_mem hx
    rw [marked_apply hw hi, if_neg (by omega)]
  rw [mean, hzero, zero_div, sum_block hmark, sum_block hmark, ← hstart, hfirst,
    if_pos ⟨by omega, by omega⟩] at hmean
  split_ifs at hmean
  · exact left_ne_zero (V := V) hn₀ hsome 1 (by rwa [Nat.cast_one])
  · exact left_ne_zero (V := V) hn₀ hsome 0 (by rwa [Nat.cast_zero])

private theorem reportsFrom_nil (d : ℕ → V) (rows : ℕ → List (ℕ → V)) (a : ℕ → V)
    (ss : List ℕ) : (reportsFrom [] d rows a ss).map Prod.fst = ss.map fun _ => [] := by
  induction ss generalizing a with
  | nil => rfl
  | cons s ss ih => exact congrArg (List.cons []) (ih _)

theorem shapeExact_of_met
    (hsel : ∀ l : ℕ, l < 128 → sel.isSet l = true → l < nLines) (hset : ValidSet lens.length set)
    (hpos : ∀ s ∈ setIndices lens.length set, 0 < lens.getD s 0)
    (h : (sel.and m).lines nLines = [] ∨ (set = -1 → lens.length ≤ 1) ∧
      ∀ s ∈ setIndices lens.length set, sizes.getD s 0 = lens.getD s 0 ∧
        ∀ l ∈ (sel.and m).lines nLines,
          order.Met (m.lines nLines).length sizes lens s (m.rank l)) :
    ShapeExact V order m sel nLines sizes lens set := by
  intro ws d c accumulators hlen hc hroom
  have hcount : ws.length = lens.length := by rw [← hlen, List.length_map]
  have hset' : ValidSet ws.length set := by rwa [hcount]
  by_cases hprinted : (sel.and m).lines nLines = []
  · refine ⟨_, hc.energy_eq hsel hset' hroom fun s _ _ l hl => ?_, ?_⟩
    · rw [hprinted] at hl
      cases hl
    · rw [hprinted, reportsFrom_nil]
      rfl
  obtain ⟨l₀, hl₀⟩ := List.exists_mem_of_ne_nil _ hprinted
  obtain ⟨hone, hmet⟩ := h.resolve_left hprinted
  have hsizes : setSizes (m.lines nLines) sizes = sizes := setSizes_of_mem (printed_subset hl₀) _
  -- what the stride reads is what has been sent
  have hstart : ∀ s ∈ setIndices ws.length set, ∀ l ∈ (sel.and m).lines nLines,
      ∃ w, ws[s]? = some w ∧ w.length = sizes.getD s 0 ∧ 0 < w.length ∧
        before sizes s + sizes.sum * m.rank l =
          order.start (m.lines nLines).length (ws.map List.length) s (m.rank l) := by
    intro s hs l hl
    rw [hcount] at hs
    have hlt := lt_of_mem_setIndices hset hs
    obtain ⟨w, hw⟩ : ∃ w, ws[s]? = some w := ⟨_, List.getElem?_eq_getElem (by omega)⟩
    obtain ⟨hsame, hline⟩ := hmet s hs
    have hwn : lens.getD s 0 = w.length := by rw [← hlen, NativeLayout.getD_length hw]
    refine ⟨w, hw, by omega, hwn ▸ hpos s hs, ?_⟩
    rw [hlen]
    exact (ReplyOrder.met_iff hsame).mp (hline l hl)
  refine ⟨_, hc.energy_eq hsel hset' hroom fun s hs _ l hl => ?_, ?_⟩
  · obtain ⟨w, hw, hwn, hw₀, hat⟩ := hstart s hs l hl
    have hlast := hc.laid.getElem?_start hw (List.getElem?_eq_getElem (show w.length - 1 < w.length
      by omega)) (LineT.getElem?_rank (printed_subset hl))
    have := (List.getElem?_eq_some_iff.mp hlast).1
    rw [hsizes]
    omega
  obtain hnone | ⟨s, hs⟩ : setIndices ws.length set = [] ∨
      ∃ s, setIndices ws.length set = [s] := by
    unfold setIndices
    split_ifs with hall
    · obtain hz | ho : ws.length = 0 ∨ ws.length = 1 := by
        have := hone hall
        omega
      · exact .inl (by rw [hz]; rfl)
      · exact .inr ⟨0, by rw [ho]; rfl⟩
    · exact .inr ⟨_, rfl⟩
  · rw [hnone]
    rfl
  rw [hs, reportsFrom, reportsFrom, List.map_singleton, List.map_singleton, List.cons.injEq,
    and_iff_left rfl, energyLines_inj]
  intro l hl
  obtain ⟨w, hw, hwn, _, hat⟩ := hstart s (by simp [hs]) l hl
  have hwin : ws.getD s [] = w := by simp [hw]
  rw [hsizes, readings_stridedRows, length_stridedRows, hat, hwin, mean,
    hc.laid.readings_eq hw (LineT.getElem?_rank (printed_subset hl)), length_block, hwn,
    Pi.zero_apply, zero_add]

/-- The energy function is right about all replies of one shape exactly when nothing is
printed, or only one set is processed, as many samples of it are sent as are announced, and the
stride finds these. -/
theorem shapeExact_iff [CharZero V]
    (hsel : ∀ l : ℕ, l < 128 → sel.isSet l = true → l < nLines) (hset : ValidSet lens.length set)
    (hsets : sizes.length = lens.length)
    (hpos : ∀ s ∈ setIndices lens.length set, 0 < lens.getD s 0) :
    ShapeExact V order m sel nLines sizes lens set ↔ (sel.and m).lines nLines = [] ∨
      (set = -1 → lens.length ≤ 1) ∧
      ∀ s ∈ setIndices lens.length set, sizes.getD s 0 = lens.getD s 0 ∧
        ∀ l ∈ (sel.and m).lines nLines,
          order.Met (m.lines nLines).length sizes lens s (m.rank l) := by
  refine ⟨fun h => ?_, shapeExact_of_met hsel hset hpos⟩
  by_cases hprinted : (sel.and m).lines nLines = []
  · exact .inl hprinted
  obtain ⟨l₀, hl₀⟩ := List.exists_mem_of_ne_nil _ hprinted
  have hone := h.length_le_one hsel hset hsets hpos hl₀
  refine .inr ⟨hone, fun s hs => ?_⟩
  have hlt := lt_of_mem_setIndices hset hs
  have hn := List.getElem?_eq_getElem hlt
  have hget : lens.getD s 0 = lens[s] := by simp [hn]
  have hfirst : ∃ ss, setIndices lens.length set = s :: ss := by
    unfold setIndices at hs ⊢
    split_ifs at hs ⊢ with hall
    · obtain ⟨rfl, ho⟩ : s = 0 ∧ lens.length = 1 := by
        have := hone hall
        omega
      exact ⟨[], by rw [ho]; rfl⟩
    · obtain rfl := List.mem_singleton.mp hs
      exact ⟨[], rfl⟩
  obtain ⟨ss, hss⟩ := hfirst
  have hn₀ : 0 < lens[s] := hget ▸ hpos s hs
  have hsame : sizes.getD s 0 = lens.getD s 0 :=
    (h.first_met hsel hset hsets hss hn hn₀ hl₀).1.trans hget.symm
  refine ⟨hsame, fun l hl => (ReplyOrder.met_iff hsame).mpr ?_⟩
  exact (h.first_met hsel hset hsets hss hn hn₀ hl).2

end shape

end perSet

/-! ## The aggregate of all sets -/

section aggregate

variable [Field V]

structure ReceivedSums (sizes : List ℕ) (vs : List (List V)) (d : ℕ → V) (c : CounterT V) :
    Prop where
  aggregate : c.aggregate = true
  sets : sizes.length = vs.length
  announces : Announces sizes c.energy
  watts : c.energy.watts = vs.flatten
  times : ∀ s : ℕ, s < vs.length → c.time s = .done (d s)

def EnergySummed (accumulators : ℕ) (c : CounterT V) (sel : LineT) (vs : List (List V))
    (d : ℕ → V) : Prop :=
  ∃ time average, pmCalculateEnergy accumulators c sel (-1) =
    .done (some (.aggregate time average
      ((List.range vs.length).map fun s => mean (vs.getD s []) * d s).sum))

theorem exists_receivedSums {sizes : List ℕ} {vs : List (List V)}
    (hsets : sizes.length = vs.length) (d : ℕ → V) :
    ∃ c : CounterT V, ReceivedSums sizes vs d c := by
  refine ⟨⟨true, LineT.clrAll, vs.length, timesOf d vs.length,
    ⟨vs.flatten.length, vs.length + 1, 0, _, vs.flatten⟩⟩, rfl, hsets, ⟨rfl, ?_⟩, rfl, ?_⟩
  · rw [hsets]
  · exact fun s hs => time_timesOf rfl hs

namespace ReceivedSums

variable {sizes : List ℕ} {vs : List (List V)} {d : ℕ → V} {c : CounterT V}

theorem energy_eq (h : ReceivedSums sizes vs d c) (accumulators : ℕ) (sel : LineT) :
    pmCalculateEnergy accumulators c sel (-1) =
      (((List.range vs.length).map fun s : ℕ => (s : ℤ)).foldlM (aggregatePass c) (none, 0) >>=
        fun last => do
          let time ← Outcome.ofOption last.1
          .done (some (.aggregate time last.2 (time * last.2)))) := by
  have hset : ValidSet sizes.length (-1) := .inl rfl
  have hrange : setRange c.energy (-1) = (List.range vs.length).map fun s : ℕ => (s : ℤ) := by
    rw [h.announces.setRange_eq hset, setIndices, if_pos rfl, h.sets]
  rw [pmCalculateEnergy, if_neg (by simp [h.announces.setRefused_eq hset]), if_pos h.aggregate,
    ← hrange]
  rfl

theorem last_time (h : ReceivedSums sizes vs d c) {n : ℕ} (hn : n + 1 = vs.length)
    {accumulators : ℕ} {sel : LineT} {time average energy : V}
    (hdone : pmCalculateEnergy accumulators c sel (-1) =
      .done (some (.aggregate time average energy))) : energy = d n * average := by
  rw [h.energy_eq, ← hn, List.range_succ, List.map_append, List.map_singleton,
    List.foldlM_append] at hdone
  obtain ⟨last, hlast, hdone⟩ := Outcome.bind_eq_done.mp hdone
  obtain ⟨state, _, hlast⟩ := Outcome.bind_eq_done.mp hlast
  rw [List.foldlM_cons] at hlast
  obtain ⟨state', hpass, hlast⟩ := Outcome.bind_eq_done.mp hlast
  obtain rfl := Outcome.done.inj hlast
  obtain ⟨values, _, hpass⟩ := Outcome.bind_eq_done.mp hpass
  rw [h.times n (by omega), Outcome.done_bind] at hpass
  obtain rfl := Outcome.done.inj hpass
  obtain ⟨rfl, rfl, rfl⟩ := EnergyReport.aggregate.inj (Option.some.inj (Outcome.done.inj hdone))
  rfl

theorem single_le {size : ℕ} {v : List V} (h : ReceivedSums [size] [v] d c) {accumulators : ℕ}
    {sel : LineT} {report : EnergyReport V}
    (hdone : pmCalculateEnergy accumulators c sel (-1) = .done (some report)) :
    size ≤ v.length := by
  rw [h.energy_eq] at hdone
  obtain ⟨last, hlast, _⟩ := Outcome.bind_eq_done.mp hdone
  obtain ⟨state, hpass, _⟩ := Outcome.bind_eq_done.mp hlast
  obtain ⟨values, hvalues, _⟩ := Outcome.bind_eq_done.mp hpass
  have hroom := (h.announces.aggregateValues_returns (s := 0) (by simp)).mp ⟨values, hvalues⟩
  rw [h.watts, List.flatten_singleton] at hroom
  simp only [before, List.take_zero, List.sum_nil, Nat.zero_add, List.getD_cons_zero] at hroom
  omega

theorem single_eq {size : ℕ} {v : List V} (h : ReceivedSums [size] [v] d c)
    (hle : size ≤ v.length) (accumulators : ℕ) (sel : LineT) :
    pmCalculateEnergy accumulators c sel (-1) =
      .done (some (.aggregate (d 0) ((v.take size).sum / (size : V))
        (d 0 * ((v.take size).sum / (size : V))))) := by
  have hwatts : c.energy.watts = v := by rw [h.watts, List.flatten_singleton]
  have hroom : before [size] 0 + [size].getD 0 0 ≤ c.energy.watts.length := by
    rw [hwatts]
    simpa [before] using hle
  have hvalues : aggregateValues c.energy ((0 : ℕ) : ℤ) = .done ((size : ℤ), v.take size) := by
    rw [h.announces.aggregateValues_eq (by simp) fun _ => hroom, block_eq_slice hroom, hwatts]
    simp [before]
  have hrange : (List.range [v].length).map (fun s : ℕ => (s : ℤ)) = [((0 : ℕ) : ℤ)] := rfl
  rw [h.energy_eq, hrange, List.foldlM_cons, aggregatePass, hvalues, Outcome.done_bind,
    h.times 0 (by simp), Outcome.done_bind, Outcome.done_bind, List.foldlM_nil, pure_bind,
    ← List.sum_eq_foldl, Int.cast_natCast]
  rfl

end ReceivedSums

def SummedExact (V : Type) [Field V] (sel : LineT) (sizes lens : List ℕ) : Prop :=
  ∀ (vs : List (List V)) (d : ℕ → V) (c : CounterT V) (accumulators : ℕ),
    vs.map List.length = lens → ReceivedSums sizes vs d c → EnergySummed accumulators c sel vs d

section summed

variable {sel : LineT} {sizes lens : List ℕ}

/-- With several sets, the mean of the first one counts for the time of the last one. -/
theorem SummedExact.length_eq_one [CharZero V] (h : SummedExact V sel sizes lens)
    (hpos : ∀ n ∈ lens, 0 < n) (hsets : sizes.length = lens.length) : lens.length = 1 := by
  have hvs : (lens.map fun n => List.replicate n (1 : V)).map List.length = lens := by
    simp [Function.comp_def]
  have hcount : (lens.map fun n => List.replicate n (1 : V)).length = lens.length :=
    List.length_map _
  -- only the first set takes any time
  obtain ⟨c, hc⟩ := exists_receivedSums (hsets.trans hcount.symm)
    (fun s => if s = 0 then (1 : V) else 0)
  obtain ⟨time, average, hdone⟩ := h _ _ c 0 hvs hc
  cases lens with
  | nil =>
    rw [hc.energy_eq] at hdone
    cases hdone
  | cons n lens =>
    by_contra hlen
    have hlast := hc.last_time (n := lens.length) (by simp) hdone
    have hne : lens.length ≠ 0 := by simpa using hlen
    have hn : (n : V) ≠ 0 := Nat.cast_ne_zero.mpr (hpos n (by simp)).ne'
    rw [if_neg hne, zero_mul, hcount, List.length_cons, List.range_succ_eq_map, List.map_cons,
      List.sum_cons, List.map_map, List.sum_eq_zero] at hlast
    · simp [mean, hn] at hlast
    · intro v hv
      obtain ⟨s, _, rfl⟩ := List.mem_map.mp hv
      simp

theorem summedExact_iff [CharZero V] (hpos : ∀ n ∈ lens, 0 < n)
    (hsets : sizes.length = lens.length) (sel : LineT) :
    SummedExact V sel sizes lens ↔ lens.length = 1 ∧ sizes = lens := by
  constructor
  · intro h
    have hone := h.length_eq_one hpos hsets
    refine ⟨hone, ?_⟩
    obtain ⟨n, rfl⟩ := List.length_eq_one_iff.mp hone
    obtain ⟨size, rfl⟩ := List.length_eq_one_iff.mp (hsets.trans hone)
    have hn := hpos n (by simp)
    -- the last value that is sent is the only one
    have hlen : (List.replicate (n - 1) (0 : V) ++ [1]).length = n := by
      simp
      omega
    obtain ⟨c, hc⟩ : ∃ c, ReceivedSums [size] [List.replicate (n - 1) (0 : V) ++ [1]] _ c :=
      exists_receivedSums rfl (fun _ => 1)
    obtain ⟨time, average, hdone⟩ := h _ _ c 0 (by rw [List.map_singleton, hlen]) hc
    have hle := hc.single_le hdone
    rw [hlen] at hle
    rw [hc.single_eq (by rw [hlen]; exact hle)] at hdone
    obtain ⟨-, -, henergy⟩ := EnergyReport.aggregate.inj (Option.some.inj (Outcome.done.inj hdone))
    rcases Nat.lt_or_ge size n with hlt | hge
    · have htake : (List.replicate (n - 1) (0 : V) ++ [1]).take size = List.replicate size 0 := by
        rw [List.take_append_of_le_length (by simp; omega), List.take_replicate,
          Nat.min_eq_left (by omega)]
      rw [htake] at henergy
      have hn' : (n : V) ≠ 0 := Nat.cast_ne_zero.mpr hn.ne'
      have hzero : (n : V) = 0 := by simpa [mean, hlen] using henergy.symm
      exact absurd hzero hn'
    · rw [Nat.le_antisymm hle hge]
  · rintro ⟨hone, rfl⟩ vs d c accumulators hlen hc
    obtain ⟨v, rfl⟩ : ∃ v, vs = [v] := by
      rw [← List.length_eq_one_iff, ← List.length_map (f := List.length), hlen, hone]
    obtain rfl : sizes = [v.length] := hlen.symm
    refine ⟨d 0, mean v, ?_⟩
    rw [hc.single_eq le_rfl, List.take_length, ← mean]
    simp [mul_comm]

end summed

/-- About every reply of one shape, of either server, whose processed sets have samples: the
figures of the lines are right exactly when none is printed, or one set is processed, which is
sent whole and where the stride finds it; the energy of the aggregate is right exactly for one
set that is sent whole. -/
theorem energy_perSet_iff [CharZero V] (order : ReplyOrder) (m sel : LineT) (nLines : ℕ)
    (sizes lens : List ℕ) (set : ℤ) (hsets : sizes.length = lens.length)
    (hsel : ∀ l : ℕ, l < 128 → sel.isSet l = true → l < nLines)
    (hset : ValidSet lens.length set)
    (hpos : ∀ s ∈ setIndices lens.length set, 0 < lens.getD s 0) :
    (ShapeExact V order m sel nLines sizes lens set ↔ (sel.and m).lines nLines = [] ∨
      (set = -1 → lens.length ≤ 1) ∧
      ∀ s ∈ setIndices lens.length set, sizes.getD s 0 = lens.getD s 0 ∧
        ∀ l ∈ (sel.and m).lines nLines,
          order.Met (m.lines nLines).length sizes lens s (m.rank l)) ∧
    (set = -1 → (SummedExact V sel sizes lens ↔ lens.length = 1 ∧ sizes = lens)) := by
  refine ⟨shapeExact_iff hsel hset hsets hpos,
    fun hall => summedExact_iff (fun n hn => ?_) hsets sel⟩
  obtain ⟨s, hs⟩ := List.getElem?_of_mem hn
  have hlt := (List.getElem?_eq_some_iff.mp hs).1
  have hsample := hpos s (by rw [setIndices, if_pos hall]; exact List.mem_range.mpr hlt)
  rwa [List.getD_eq_getElem?_getD, hs, Option.getD_some] at hsample

end aggregate

/-- Of two sets on two lines, the first one is sent whole and the second one is short. The first
line of the first set is right; and so is the sum of a single set. -/
theorem energy_perSet_firstSet :
    ShapeExact ℚ .setBySet firstTwoLines firstLine 2 [2, 2] [2, 1] 0 ∧
      SummedExact ℚ firstLine [2] [2] := by
  have hfirst := energy_perSet_iff (V := ℚ) .setBySet firstTwoLines firstLine 2 [2, 2] [2, 1] 0
    rfl (by decide) (.inr (by decide)) (by decide)
  have hsum := energy_perSet_iff (V := ℚ) .setBySet firstTwoLines firstLine 2 [2] [2] (-1)
    rfl (by decide) (.inl rfl) (by decide)
  refine ⟨hfirst.1.mpr (.inr ⟨nofun, ?_⟩), (hsum.2 rfl).mpr ⟨rfl, rfl⟩⟩
  unfold ReplyOrder.Met
  decide

def timedWindows : List (List (ℕ → ℚ)) := [[fun _ => 5], [fun _ => 6]]

def timedDurations (s : ℕ) : ℚ := s + 1

def timedSums : CounterT ℚ := { timedSets with aggregate := true }

theorem time_timedSets (s : ℕ) (hs : s < 2) : timedSets.time s = .done (timedDurations s) := by
  obtain rfl | rfl : s = 0 ∨ s = 1 := by omega
  · decide +kernel
  · decide +kernel

theorem received_timedSets :
    Received .setBySet firstLine 1 [1, 1] timedWindows timedDurations timedSets :=
  ⟨rfl, rfl, ⟨by decide +kernel, rfl, ⟨by decide, rfl⟩, rfl, rfl⟩, time_timedSets⟩

theorem received_timedSums : ReceivedSums [1, 1] [[5], [6]] timedDurations timedSums :=
  ⟨rfl, rfl, ⟨by decide, rfl⟩, rfl, time_timedSets⟩

/-- Two sets of one sample each on one line: the second one is said to have both samples. -/
theorem energy_perSet_fails :
    Received .setBySet firstLine 1 [1, 1] timedWindows timedDurations timedSets ∧
    pmCalculateEnergy 1 timedSets firstLine (-1) =
      .done (some (.lines [0] [([⟨0, 1, 5, 5⟩], 5), ([⟨0, 2, 11, 22⟩], 22)])) ∧
    pmCalculateEnergy 1 timedSets firstLine 1 =
      .done (some (.lines [0] [([⟨0, 2, 6, 12⟩], 12)])) ∧
    ¬ EnergyExact 1 timedSets firstLine (-1) [0] timedWindows timedDurations ∧
    ReceivedSums [1, 1] [[5], [6]] timedDurations timedSums ∧
    pmCalculateEnergy 1 timedSums firstLine (-1) = .done (some (.aggregate 2 11 22)) ∧
    ¬ EnergySummed 1 timedSums firstLine [[5], [6]] timedDurations := by
  have hall : pmCalculateEnergy 1 timedSets firstLine (-1) =
      .done (some (.lines [0] [([⟨0, 1, 5, 5⟩], 5), ([⟨0, 2, 11, 22⟩], 22)])) := by
    decide +kernel
  have hsum : pmCalculateEnergy 1 timedSums firstLine (-1) =
      .done (some (.aggregate 2 11 22)) := by
    decide +kernel
  refine ⟨received_timedSets, hall, by decide +kernel, ?_, received_timedSums, hsum, ?_⟩
  · rintro ⟨report, hreport, hexact⟩
    rw [hall] at hreport
    obtain ⟨_, rfl⟩ := EnergyReport.lines.inj (Option.some.inj (Outcome.done.inj hreport))
    revert hexact
    decide +kernel
  · rintro ⟨time, average, hreport⟩
    rw [hsum] at hreport
    injection Option.some.inj (Outcome.done.inj hreport) with _ _ henergy
    revert henergy
    decide +kernel

end PMLib
