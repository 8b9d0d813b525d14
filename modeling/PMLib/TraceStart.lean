import PMLib.SetArguments
import Mathlib.Algebra.Field.Rat
import Mathlib.Algebra.BigOperators.Group.Finset.Basic

/-! # Where the trace of one set starts

The first record of a set carries what a loop over the times has added up. Its bound counts
entries, and the pass for `i` reads the pair of set `i`. -/
namespace PMLib

variable {V : Type}

def CounterT.keepTimes (c : CounterT V) (n : ℕ) : CounterT V :=
  { c with timing := c.timing.take (2 * n) }

section head

variable [Zero V] [Add V] [Sub V] [Mul V] [Div V] [IntCast V] {c : CounterT V} {sel : LineT}

omit [Zero V] [Sub V] [Mul V] [Div V] [IntCast V] in
private theorem head_zip_iterate {α : Type} {as : List α} {start inc : V} {p : α × V}
    (h : (as.zip (List.iterate (· + inc) start as.length)).head? = some p) : p.2 = start := by
  cases as with
  | nil => cases h
  | cons a as =>
    obtain rfl := Option.some.inj h
    rfl

omit [Sub V] [Mul V] [Div V] [IntCast V] in
private theorem paraverRow_time {tm : V} {row : List (ℕ × V)} {r : TraceRecord V}
    (h : r ∈ paraverRow tm row) : r.time = tm := by
  rcases List.mem_append.mp h with h | h
  · obtain ⟨cell, _, rfl⟩ := List.mem_map.mp h
    rfl
  · obtain rfl := List.mem_singleton.mp h
    rfl

theorem paraver_head {unit : TimeUnit} {set : ℤ} {trace : ParaverTrace V} {r : TraceRecord V}
    (h : pmPrintDataParaver unit c sel set = .done (some trace))
    (hr : trace.records.head? = some r) : paraverStart c set = .done r.time := by
  obtain ⟨times, _, h⟩ := Outcome.bind_eq_done.mp h
  split_ifs at h
  · cases h
  · obtain ⟨start, hstart, h⟩ := Outcome.bind_eq_done.mp h
    obtain ⟨sets, _, h⟩ := Outcome.bind_eq_done.mp h
    obtain rfl := Option.some.inj (Outcome.done.inj h)
    rw [List.head?_map, Option.map_eq_some_iff] at hr
    obtain ⟨p, hp, rfl⟩ := hr
    rw [hstart, head_zip_iterate hp]
  · obtain ⟨t, _, h⟩ := Outcome.bind_eq_done.mp h
    obtain ⟨tables, _, h⟩ := Outcome.bind_eq_done.mp h
    obtain ⟨start, hstart, h⟩ := Outcome.bind_eq_done.mp h
    obtain rfl := Option.some.inj (Outcome.done.inj h)
    generalize hrows : tables.flatMap SetTable.rows = rows at hr
    cases rows with
    | nil => cases hr
    | cons row rows =>
      have hmem : r ∈ paraverRow start row := by
        rw [List.length_cons, List.iterate, List.zip_cons_cons, List.map_cons,
          List.flatten_cons, List.head?_append] at hr
        cases hhead : (paraverRow start row).head? with
        | none => simp [paraverRow] at hhead
        | some r' =>
          rw [hhead, Option.some_or] at hr
          exact List.mem_of_head? (hhead.trans hr)
      rw [hstart, paraverRow_time hmem]

end head

section field

variable [Field V]

/-- The trace of set `s` starts at the total duration of the sets before, in the unit, and
the times of these sets are enough to compute it. -/
structure OwnStart (unit : TimeUnit) (c : CounterT V) (sel : LineT) (s : ℕ) : Prop where
  own : (paraverStart (c.keepTimes s) s).Returns
  time : ∀ (f : ℤ) (d : ℕ → V) trace r, unit.factor = some f → (∀ i < s, c.time i = .done (d i)) →
    pmPrintDataParaver unit c sel s = .done (some trace) → trace.records.head? = some r →
      r.time = (∑ i ∈ Finset.range s, d i) * f

theorem paraver_head_time {unit : TimeUnit} {c : CounterT V} {sel : LineT} {s : ℕ} {d : ℕ → V}
    {trace : ParaverTrace V} {r : TraceRecord V} (hd : ∀ i < 2 * s, c.time i = .done (d i))
    (h : pmPrintDataParaver unit c sel s = .done (some trace))
    (hr : trace.records.head? = some r) : r.time = ∑ i ∈ Finset.range (2 * s), d i := by
  have htotal : ∀ n ≤ 2 * s, c.totalTime n = .done (∑ i ∈ Finset.range n, d i) := by
    intro n hn
    rw [CounterT.totalTime, Int.toNat_natCast]
    induction n with
    | zero => rfl
    | succ n ih =>
      rw [List.range_succ, List.foldlM_append, ih (by omega), Outcome.done_bind,
        List.foldlM_cons, hd n (by omega), Finset.sum_range_succ]
      rfl
  have hstart := paraver_head h hr
  rw [paraverStart, if_neg (by omega), show (s : ℤ) * 2 = ((2 * s : ℕ) : ℤ) by omega,
    htotal _ (Nat.le_refl _)] at hstart
  exact (Outcome.done.inj hstart).symm

/-- Only the first set starts at its own time. -/
theorem paraver_ownStart_iff (unit : TimeUnit) (c : CounterT V) (sel : LineT) (s : ℕ) :
    OwnStart unit c sel s ↔ s = 0 := by
  constructor
  · rintro ⟨hown, _⟩
    by_contra hs
    rw [paraverStart, if_neg (by omega), CounterT.totalTime, Outcome.returns_foldlM
      (P := fun i : ℕ => ((c.keepTimes s).time i).Returns)
      fun _ _ _ => Outcome.returns_bind_done] at hown
    -- the pass for `i = s` reads the pair of set `s`
    have hpass := (hown s (List.mem_range.mpr (by omega))).of_bind.of_bind
    rw [Counter.returns_readAt, CounterT.keepTimes, List.length_take] at hpass
    omega
  · rintro rfl
    refine ⟨⟨0, rfl⟩, fun f d trace r _ _ h hr => ?_⟩
    have hstart := paraver_head h hr
    rw [Finset.sum_range_zero, zero_mul]
    exact (Outcome.done.inj hstart).symm

end field

/-- One line, two sets of one sample each, of one and of two seconds. -/
def timedSets : CounterT ℚ :=
  ⟨false, firstLine, 2, [some 0, some 1, some 2, some 4], ⟨2, 3, 1, [0, 1, 2], [5, 6]⟩⟩

/-- The second set should start after 10 ^ 9 ns. -/
theorem paraver_ownStart_fails : ∃ trace r,
    pmPrintDataParaver .ns timedSets firstLine 1 = .done (some trace) ∧
      trace.records.head? = some r ∧ r.time = 3 ∧ ¬ OwnStart .ns timedSets firstLine 1 := by
  have hprint : (pmPrintDataParaver .ns timedSets firstLine 1).check (fun trace =>
      trace.any fun trace => trace.records.head?.any fun r => r.time == 3) = true := by
    decide +kernel
  obtain ⟨printed, hprinted, hsome⟩ := Outcome.check_eq_true.mp hprint
  obtain ⟨trace, htrace, hhead⟩ := (Option.any_eq_true _ _).mp hsome
  obtain ⟨r, hr, hthree⟩ := (Option.any_eq_true _ _).mp hhead
  rw [htrace] at hprinted
  have htime : r.time = 3 := by simpa using hthree
  refine ⟨trace, r, hprinted, hr, htime, fun h => ?_⟩
  have hfirst : timedSets.time (0 : ℕ) = .done 1 := by decide +kernel
  have hone := h.time 1000000000 (fun _ => 1) trace r rfl
    (fun i hi => by rwa [Nat.lt_one_iff.mp hi]) hprinted hr
  rw [htime, Finset.sum_range_one] at hone
  norm_num at hone

end PMLib
