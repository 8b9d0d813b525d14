import PMLib.Device
import PMLib.Lib.Binary64
import PMLib.Lib.Spsc
import PMLib.Lib.Strtod
import Mathlib.Data.List.DropRight
import Mathlib.Data.List.ReduceOption

/-! # The WattsUp sampler

The meter sends a status line every second. The producer thread reads line after line and
puts the watts of each into a queue, from which the consumer loop of the device stores them. -/
namespace PMLib

open Strtod (Value strtod number strtod_of_number)
open Binary64 (TenthExact)

/-- `stod`. Whether a finite value is out of range is the library's to say. -/
def stod (erange : ℚ → Bool) (s : List Char) : Outcome Value :=
  match strtod s with
  | none => .failed
  | some (.finite q, _) => if erange q then .failed else .done (.finite (Binary64.ofRat q))
  | some (d, _) => .done d

namespace WattsUp

def isTrimmed (c : Char) : Bool := " \t\r\n;".toList.contains c

def trim (line : List Char) : List Char := (line.dropWhile isTrimmed).rdropWhile isTrimmed

def split (line : List Char) : List (List Char) := line.splitOn ','

def readLine (erange : ℚ → Bool) (line : List Char) : Outcome (Option Value) :=
  let vsample := split (trim line)
  if vsample.length = 21 then do
    let watts ← stod erange (vsample.getD 3 [])
    .done (some (watts.mapFinite fun x => Binary64.ofRat (x * Binary64.tenth)))
  else .done none

/-- Nothing is asked of `data_queue` here. -/
structure Sampler (Q : Spsc.Queue Value) where
  /-- The producer thread has not left `_readf`. -/
  reading : Bool
  dataQueue : Q.State
  working : Bool
  dev : Device Value
  yielded : List Value

section Sampler

variable {Q : Spsc.Queue Value}

def Sampler.start (queue : Q.State) (dev : Device Value) : Sampler Q :=
  ⟨true, queue, false, dev, []⟩

/-- The driver does not ask whether there was room. -/
def Sampler.yield (s : Sampler Q) (v : Value) : Sampler Q :=
  { s with dataQueue := Q.push s.dataQueue v, yielded := s.yielded ++ [v] }

/-- The exception is caught around `_readf`, outside of its loop. -/
def Sampler.receive (erange : ℚ → Bool) (s : Sampler Q) (line : List Char) : Sampler Q :=
  if s.reading then
    match readLine erange line with
    | .done (some v) => s.yield v
    | .done none => s
    | .failed | .undefined => { s with reading := false }
  else s

/-- One pass of the consumer loop. The driver has one line. -/
def Sampler.consume (s : Sampler Q) : Sampler Q :=
  match Q.pop s.dataQueue with
  | none => s
  | some (v, dataQueue) =>
    { s with dataQueue, dev := s.dev.pushBackData fun _ => v, working := true }

inductive Event where
  | receive (line : List Char)
  | consume
  deriving DecidableEq, Repr

def step (erange : ℚ → Bool) (s : Sampler Q) : Event → Sampler Q
  | .receive line => s.receive erange line
  | .consume => s.consume

def run (erange : ℚ → Bool) (queue : Q.State) (dev : Device Value) (es : List Event) :
    Sampler Q :=
  es.foldl (step erange) (.start queue dev)

end Sampler

def received (es : List Event) : List (List Char) :=
  es.filterMap fun e => match e with
    | .receive line => some line
    | .consume => none

/-! ## What is to be sampled -/

/-- A line of 21 fields with a number in the fourth gives this number, as a double, divided by
ten. -/
def sampleOf (line : List Char) : Option Value :=
  let fields := split (trim line)
  if fields.length = 21 then
    (number (fields.getD 3 [])).map fun q => .finite (Binary64.ofRat (Binary64.ofRat q / 10))
  else none

structure Sampled {Q : Spsc.Queue Value} (s : Sampler Q) (lines : List (List Char)) : Prop where
  yielded : s.yielded = lines.filterMap sampleOf
  reading : s.reading = true

/-- A line with 21 fields has a number in the fourth, the number is in range, and its product with
`1e-1` is its tenth. -/
def WellFormed (erange : ℚ → Bool) (line : List Char) : Prop :=
  (split (trim line)).length = 21 → ∃ q, number ((split (trim line)).getD 3 []) = some q ∧
    erange q = false ∧ TenthExact (Binary64.ofRat q)

/-! ## One line -/

section Lines

variable {erange : ℚ → Bool} {line : List Char}

theorem readLine_number {q : ℚ} (hfields : (split (trim line)).length = 21)
    (hq : number ((split (trim line)).getD 3 []) = some q) :
    readLine erange line = if erange q then .failed
      else .done (some (.finite (Binary64.ofRat (Binary64.ofRat q * Binary64.tenth)))) := by
  obtain ⟨rest, hs⟩ := strtod_of_number hq
  unfold readLine stod
  simp only [hfields, if_true, hs]
  split_ifs <;> rfl

theorem WellFormed.readLine (h : WellFormed erange line) :
    readLine erange line = .done (sampleOf line) := by
  by_cases hfields : (split (trim line)).length = 21
  · obtain ⟨q, hq, hrange, hexact⟩ := h hfields
    rw [readLine_number hfields hq, hrange, if_neg Bool.false_ne_true,
      (Binary64.mul_tenth_eq_iff q).mpr hexact, sampleOf]
    simp only [hfields, if_true, hq, Option.map_some]
  · simp [WattsUp.readLine, sampleOf, hfields]

/-- What a pass yields for 21 fields is a sample, whether or not there should be one. -/
theorem readLine_fields {o : Option Value} (h : readLine erange line = .done o) :
    o.isSome = true ↔ (split (trim line)).length = 21 := by
  unfold readLine at h
  by_cases hfields : (split (trim line)).length = 21
  · simp only [hfields, if_true, Outcome.bind_eq_done] at h
    obtain ⟨watts, -, h⟩ := h
    obtain rfl := Outcome.done.inj h
    simp [hfields]
  · simp only [hfields, if_false] at h
    obtain rfl := Outcome.done.inj h
    simp [hfields]

theorem isSome_of_sampleOf {o : Option Value} (h : readLine erange line = .done o)
    (hsample : (sampleOf line).isSome = true) : o.isSome = true := by
  rw [readLine_fields h]
  by_contra hfields
  simp [sampleOf, hfields] at hsample

theorem wellFormed_of_readLine (h : readLine erange line = .done (sampleOf line)) :
    WellFormed erange line := by
  intro hfields
  have hsample := (readLine_fields h).mpr hfields
  unfold sampleOf at hsample
  simp only [hfields, if_true, Option.isSome_map] at hsample
  obtain ⟨q, hq⟩ := Option.isSome_iff_exists.mp hsample
  rw [readLine_number hfields hq, sampleOf] at h
  simp only [hfields, if_true, hq, Option.map_some] at h
  split_ifs at h with hrange
  refine ⟨q, hq, by simpa using hrange, (Binary64.mul_tenth_eq_iff q).mp ?_⟩
  exact Value.finite.inj (Option.some.inj (Outcome.done.inj h))

end Lines

/-! ## Runs -/

section Runs

variable {Q : Spsc.Queue Value} {erange : ℚ → Bool} {queue : Q.State} {dev : Device Value}

theorem run_append (es : List Event) (e : Event) :
    run erange queue dev (es ++ [e]) = step erange (run erange queue dev es) e := by
  rw [run, List.foldl_append]
  rfl

theorem received_append (es : List Event) (e : Event) :
    received (es ++ [e]) = received es ++ received [e] := List.filterMap_append

theorem Sampler.consume_producer (s : Sampler Q) :
    s.consume.reading = s.reading ∧ s.consume.yielded = s.yielded := by
  unfold consume
  split <;> exact ⟨rfl, rfl⟩

theorem run_reading {es : List Event} (h : (run erange queue dev es).reading = true) :
    ∃ os, List.Forall₂ (fun line o => readLine erange line = .done o) (received es) os ∧
      (run erange queue dev es).yielded = os.reduceOption := by
  induction es using List.reverseRecOn with
  | nil => exact ⟨[], .nil, rfl⟩
  | append_singleton es e ih =>
    rw [run_append] at h ⊢
    rw [received_append]
    cases e with
    | consume =>
      obtain ⟨hreading, hyielded⟩ := (run erange queue dev es).consume_producer
      obtain ⟨os, hos, hout⟩ := ih (hreading.symm.trans h)
      exact ⟨os, by simpa [received] using hos, hyielded.trans hout⟩
    | receive line =>
      by_cases hr : (run erange queue dev es).reading = true
      · obtain ⟨os, hos, hout⟩ := ih hr
        rw [step, Sampler.receive, if_pos hr] at h ⊢
        cases hline : readLine erange line with
        | done o =>
          refine ⟨os ++ [o], List.rel_append hos (.cons hline .nil), ?_⟩
          rw [List.reduceOption_append, List.reduceOption_singleton]
          cases o with
          | none => simp [hout]
          | some v => simp [Sampler.yield, hout]
        | failed => simp [hline] at h
        | undefined => simp [hline] at h
      · rw [step, Sampler.receive, if_neg hr] at h
        exact absurd h hr

theorem sampled_of_wellFormed {es : List Event}
    (h : ∀ line ∈ received es, WellFormed erange line) :
    Sampled (run erange queue dev es) (received es) := by
  induction es using List.reverseRecOn with
  | nil => exact ⟨rfl, rfl⟩
  | append_singleton es e ih =>
    rw [received_append] at h ⊢
    obtain ⟨hyielded, hreading⟩ := ih fun line hl => h line (List.mem_append_left _ hl)
    rw [run_append]
    cases e with
    | consume =>
      obtain ⟨hreading', hyielded'⟩ := (run erange queue dev es).consume_producer
      exact ⟨hyielded'.trans (by simpa [received] using hyielded), hreading'.trans hreading⟩
    | receive line =>
      have hline := (h line (by simp [received])).readLine
      rw [step, Sampler.receive, if_pos hreading, hline]
      cases ho : sampleOf line with
      | none => exact ⟨by simp [received, hyielded, ho], hreading⟩
      | some v => exact ⟨by simp [received, hyielded, ho, Sampler.yield], hreading⟩

theorem length_yielded {lines : List (List Char)} {os : List (Option Value)}
    (h : List.Forall₂ (fun line o => readLine erange line = .done o) lines os) :
    (lines.filterMap sampleOf).length ≤ os.reduceOption.length := by
  induction h with
  | nil => exact le_rfl
  | @cons line o lines os hline _ ih =>
    cases hs : sampleOf line with
    | none =>
      rw [List.filterMap_cons_none hs]
      exact ih.trans ((List.sublist_cons_self o os).filterMap id).length_le
    | some v =>
      obtain ⟨w, rfl⟩ := Option.isSome_iff_exists.mp (isSome_of_sampleOf hline (by rw [hs]; rfl))
      rw [List.filterMap_cons_some hs, List.reduceOption_cons_of_some]
      exact Nat.succ_le_succ ih

theorem wellFormed_of_yielded {lines : List (List Char)} {os : List (Option Value)}
    (h : List.Forall₂ (fun line o => readLine erange line = .done o) lines os)
    (heq : os.reduceOption = lines.filterMap sampleOf) :
    ∀ line ∈ lines, WellFormed erange line := by
  induction h with
  | nil => exact nofun
  | @cons line o lines os hline hrest ih =>
    have hlen := length_yielded hrest
    cases hs : sampleOf line with
    | some v =>
      obtain ⟨w, rfl⟩ := Option.isSome_iff_exists.mp (isSome_of_sampleOf hline (by rw [hs]; rfl))
      rw [List.filterMap_cons_some hs, List.reduceOption_cons_of_some, List.cons.injEq] at heq
      rw [heq.1, ← hs] at hline
      exact List.forall_mem_cons.mpr ⟨wellFormed_of_readLine hline, ih heq.2⟩
    | none =>
      rw [List.filterMap_cons_none hs] at heq
      cases o with
      | some w =>
        have := congrArg List.length heq
        rw [List.reduceOption_cons_of_some, List.length_cons] at this
        omega
      | none =>
        rw [List.reduceOption_cons_of_none] at heq
        rw [← hs] at hline
        exact List.forall_mem_cons.mpr ⟨wellFormed_of_readLine hline, ih heq⟩

end Runs

/-- In every run of the threads, each state has sampled what it should and reads on, exactly
when every line received so far that has 21 fields has a number in its fourth whose product with
`1e-1` is its tenth. -/
theorem sampler_reads_on_iff {Q : Spsc.Queue Value} (erange : ℚ → Bool) (queue : Q.State)
    (dev : Device Value) (es : List Event) :
    (∀ pre, pre <+: es → Sampled (run erange queue dev pre) (received pre)) ↔
      ∀ line ∈ received es, WellFormed erange line := by
  constructor
  · intro h
    obtain ⟨hyielded, hreading⟩ := h es (List.prefix_refl es)
    obtain ⟨os, hos, hout⟩ := run_reading hreading
    exact wellFormed_of_yielded hos (hout.symm.trans hyielded)
  · rintro h pre hpre
    refine sampled_of_wellFormed fun line hl => h line ?_
    exact (hpre.filterMap _).subset hl

/-- A status line whose fourth field was lost ends the sampling, and the line behind it is
not read. Of a field that a letter ends, the digits in front are sampled; and of 3 the sample is
not the double 0.3 but the next one. -/
theorem sampler_reads_on_fails :
    let lost := "#d,-,18,,0,0,0,0,0,0,0,0,0,0,0,0,0,0,0,0,0;".toList
    let good := "#d,-,18,605 ,0,0,0,0,0,0,0,0,0,0,0,0,0,0,0,0,0;".toList
    let torn := "#d,-,18,6x5,0,0,0,0,0,0,0,0,0,0,0,0,0,0,0,0,0;".toList
    let three := "#d,-,18,3,0,0,0,0,0,0,0,0,0,0,0,0,0,0,0,0,0;".toList
    let after := fun es =>
      run (Q := Spsc.listQueue Value 10000) (fun _ => false) [] ⟨[], 1, 1, ∅, ∅⟩ es
    sampleOf lost = none ∧ sampleOf good = some (.finite (121 / 2)) ∧ sampleOf torn = none ∧
    sampleOf three = some (.finite (5404319552844595 / 2 ^ 54)) ∧
    (after [.receive good, .consume]).working = true ∧
    (after [.receive good, .consume]).yielded = [.finite (121 / 2)] ∧
    (after [.receive lost, .receive good]).reading = false ∧
    (after [.receive lost, .receive good]).yielded = [] ∧
    (after [.receive torn]).yielded = [.finite (5404319552844596 / 2 ^ 53)] ∧
    (after [.receive three]).yielded = [.finite (5404319552844596 / 2 ^ 54)] := by
  decide +kernel

end WattsUp

end PMLib
