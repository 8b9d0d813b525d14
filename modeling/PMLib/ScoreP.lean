import PMLib.ReplyLayout
import PMLib.Stretches

/-! # The Score-P plugin

The plugin hands the samples of a counter to Score-P with times of its clock. A call stops the
counter, gets its data, starts it again, and spreads the samples over the time since the call
before. -/
namespace PMLib.ScoreP

variable {V : Type}

structure TimeValuePair (V : Type) where
  timestamp : UInt64
  value : V
  deriving DecidableEq, Repr

/-- `results[i]`, in memory that was allocated and not written. -/
def put (results : List (Option (TimeValuePair V))) (i : ℤ) (p : TimeValuePair V) :
    Outcome (List (Option (TimeValuePair V))) :=
  if 0 ≤ i ∧ i < results.length then .done (results.set i.toNat (some p)) else .undefined

/-- One sample. The times are those of an unsigned type. -/
def fillSample (start incTime : UInt64) (e : GetReply V) (ini : ℤ)
    (results : List (Option (TimeValuePair V))) (n : ℕ) :
    Outcome (List (Option (TimeValuePair V))) := do
  let v ← Counter.readAt e.watts (ini + n)
  put results (ini + n) ⟨start + incTime * UInt64.ofNat n, v⟩

/-- The samples of set `s`. A set without samples divides by zero. -/
def fillSet (start stop : UInt64) (e : GetReply V) (results : List (Option (TimeValuePair V)))
    (s : ℕ) : Outcome (List (Option (TimeValuePair V))) := do
  let ini ← Counter.readAt e.wattsSets s
  let fin ← Counter.readAt e.wattsSets (s + 1)
  if fin = ini then .undefined
  else
    (List.range (fin - ini).toNat).foldlM
      (fillSample start ((stop - start) / UInt64.ofInt (fin - ini)) e ini) results

/-- `get_all_values`, behind the three requests, between two times of the clock. One more element
than there are values is allocated. -/
def getAllValues [Zero V] (start stop : UInt64) (e : GetReply V) :
    Outcome (List (TimeValuePair V)) :=
  if e.wattsSize = 0 then .done []
  else if e.wattsSize < 0 then .undefined
  else do
    let count := e.wattsSize.toNat
    let results ← (List.range (e.wattsSetsSize - 1).toNat).foldlM (fillSet start stop e)
      (List.replicate count none ++ [some ⟨0, 0⟩])
    (results.take count).mapM Outcome.ofOption

/-- What the plugin keeps between two calls, and what it has handed out, call by call. -/
structure Plugin (V : Type) where
  timerStart : UInt64
  handed : List (List (TimeValuePair V))
  deriving DecidableEq, Repr

/-- A call at `now`, when the counter has sent `e`. Without values the time of the last call is
kept. -/
def Plugin.call [Zero V] (p : Plugin V) (now : UInt64) (e : GetReply V) : Outcome (Plugin V) := do
  let pairs ← getAllValues p.timerStart now e
  .done ⟨if e.wattsSize = 0 then p.timerStart else now, p.handed ++ [pairs]⟩

def Plugin.next [Zero V] (p : Plugin V) (call : UInt64 × GetReply V) : Outcome (Plugin V) :=
  p.call call.1 call.2

/-! ## Replies of one set -/

structure OneSet (e : GetReply V) : Prop where
  wattsSize : e.wattsSize = e.watts.length
  announces : Announces [e.watts.length] e
  fits : e.watts.length < 2 ^ 31

def spread (start stop : UInt64) (values : List V) : List (TimeValuePair V) :=
  values.zipIdx.map fun v =>
    ⟨start + (stop - start) / UInt64.ofNat values.length * UInt64.ofNat v.2, v.1⟩

def written (start incTime : UInt64) (watts : List V) (n : ℕ) : List (Option (TimeValuePair V)) :=
  ((watts.take n).zipIdx.map fun v => some ⟨start + incTime * UInt64.ofNat v.2, v.1⟩) ++
    List.replicate (watts.length - n) none

theorem put_written {start incTime : UInt64} {watts : List V} {n : ℕ} {v : V}
    (h : watts[n]? = some v) (last : Option (TimeValuePair V)) :
    put (written start incTime watts n ++ [last]) ((0 : ℤ) + n)
        ⟨start + incTime * UInt64.ofNat n, v⟩ =
      .done (written start incTime watts (n + 1) ++ [last]) := by
  obtain ⟨hlt, rfl⟩ := List.getElem?_eq_some_iff.mp h
  have hrest : watts.length - n = watts.length - (n + 1) + 1 := by omega
  have hlen : ((watts.take n).zipIdx.map fun v =>
      (some ⟨start + incTime * UInt64.ofNat v.2, v.1⟩ : Option (TimeValuePair V))).length = n := by
    simp
    omega
  have htake : (watts.take (n + 1)).zipIdx = (watts.take n).zipIdx ++ [(watts[n], n)] := by
    rw [List.take_succ_eq_append_getElem hlt, List.zipIdx_append]
    simp
    omega
  rw [put, if_pos ⟨by omega, by simp [written]; omega⟩, zero_add, Int.toNat_natCast, written,
    written, hrest, List.replicate_succ, List.append_assoc, List.set_append_right _ _ hlen.le, hlen,
    Nat.sub_self, List.cons_append, List.set_cons_zero, htake, List.map_append, List.map_singleton]
  simp

theorem fill_eq {e : GetReply V} {n : ℕ} (hn : n ≤ e.watts.length) (start incTime : UInt64)
    (last : Option (TimeValuePair V)) :
    (List.range n).foldlM (fillSample start incTime e 0)
        (List.replicate e.watts.length none ++ [last]) =
      .done (written start incTime e.watts n ++ [last]) := by
  induction n with
  | zero => rfl
  | succ n ih =>
    have hv := List.getElem?_eq_getElem hn
    have hread : Counter.readAt e.watts ((0 : ℤ) + n) = .done e.watts[n] := by
      rw [Counter.readAt, if_pos (by omega), zero_add, Int.toNat_natCast, hv]
      rfl
    rw [List.range_succ, List.foldlM_append, ih (by omega), Outcome.done_bind, List.foldlM_cons,
      fillSample, hread, Outcome.done_bind, put_written hv]
    rfl

theorem ofInt_natCast (n : ℕ) : UInt64.ofInt n = UInt64.ofNat n := by
  apply UInt64.toNat_inj.mp
  rw [UInt64.toNat_ofNat']
  simp [UInt64.ofInt]
  omega

theorem fillSet_eq {e : GetReply V} (h : OneSet e) (hpos : 0 < e.watts.length)
    (start stop : UInt64) (last : Option (TimeValuePair V)) :
    fillSet start stop e (List.replicate e.watts.length none ++ [last]) 0 =
      .done (written start ((stop - start) / UInt64.ofNat e.watts.length) e.watts
        e.watts.length ++ [last]) := by
  have hini : Counter.readAt e.wattsSets ((0 : ℕ) : ℤ) = .done 0 :=
    h.announces.readAt_wattsSets (s := 0) (by simp)
  have hfin : Counter.readAt e.wattsSets (((0 : ℕ) : ℤ) + 1) = .done (e.watts.length : ℤ) := by
    simpa [before] using h.announces.readAt_wattsSets (s := 1) (by simp)
  rw [fillSet, hini, Outcome.done_bind, hfin, Outcome.done_bind, if_neg (by omega), sub_zero,
    Int.toNat_natCast, ofInt_natCast]
  exact fill_eq le_rfl start _ last

theorem written_length (start incTime : UInt64) (watts : List V) :
    written start incTime watts watts.length =
      (watts.zipIdx.map fun v => ⟨start + incTime * UInt64.ofNat v.2, v.1⟩).map some := by
  rw [written, List.take_length, Nat.sub_self, List.replicate_zero, List.append_nil, List.map_map]
  rfl

theorem getAllValues_eq [Zero V] {e : GetReply V} (h : OneSet e) (start stop : UInt64) :
    getAllValues start stop e = .done (spread start stop e.watts) := by
  rw [getAllValues, h.wattsSize]
  rcases Nat.eq_zero_or_pos e.watts.length with hzero | hpos
  · rw [if_pos (by omega), List.length_eq_zero_iff.mp hzero]
    rfl
  · rw [if_neg (by omega), if_neg (by omega), h.announces.wattsSetsSize, Int.toNat_natCast]
    have hsets : (List.range (([e.watts.length].length : ℤ) + 1 - 1).toNat) = [0] := rfl
    have htake : (written start ((stop - start) / UInt64.ofNat e.watts.length) e.watts
        e.watts.length ++ [some (⟨0, 0⟩ : TimeValuePair V)]).take e.watts.length =
          (spread start stop e.watts).map some := by
      rw [written_length, List.take_left' (by simp)]
      rfl
    simp only [hsets]
    rw [List.foldlM_cons, fillSet_eq h hpos, Outcome.done_bind, List.foldlM_nil,
      Outcome.pure_done, Outcome.done_bind, htake, List.mapM_map]
    exact (Outcome.mapM_eq_map (g := id) fun _ _ => rfl).trans (by rw [List.map_id])

/-! ## Times -/

theorem spread_value (start stop : UInt64) (values : List V) :
    (spread start stop values).map TimeValuePair.value = values := by
  rw [spread, List.map_map]
  exact List.zipIdx_map_fst 0 values

theorem spread_getElem? {start stop : UInt64} {values : List V} {i : ℕ} {v : TimeValuePair V}
    (hv : (spread start stop values)[i]? = some v) : i < values.length ∧
      v.timestamp = start + (stop - start) / UInt64.ofNat values.length * UInt64.ofNat i := by
  rw [spread, List.getElem?_map, List.getElem?_zipIdx, Option.map_map] at hv
  obtain ⟨x, hx, rfl⟩ := Option.map_eq_some_iff.mp hv
  exact ⟨(List.getElem?_eq_some_iff.mp hx).1, by simp⟩

theorem spread_toNat {start stop : UInt64} (h : start ≤ stop) {values : List V}
    (hfit : values.length < 2 ^ 31) {i : ℕ} {v : TimeValuePair V}
    (hv : (spread start stop values)[i]? = some v) : v.timestamp.toNat =
      start.toNat + (stop.toNat - start.toNat) / values.length * i ∧ v.timestamp ≤ stop := by
  obtain ⟨hi, htime⟩ := spread_getElem? hv
  have hle : start.toNat ≤ stop.toNat := UInt64.le_iff_toNat_le.mp h
  have hstop := stop.toNat_lt
  have hmul : (stop.toNat - start.toNat) / values.length * i ≤ stop.toNat - start.toNat :=
    (Nat.mul_le_mul_left _ hi.le).trans (Nat.div_mul_le_self _ _)
  have hsub : (stop - start).toNat = stop.toNat - start.toNat :=
    UInt64.toNat_sub_of_le _ _ h
  have heq : v.timestamp.toNat =
      start.toNat + (stop.toNat - start.toNat) / values.length * i := by
    rw [htime, UInt64.toNat_add, UInt64.toNat_mul, UInt64.toNat_div, hsub, UInt64.toNat_ofNat',
      UInt64.toNat_ofNat', Nat.mod_eq_of_lt (a := values.length) (by omega),
      Nat.mod_eq_of_lt (a := i) (by omega), Nat.mod_eq_of_lt (a := _ * i) (by omega),
      Nat.mod_eq_of_lt (by omega)]
  exact ⟨heq, UInt64.le_iff_toNat_le.mpr (by omega)⟩

structure Between (start stop : UInt64) (pairs : List (TimeValuePair V)) : Prop where
  sorted : (pairs.map TimeValuePair.timestamp).Pairwise (· ≤ ·)
  ge : ∀ v ∈ pairs, start ≤ v.timestamp
  le : ∀ v ∈ pairs, v.timestamp ≤ stop

theorem spread_between {start stop : UInt64} (h : start ≤ stop) {values : List V}
    (hfit : values.length < 2 ^ 31) : Between start stop (spread start stop values) := by
  refine ⟨List.pairwise_iff_getElem.mpr fun i j hi hj hij => ?_, fun v hv => ?_, fun v hv => ?_⟩
  · rw [List.getElem_map, List.getElem_map]
    have hv := (spread_toNat h hfit (List.getElem?_eq_getElem (by simpa using hi))).1
    have hw := (spread_toNat h hfit (List.getElem?_eq_getElem (by simpa using hj))).1
    rw [UInt64.le_iff_toNat_le, hv, hw]
    exact Nat.add_le_add_left (Nat.mul_le_mul_left _ hij.le) _
  · obtain ⟨i, hi⟩ := List.getElem?_of_mem hv
    rw [UInt64.le_iff_toNat_le, (spread_toNat h hfit hi).1]
    exact Nat.le_add_right _ _
  · obtain ⟨i, hi⟩ := List.getElem?_of_mem hv
    exact (spread_toNat h hfit hi).2

def lastCall (start : UInt64) (calls : List (UInt64 × GetReply V)) : UInt64 :=
  calls.foldl (fun t call => if call.2.watts = [] then t else call.1) start

/-! ## Runs -/

/-- Call after call. The values are handed with times between the last call with values and this
one. -/
structure Handed (start : UInt64) (calls : List (UInt64 × GetReply V)) (p : Plugin V) : Prop where
  timerStart : p.timerStart = lastCall start calls
  values : p.handed.map (List.map TimeValuePair.value) = calls.map fun call => call.2.watts
  times : ∀ i call batch, calls[i]? = some call → p.handed[i]? = some batch →
    batch = spread (lastCall start (calls.take i)) call.1 call.2.watts
  between : ∀ i call batch, calls[i]? = some call → p.handed[i]? = some batch →
    Between (lastCall start (calls.take i)) call.1 batch
  sorted : (p.handed.flatten.map TimeValuePair.timestamp).Pairwise (· ≤ ·)
  le : ∀ v ∈ p.handed.flatten, v.timestamp ≤ p.timerStart

theorem lastCall_append (start : UInt64) (calls calls' : List (UInt64 × GetReply V)) :
    lastCall start (calls ++ calls') = lastCall (lastCall start calls) calls' := List.foldl_append

theorem le_lastCall_singleton {t : UInt64} {call : UInt64 × GetReply V} (h : t ≤ call.1) :
    t ≤ lastCall t [call] := by
  rw [lastCall, List.foldl_cons, List.foldl_nil]
  split_ifs
  · exact UInt64.le_refl _
  · exact h

theorem lastCall_snoc (start : UInt64) (calls : List (UInt64 × GetReply V))
    (call : UInt64 × GetReply V) : lastCall start (calls ++ [call]) =
      if call.2.watts = [] then lastCall start calls else call.1 := by
  rw [lastCall_append]
  rfl

theorem lastCall_mem (start : UInt64) (calls : List (UInt64 × GetReply V)) :
    lastCall start calls ∈ start :: calls.map Prod.fst := by
  induction calls using List.reverseRecOn with
  | nil => simp [lastCall]
  | append_singleton calls call ih =>
    rw [lastCall_snoc, List.map_append, List.map_singleton, ← List.cons_append, List.mem_append]
    split_ifs
    · exact .inl ih
    · exact .inr (by simp)

namespace Handed

variable {start : UInt64} {calls : List (UInt64 × GetReply V)} {p : Plugin V}
  {call : UInt64 × GetReply V}

theorem length (h : Handed start calls p) : p.handed.length = calls.length := by
  simpa using congrArg List.length h.values

theorem snoc (h : Handed start calls p) (hone : OneSet call.2) (hclock : p.timerStart ≤ call.1) :
    Handed start (calls ++ [call]) ⟨lastCall p.timerStart [call],
      p.handed ++ [spread p.timerStart call.1 call.2.watts]⟩ := by
  have hbetween := spread_between hclock hone.fits
  have hle : p.timerStart ≤ lastCall p.timerStart [call] := le_lastCall_singleton hclock
  have hcases : ∀ i c batch, (calls ++ [call])[i]? = some c →
      (p.handed ++ [spread p.timerStart call.1 call.2.watts])[i]? = some batch →
      batch = spread (lastCall start ((calls ++ [call]).take i)) c.1 c.2.watts ∧
        Between (lastCall start ((calls ++ [call]).take i)) c.1 batch := by
    intro i c batch hc hb
    rcases Nat.lt_or_ge i calls.length with hlt | hge
    · rw [List.getElem?_append_left hlt] at hc
      rw [List.getElem?_append_left (h.length ▸ hlt)] at hb
      rw [List.take_append_of_le_length hlt.le]
      exact ⟨h.times i c batch hc hb, h.between i c batch hc hb⟩
    · have hi : i < (calls ++ [call]).length := (List.getElem?_eq_some_iff.mp hc).1
      obtain rfl : i = calls.length := by simp at hi; omega
      obtain rfl : call = c := by simpa using hc
      rw [← h.length, List.getElem?_concat_length] at hb
      obtain rfl := Option.some.inj hb
      rw [List.take_left' rfl, ← h.timerStart]
      exact ⟨rfl, hbetween⟩
  constructor
  · rw [h.timerStart, lastCall_append]
  · rw [List.map_append, List.map_append, h.values, List.map_singleton, List.map_singleton,
      spread_value]
  · exact fun i c batch hc hb => (hcases i c batch hc hb).1
  · exact fun i c batch hc hb => (hcases i c batch hc hb).2
  · rw [List.flatten_append, List.flatten_singleton, List.map_append, List.pairwise_append]
    refine ⟨h.sorted, hbetween.sorted, fun s hs t ht => ?_⟩
    obtain ⟨v, hv, rfl⟩ := List.mem_map.mp hs
    obtain ⟨w, hw, rfl⟩ := List.mem_map.mp ht
    exact UInt64.le_trans (h.le v hv) (hbetween.ge w hw)
  · intro v hv
    rw [List.flatten_append, List.flatten_singleton, List.mem_append] at hv
    cases hv with
    | inl hv => exact UInt64.le_trans (h.le v hv) hle
    | inr hv =>
      have hne : call.2.watts ≠ [] := by
        intro hnil
        rw [hnil] at hv
        cases hv
      simpa [lastCall, hne] using hbetween.le v hv

end Handed

theorem Plugin.next_eq [Zero V] {p : Plugin V} {call : UInt64 × GetReply V} (h : OneSet call.2) :
    p.next call = .done ⟨lastCall p.timerStart [call],
      p.handed ++ [spread p.timerStart call.1 call.2.watts]⟩ := by
  rw [Plugin.next, Plugin.call, getAllValues_eq h, Outcome.done_bind, h.wattsSize]
  simp [lastCall]

theorem exec_handed [Zero V] {start : UInt64} {calls : List (UInt64 × GetReply V)}
    (hone : ∀ call ∈ calls, OneSet call.2)
    (hclock : (start :: calls.map Prod.fst).Pairwise (· ≤ ·)) :
    ∃ p, Trace.exec Plugin.next ⟨start, []⟩ calls = .done p ∧ Handed start calls p := by
  induction calls using List.reverseRecOn with
  | nil => exact ⟨_, rfl, rfl, rfl, by simp, by simp, by simp, by simp⟩
  | append_singleton calls call ih =>
    rw [List.map_append, List.map_singleton, ← List.cons_append, List.pairwise_append] at hclock
    obtain ⟨hbefore, -, hlast⟩ := hclock
    obtain ⟨p, hp, hh⟩ := ih (fun c hc => hone c (by simp [hc])) hbefore
    have hcall := hone call (by simp)
    have hle : p.timerStart ≤ call.1 := by
      rw [hh.timerStart]
      exact hlast _ (lastCall_mem start calls) _ (by simp)
    exact ⟨_, (Trace.exec_snoc Plugin.next).mpr ⟨p, hp, Plugin.next_eq hcall⟩, hh.snoc hcall hle⟩

/-! ## Several counters

The time of the last call is one for all counters. -/

section counters

variable {start : UInt64} {calls own : List (UInt64 × GetReply V)} {call : UInt64 × GetReply V}

theorem lastCall_cases (start : UInt64) (calls : List (UInt64 × GetReply V)) :
    lastCall start calls = start ∨
      ∃ call ∈ calls, call.2.watts ≠ [] ∧ call.1 = lastCall start calls := by
  induction calls using List.reverseRecOn with
  | nil => exact .inl rfl
  | append_singleton calls call ih =>
    rw [lastCall_snoc]
    split_ifs with hnil
    · cases ih with
      | inl h => exact .inl h
      | inr h =>
        obtain ⟨c, hc, hfull, htime⟩ := h
        exact .inr ⟨c, by simp [hc], hfull, htime⟩
    · exact .inr ⟨call, by simp, hnil, rfl⟩

theorem le_lastCall (hclock : (start :: calls.map Prod.fst).Pairwise (· ≤ ·)) :
    start ≤ lastCall start calls ∧
      ∀ call ∈ calls, call.2.watts ≠ [] → call.1 ≤ lastCall start calls := by
  induction calls using List.reverseRecOn with
  | nil => exact ⟨UInt64.le_refl _, by simp⟩
  | append_singleton calls call ih =>
    rw [List.map_append, List.map_singleton, ← List.cons_append, List.pairwise_append] at hclock
    obtain ⟨hbefore, -, hlast⟩ := hclock
    obtain ⟨hstart, hle⟩ := ih hbefore
    have hcall : lastCall start calls ≤ call.1 := hlast _ (lastCall_mem start calls) _ (by simp)
    have hgrows : lastCall start calls ≤ lastCall start (calls ++ [call]) := by
      rw [lastCall_append]
      exact le_lastCall_singleton hcall
    refine ⟨UInt64.le_trans hstart hgrows, fun c hc hfull => ?_⟩
    cases List.mem_append.mp hc with
    | inl hc => exact UInt64.le_trans (hle c hc hfull) hgrows
    | inr hc =>
      obtain rfl := List.mem_singleton.mp hc
      rw [lastCall_snoc, if_neg hfull]
      exact UInt64.le_refl _

/-- Some of the calls have the same last time as all of them if no other one is later. -/
theorem lastCall_eq_iff (hclock : (start :: calls.map Prod.fst).Pairwise (· ≤ ·))
    (hsub : own.Sublist calls) : lastCall start calls = lastCall start own ↔
      ∀ call ∈ calls, call.2.watts ≠ [] → call.1 ≤ lastCall start own := by
  have hown : (start :: own.map Prod.fst).Pairwise (· ≤ ·) :=
    hclock.sublist ((hsub.map _).cons_cons start)
  constructor
  · intro heq
    rw [← heq]
    exact (le_lastCall hclock).2
  · intro hle
    apply UInt64.le_antisymm
    · cases lastCall_cases start calls with
      | inl h =>
        rw [h]
        exact (le_lastCall hown).1
      | inr h =>
        obtain ⟨call, hcall, hfull, htime⟩ := h
        rw [← htime]
        exact hle call hcall hfull
    · cases lastCall_cases start own with
      | inl h =>
        rw [h]
        exact (le_lastCall hclock).1
      | inr h =>
        obtain ⟨call, hcall, hfull, htime⟩ := h
        rw [← htime]
        exact (le_lastCall hclock).2 call (hsub.subset hcall) hfull

theorem spread_inj_iff {start start' stop : UInt64} {values : List V} :
    spread start stop values = spread start' stop values ↔ values = [] ∨ start = start' := by
  constructor
  · intro heq
    cases values with
    | nil => exact .inl rfl
    | cons v values =>
      have hhead := congrArg (List.head? ·) heq
      simpa [spread] using hhead
  · rintro (rfl | rfl)
    · rfl
    · rfl

def ownCalls (k : ℕ) (calls : List (ℕ × UInt64 × GetReply V)) : List (UInt64 × GetReply V) :=
  (calls.filter fun call => call.1 = k).map Prod.snd

/-- The values of a call get times since the last call for their own counter, in which they were
measured, if and only if no other counter has had values since. -/
theorem own_times_iff [Zero V] {calls : List (ℕ × UInt64 × GetReply V)}
    (hone : ∀ call ∈ calls, OneSet call.2.2)
    (hclock : (start :: calls.map fun call => call.2.1).Pairwise (· ≤ ·)) :
    ∃ p, Trace.exec Plugin.next ⟨start, []⟩ (calls.map Prod.snd) = .done p ∧
      ∀ i k now e batch, calls[i]? = some (k, now, e) → p.handed[i]? = some batch →
        (batch = spread (lastCall start (ownCalls k (calls.take i))) now e.watts ↔ e.watts = [] ∨
          ∀ call ∈ calls.take i, call.2.2.watts ≠ [] →
            call.2.1 ≤ lastCall start (ownCalls k (calls.take i))) := by
  have htimes : (calls.map Prod.snd).map Prod.fst = calls.map fun call => call.2.1 := List.map_map
  have hcalls : ∀ call ∈ calls.map Prod.snd, OneSet call.2 := by
    intro call hcall
    obtain ⟨c, hc, rfl⟩ := List.mem_map.mp hcall
    exact hone c hc
  obtain ⟨p, hp, hhanded⟩ := exec_handed hcalls (htimes ▸ hclock)
  refine ⟨p, hp, fun i k now e batch hi hb => ?_⟩
  have hbefore : (start :: ((calls.take i).map Prod.snd).map Prod.fst).Pairwise (· ≤ ·) := by
    rw [List.map_map]
    exact hclock.sublist (((List.take_sublist i calls).map _).cons_cons start)
  have hsub : (ownCalls k (calls.take i)).Sublist ((calls.take i).map Prod.snd) :=
    List.filter_sublist.map _
  have hbatch := hhanded.times i (now, e) batch (by simp [hi]) hb
  rw [← List.map_take] at hbatch
  rw [hbatch, spread_inj_iff, lastCall_eq_iff hbefore hsub, List.forall_mem_map]

def twoCounters : List (ℕ × UInt64 × GetReply ℤ) :=
  [(0, 100, ⟨2, 2, 1, [0, 2], [7, 9]⟩), (1, 104, ⟨2, 2, 1, [0, 2], [4, 5]⟩)]

theorem oneSet_twoCounters : ∀ call ∈ twoCounters, OneSet call.2.2 := by
  intro call hcall
  rcases List.mem_pair.mp hcall with rfl | rfl
  · exact ⟨rfl, ⟨rfl, rfl⟩, by decide⟩
  · exact ⟨rfl, ⟨rfl, rfl⟩, by decide⟩

/-- What the second one has measured since 0 is put into the last four units. -/
theorem own_times_iff_twoCounters : ∃ p,
    Trace.exec Plugin.next ⟨0, []⟩ (twoCounters.map Prod.snd) = .done p ∧
      p.handed = [[⟨0, 7⟩, ⟨50, 9⟩], [⟨100, 4⟩, ⟨102, 5⟩]] ∧
      ([⟨100, 4⟩, ⟨102, 5⟩] : List (TimeValuePair ℤ)) ≠ spread 0 104 [4, 5] := by
  obtain ⟨p, hp, hown⟩ := own_times_iff oneSet_twoCounters
    (by decide : ((0 : UInt64) :: twoCounters.map fun call => call.2.1).Pairwise (· ≤ ·))
  have hhanded : (Trace.exec Plugin.next ⟨0, []⟩ (twoCounters.map Prod.snd)).check
      (fun p => p.handed == [[⟨0, 7⟩, ⟨50, 9⟩], [⟨100, 4⟩, ⟨102, 5⟩]]) = true := by decide +kernel
  rw [hp] at hhanded
  have hbatches := beq_iff_eq.mp hhanded
  refine ⟨p, hp, hbatches, fun heq => ?_⟩
  cases (hown 1 1 104 _ _ rfl (by rw [hbatches]; rfl)).mp heq with
  | inl hnil => cases hnil
  | inr hlater =>
    have hle : (100 : UInt64) ≤ 0 := hlater (0, 100, ⟨2, 2, 1, [0, 2], [7, 9]⟩)
      List.mem_cons_self (List.cons_ne_nil _ _)
    exact absurd hle (by decide)

end counters

/-! ## A counter that is polled -/

/-- What the server sees of one call, with everything else that happens meanwhile. -/
structure Poll (V : Type) where
  measuring : List (DaemonEvent V)
  stopping : List (DaemonEvent V)
  replying : List (DaemonEvent V)
  now : UInt64
  reply : GetReply V

namespace Poll

def upToReply (k : ℕ) (q : Poll V) : List (DaemonEvent V) :=
  q.measuring ++ .receive k (some 3) :: q.stopping ++ [.receive k (some 4)]

def events (k : ℕ) (q : Poll V) : List (DaemonEvent V) :=
  q.upToReply k ++ q.replying ++ [.receive k (some 1)]

def call (q : Poll V) : UInt64 × GetReply V := (q.now, q.reply)

end Poll

section recording

variable {dn : Name} {k : ℕ}

end recording

section trace

variable [Zero V] [Add V] {register : Name → Option Driver} {text : Json → List Byte}
  {takesDisk : DiskCheck} {conf : Json}
  {dn : Name} {k : ℕ} {lines : List ℕ}

end trace

end PMLib.ScoreP
