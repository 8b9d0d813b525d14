import PMLib.ClosedSets
import PMLib.Lib.Blocks
import Mathlib.Algebra.BigOperators.Ring.List

/-! # Replies below the native frequency

A reply announces for each set the quotient of its shortest line and the interval. What it
then carries was selected by bounds that have used the quotient already. -/
namespace PMLib

open Int32Conv

variable {V : Type}

def Device.buffer (dev : Device V) (l : ℕ) : List V := (dev.lines[l]?.map Line.data).getD []

def GetReply.announced (r : GetReply V) : List ℤ := diffs r.wattsSets

namespace Counter

/-- A closed set: on every line of the counter, its offsets lie in this order inside the
buffer. -/
def Closed (c : Counter) (dev : Device V) (p : SetT × SetT) : Prop :=
  ∀ l ∈ c.lines, ∃ (ln : Line V) (b e : ℕ), dev.lines[l]? = some ln ∧
    p.1.getD l 0 = (b : ℤ) ∧ p.2.getD l 0 = (e : ℤ) ∧ b ≤ e ∧ e ≤ ln.data.length

def shortest (c : Counter) (p : SetT × SetT) : ℕ :=
  least (fun l => (p.2.getD l 0 - p.1.getD l 0).toNat) c.lines

def quota (c : Counter) (p : SetT × SetT) : ℕ := c.shortest p / c.interval.toNat

theorem quota_nil {c : Counter} (h : c.lines = []) (p : SetT × SetT) : c.quota p = 0 := by
  rw [quota, shortest, h, least_nil, Nat.zero_div]

variable [Zero V] {c : Counter} {dev : Device V} {p : SetT × SetT} {ended : List (SetT × SetT)}

theorem Closed.covers (h : c.Closed dev p) : c.Covers dev p (Window.ofSet dev.buffer p) := by
  intro l hl
  obtain ⟨ln, b, e, hln, hb, he, hbe, hlen⟩ := h l hl
  have hlength : (Window.ofSet dev.buffer p).length l = e - b := by
    simp only [Window.ofSet, hb, he]
    omega
  rw [hlength]
  refine ⟨ln, b, hln, hb, by rw [he, Nat.add_sub_cancel' hbe], by omega, fun x hx => ?_⟩
  have hx : b + x < ln.data.length := by omega
  simp only [Window.ofSet, hb, Int.toNat_natCast, Device.buffer, hln, Option.map_some,
    Option.getD_some, List.getD_eq_getElem?_getD, List.getElem?_eq_getElem hx]

theorem quota_mul_le (c : Counter) (dev : Device V) (p : SetT × SetT) {l : ℕ} (hl : l ∈ c.lines) :
    c.quota p * c.interval.toNat ≤ (Window.ofSet dev.buffer p).length l :=
  (Nat.div_mul_le_self _ _).trans (least_le _ hl)

variable [Add V]

def resampledReply (c : Counter) (dev : Device V) (ended : List (SetT × SetT)) : GetReply V :=
  let wattsSets := totals 0 (ended.map c.quota)
  let watts := ended.flatMap fun p => c.blockOf (Window.ofSet dev.buffer p) (c.quota p)
  { wattsSize := wrap32 watts.length
    wattsSetsSize := wrap32 wattsSets.length
    linesLen := wrap32 c.lines.length
    wattsSets, watts }

theorem get_closed (hn : c.lines.Nodup) (hi : 1 ≤ c.interval) (hstatus : c.status = .inactive)
    (hsets : c.sets = ended.map fun p => (p.1, some p.2)) (hclosed : ∀ p ∈ ended, c.Closed dev p) :
    c.get dev = .done (c, dev, .data (c.resampledReply dev ended)) := by
  have hlen : c.sets.mapM c.minLength = .done ((ended.map c.quota).map fun n : ℕ => (n : ℤ)) := by
    rw [hsets, List.mapM_map, List.map_map]
    exact Outcome.mapM_eq_map fun p hp => minLength_eq_least hn hi (hclosed p hp).covers
  have hblocks : (c.sets.zip ((ended.map c.quota).map fun n : ℕ => (n : ℤ))).mapM
      (fun se => setBlock plain c dev se.1 se.2) =
      .done (ended.map fun p => c.blockOf (Window.ofSet dev.buffer p) (c.quota p)) := by
    rw [hsets, List.map_map, List.zip_map', List.mapM_map]
    exact Outcome.mapM_eq_map fun p hp => setBlock_eq_blockOf plain_reads hi
      (hclosed p hp).covers fun l hl => quota_mul_le c dev p hl
  rw [get, if_pos hstatus, getData, hlen, Outcome.done_bind, hblocks]
  rfl

omit [Zero V] [Add V] in
theorem quota_le_ceilDiv (hi : 1 ≤ c.interval) :
    c.quota p ≤ c.shortest p ⌈/⌉ c.interval.toNat ∧
      c.shortest p ⌈/⌉ c.interval.toNat ≤ c.quota p + 1 := by
  rw [Strides.ceilDiv_eq (by omega), quota]
  split_ifs <;> omega

omit [Zero V] [Add V] in
theorem quota_eq_ceilDiv_iff (hi : 1 ≤ c.interval) :
    c.quota p = c.shortest p ⌈/⌉ c.interval.toNat ↔ c.interval.toNat ∣ c.shortest p := by
  rw [Strides.ceilDiv_eq (by omega), quota]
  split_ifs with h
  · simp [h]
  · simp [h]

/-- The least number of indices `begin`, `begin + interval` and so on below `end`. -/
def sampleCount (c : Counter) (p : SetT × SetT) : ℕ :=
  least (fun l => (Strides.indices c.interval.toNat (p.1.getD l 0).toNat
    (p.2.getD l 0).toNat).length) c.lines

omit [Zero V] [Add V] in
theorem sampleCount_eq (hi : 1 ≤ c.interval) (h : c.Closed dev p) :
    c.sampleCount p = c.shortest p ⌈/⌉ c.interval.toNat := by
  rw [shortest, ← least_comp (f := fun n => n ⌈/⌉ c.interval.toNat)
    (fun _ _ hle => Strides.ceilDiv_mono _ hle) (zero_ceilDiv _)]
  apply least_congr
  intro l hl
  obtain ⟨ln, b, e, -, hb, he, -⟩ := h l hl
  rw [Strides.length_indices (by omega), hb, he]
  congr 1
  omega

/-- GET announces for every set as many samples as the shortest line has indices at the
interval if and only if the interval divides the length of the shortest line of every set,
and the quotients add up to an `int`. -/
theorem announced_iff {c : Counter} {dev : Device V} {ended : List (SetT × SetT)}
    (hn : c.lines.Nodup) (hi : 1 ≤ c.interval) (hstatus : c.status = .inactive)
    (hsets : c.sets = ended.map fun p => (p.1, some p.2)) (hclosed : ∀ p ∈ ended, c.Closed dev p) :
    (∃ r, c.get dev = .done (c, dev, .data r) ∧
      r.announced = ended.map fun p => (c.sampleCount p : ℤ)) ↔
    (∀ p ∈ ended, c.interval.toNat ∣ c.shortest p) ∧ (ended.map c.quota).sum < 2 ^ 31 := by
  have hcounts : (ended.map fun p => (c.sampleCount p : ℤ)) =
      (ended.map fun p => c.shortest p ⌈/⌉ c.interval.toNat).map fun n : ℕ => (n : ℤ) := by
    rw [List.map_map]
    exact List.map_congr_left fun p hp => congrArg Nat.cast (sampleCount_eq hi (hclosed p hp))
  have hclose : List.Forall₂ (fun f c => f < c + 2 ^ 32 ∧ c < f + 2 ^ 32) (ended.map c.quota)
      (ended.map fun p => c.shortest p ⌈/⌉ c.interval.toNat) := by
    rw [List.forall₂_map_left_iff, List.forall₂_map_right_iff, List.forall₂_same]
    intro p _
    have := quota_le_ceilDiv (p := p) hi
    omega
  have hiff := diffs_totals_iff (b := 0) (by omega) (by omega) hclose
  rw [get_closed hn hi hstatus hsets hclosed]
  simp only [Outcome.done.injEq, Prod.mk.injEq, true_and, Reply.data.injEq, exists_eq_left']
  rw [hcounts, GetReply.announced, resampledReply]
  dsimp only
  rw [hiff, List.map_inj_left]
  simp only [quota_eq_ceilDiv_iff hi]
  refine and_congr_right fun _ => ?_
  omega

def oneLine (data : List ℤ) : Device ℤ :=
  ⟨[], 2, 1, (∅ : Std.TreeMap ℕ (Line ℤ)).insert 0 ⟨1, 0, data⟩, ∅⟩

def firstSamples (n : ℕ) : SetT × SetT := ((∅ : SetT).insert 0 0, (∅ : SetT).insert 0 n)

def everySecond (aggregate : Bool) (n : ℕ) : Counter :=
  ⟨1, true, aggregate, 2, .inactive, 1, [0], [((firstSamples n).1, some (firstSamples n).2)], true⟩

theorem closed_everySecond (aggregate : Bool) (data : List ℤ) :
    ∀ p ∈ [firstSamples data.length],
      (everySecond aggregate data.length).Closed (oneLine data) p := by
  intro p hp l hl
  obtain rfl := List.mem_singleton.mp hp
  obtain rfl := List.mem_singleton.mp hl
  refine ⟨⟨1, 0, data⟩, 0, data.length, ?_, ?_, ?_, Nat.zero_le _, le_rfl⟩
  · simp [oneLine]
  · simp [firstSamples]
  · simp [firstSamples]

theorem get_everySecond (aggregate : Bool) (data : List ℤ) :
    (everySecond aggregate data.length).get (oneLine data) =
      .done (everySecond aggregate data.length, oneLine data,
        .data ((everySecond aggregate data.length).resampledReply (oneLine data)
          [firstSamples data.length])) :=
  get_closed (List.nodup_singleton 0) one_le_two rfl rfl (closed_everySecond aggregate data)

theorem announced_fourSamples : ∃ r, (everySecond true 4).get (oneLine [1, 2, 3, 4]) =
      .done (everySecond true 4, oneLine [1, 2, 3, 4], .data r) ∧
    r.announced = [firstSamples 4].map fun p => ((everySecond true 4).sampleCount p : ℤ) :=
  (announced_iff (by decide) (by decide) rfl rfl (closed_everySecond true [1, 2, 3, 4])).mpr
    (by decide +kernel)

/-- Of three samples the first and the third lie at interval 2, but only one is announced. -/
theorem announced_fails : ∃ r, (everySecond true 3).get (oneLine [1, 2, 3]) =
      .done (everySecond true 3, oneLine [1, 2, 3], .data r) ∧
    r.announced = [1] ∧ (everySecond true 3).sampleCount (firstSamples 3) = 2 ∧
    r.announced ≠ [firstSamples 3].map fun p => ((everySecond true 3).sampleCount p : ℤ) :=
  ⟨_, get_everySecond true [1, 2, 3], by decide +kernel, by decide +kernel, by decide +kernel⟩

/-! ## Line by line -/

def HasSamples (c : Counter) (dev : Device V) (p : SetT × SetT) (n : ℕ) : Prop :=
  ∀ l ∈ c.lines, ∀ j < n, (p.1.getD l 0).toNat + j * c.interval.toNat < (dev.buffer l).length

/-- The size of the reply is that of its lines, and every line has in every set as many values
as are announced: the buffered ones at `begin`, `begin + interval` and so on. -/
structure LineByLine (c : Counter) (dev : Device V) (ended : List (SetT × SetT))
    (r : GetReply V) : Prop where
  size : ∃ total, r.wattsSets.getLast? = some total ∧ r.wattsSize = c.lines.length * total
  blocks : ∃ sizes : List ℕ, r.announced = sizes.map (fun n : ℕ => (n : ℤ)) ∧
    (∀ q ∈ ended.zip sizes, c.HasSamples dev q.1 q.2) ∧
    r.watts = (ended.zip sizes).flatMap fun q =>
      c.lines.flatMap ((Window.ofSet dev.buffer q.1).block c.interval.toNat q.2)

omit [Zero V] [Add V] in
theorem hasSamples_quota (hi : 1 ≤ c.interval) (h : c.Closed dev p) :
    c.HasSamples dev p (c.quota p) := by
  intro l hl j hj
  obtain ⟨ln, b, e, hln, hb, he, hbe, hlen⟩ := h l hl
  have hle : c.quota p * c.interval.toNat ≤ (p.2.getD l 0 - p.1.getD l 0).toNat :=
    (Nat.div_mul_le_self _ _).trans (least_le _ hl)
  have hlt : j * c.interval.toNat < c.quota p * c.interval.toNat :=
    Nat.mul_lt_mul_of_pos_right hj (by omega)
  rw [hb, he] at hle
  rw [hb, Device.buffer, hln, Option.map_some, Option.getD_some]
  omega

omit [Zero V] [Add V] in
theorem quota_le_one_iff (hi : 1 ≤ c.interval) :
    c.quota p ≤ 1 ↔ c.shortest p < 2 * c.interval.toNat := by
  rw [quota, ← Nat.lt_succ_iff, Nat.div_lt_iff_lt_mul (by omega)]

omit [Zero V] [Add V] in
theorem zip_quota (c : Counter) (ended : List (SetT × SetT)) :
    ended.zip (ended.map c.quota) = ended.map fun p => (p, c.quota p) :=
  List.map_prod_left_eq_zip.symm

/-- What is copied of a line are the first values at the interval, fewer than announced. -/
theorem blockOf_lines (hi : 1 ≤ c.interval) (ha : c.aggregate = false) (w : Window V) (m : ℕ) :
    c.blockOf w m = c.lines.flatMap (w.block c.interval.toNat (m ⌈/⌉ c.interval.toNat)) := by
  rw [blockOf, if_neg (by simp [ha]), Strides.filter_range (by omega)]
  simp only [List.map_map]
  rfl

omit [Zero V] [Add V] in
theorem length_flatMap_block (lines : List ℕ) (w : Window V) (k n : ℕ) :
    (lines.flatMap (w.block k n)).length = lines.length * n := by
  simp [List.length_flatMap]

omit [Zero V] [Add V] in
theorem length_flatMap_quota (c : Counter) (w : SetT × SetT → Window V)
    (ended : List (SetT × SetT)) (k : ℕ) :
    (ended.flatMap fun p => c.lines.flatMap ((w p).block k (c.quota p))).length =
      c.lines.length * (ended.map c.quota).sum := by
  rw [List.length_flatMap, ← List.sum_map_mul_left]
  simp only [length_flatMap_block]

omit [Zero V] [Add V] in
theorem quota_lt (hclosed : ∀ p ∈ ended, c.Closed dev p)
    (hfit : ∀ p ∈ ended, ∀ l ∈ c.lines, FitsInt (p.2.getD l 0)) :
    ∀ n ∈ ended.map c.quota, n < 2 ^ 31 := by
  intro n hn
  obtain ⟨p, hp, rfl⟩ := List.mem_map.mp hn
  have hle : c.quota p ≤ c.shortest p := Nat.div_le_self _ _
  by_cases hnil : c.lines = []
  · rw [quota_nil hnil]
    omega
  · obtain ⟨l, hl⟩ := List.exists_mem_of_ne_nil _ hnil
    obtain ⟨ln, b, e, _, hb, he, _⟩ := hclosed p hp l hl
    have hshort : c.shortest p ≤ (p.2.getD l 0 - p.1.getD l 0).toNat := least_le _ hl
    have hend := (hfit p hp l hl).2
    rw [he] at hend
    rw [hb, he] at hshort
    omega

theorem watts_eq_blocks_iff (hi : 1 ≤ c.interval) (ha : c.aggregate = false) :
    ((c.resampledReply dev ended).watts = ended.flatMap fun p =>
      c.lines.flatMap ((Window.ofSet dev.buffer p).block c.interval.toNat (c.quota p))) ↔
    ∀ p ∈ ended, c.interval = 1 ∨ c.shortest p < 2 * c.interval.toNat := by
  have hone : c.interval.toNat = 1 ↔ c.interval = 1 := by omega
  have hwatts : (c.resampledReply dev ended).watts = ended.flatMap fun p =>
      c.lines.flatMap ((Window.ofSet dev.buffer p).block c.interval.toNat
        (c.quota p ⌈/⌉ c.interval.toNat)) := by
    simp only [resampledReply, blockOf_lines hi ha]
  have hcond : ∀ p, c.quota p ⌈/⌉ c.interval.toNat = c.quota p ↔
      c.interval = 1 ∨ c.shortest p < 2 * c.interval.toNat := by
    intro p
    rw [Strides.ceilDiv_eq_self_iff (by omega), hone, quota_le_one_iff hi]
  rw [hwatts]
  constructor
  · intro hblocks p hp
    have hsame := Blocks.eq_of_flatMap_eq (fun p _ => by
      rw [length_flatMap_block, length_flatMap_block]
      exact Nat.mul_le_mul_left _ (Strides.ceilDiv_le_self (by omega))) hblocks p hp
    have hlen := congrArg List.length hsame
    rw [length_flatMap_block, length_flatMap_block] at hlen
    apply (hcond p).mp
    rcases Nat.eq_zero_or_pos c.lines.length with hzero | hpos
    · rw [quota_nil (List.length_eq_zero_iff.mp hzero), zero_ceilDiv]
    · exact Nat.eq_of_mul_eq_mul_left hpos hlen
  · intro h
    rw [List.flatMap_def, List.flatMap_def]
    congr 1
    refine List.map_congr_left fun p hp => ?_
    rw [(hcond p).mpr (h p hp)]

theorem wattsSize_eq_iff (h : (c.resampledReply dev ended).watts = ended.flatMap fun p =>
      c.lines.flatMap ((Window.ofSet dev.buffer p).block c.interval.toNat (c.quota p))) :
    (c.resampledReply dev ended).wattsSize = c.lines.length * ((ended.map c.quota).sum : ℕ) ↔
      c.lines.length * (ended.map c.quota).sum < 2 ^ 31 := by
  have hwrap : (c.resampledReply dev ended).wattsSize =
      wrap32 ((c.resampledReply dev ended).watts.length : ℤ) := by
    simp only [resampledReply]
  rw [hwrap, h, length_flatMap_quota c _ ended _, ← Nat.cast_mul, wrap32_eq_self_iff]
  unfold FitsInt
  omega

/-- A reply without aggregation is consistent with what it announces if and only if the
interval is one, or no set has two samples at the interval on each of its lines; and the
number of all values fits an `int`. -/
theorem lineByLine_iff {c : Counter} {dev : Device V} {ended : List (SetT × SetT)}
    (hn : c.lines.Nodup) (hi : 1 ≤ c.interval) (hstatus : c.status = .inactive)
    (hsets : c.sets = ended.map fun p => (p.1, some p.2)) (hclosed : ∀ p ∈ ended, c.Closed dev p)
    (ha : c.aggregate = false) (hfit : ∀ p ∈ ended, ∀ l ∈ c.lines, FitsInt (p.2.getD l 0)) :
    (∃ r, c.get dev = .done (c, dev, .data r) ∧ c.LineByLine dev ended r) ↔
    c.lines.length * (ended.map c.quota).sum < 2 ^ 31 ∧
      ∀ p ∈ ended, c.interval = 1 ∨ c.shortest p < 2 * c.interval.toNat := by
  have hquota := quota_lt hclosed hfit
  rw [get_closed hn hi hstatus hsets hclosed]
  simp only [Outcome.done.injEq, Prod.mk.injEq, true_and, Reply.data.injEq, exists_eq_left']
  constructor
  · rintro ⟨⟨total, htotal, hsize⟩, sizes, hannounced, -, hblocks⟩
    obtain ⟨rfl, hsum⟩ := (diffs_totals_eq_iff hquota).mp hannounced
    rw [zip_quota, List.flatMap_map] at hblocks
    obtain rfl : total = ((ended.map c.quota).sum : ℤ) :=
      Option.some.inj (htotal.symm.trans (getLast?_totals hsum))
    exact ⟨(wattsSize_eq_iff hblocks).mp hsize, (watts_eq_blocks_iff hi ha).mp hblocks⟩
  · rintro ⟨hfits, hcond⟩
    have hsum : (ended.map c.quota).sum < 2 ^ 31 := by
      by_cases hnil : c.lines = []
      · rw [List.map_congr_left fun p _ => quota_nil hnil p]
        simp
      · exact lt_of_le_of_lt (Nat.le_mul_of_pos_left _ (List.length_pos_of_ne_nil hnil)) hfits
    have hblocks : (c.resampledReply dev ended).watts = _ := (watts_eq_blocks_iff hi ha).mpr hcond
    refine ⟨⟨_, getLast?_totals hsum, (wattsSize_eq_iff hblocks).mpr hfits⟩, ended.map c.quota,
      (diffs_totals_eq_iff hquota).mpr ⟨rfl, hsum⟩, fun q hq => ?_, ?_⟩
    · rw [zip_quota] at hq
      obtain ⟨p, hp, rfl⟩ := List.mem_map.mp hq
      exact hasSamples_quota hi (hclosed p hp)
    · rw [zip_quota, List.flatMap_map]
      exact hblocks

theorem lineByLine_twoSamples : ∃ r, (everySecond false 3).get (oneLine [1, 2, 3]) =
      .done (everySecond false 3, oneLine [1, 2, 3], .data r) ∧
    (everySecond false 3).LineByLine (oneLine [1, 2, 3]) [firstSamples 3] r :=
  (lineByLine_iff (by decide) (by decide) rfl rfl (closed_everySecond false [1, 2, 3]) rfl
    (by decide +kernel)).mpr (by decide +kernel)

/-- Four samples make two at interval 2. Two are announced, and one is sent. -/
theorem lineByLine_fails : ∃ r, (everySecond false 4).get (oneLine [1, 2, 3, 4]) =
      .done (everySecond false 4, oneLine [1, 2, 3, 4], .data r) ∧
    r.announced = [2] ∧ r.watts = [1] ∧
    ¬ (everySecond false 4).LineByLine (oneLine [1, 2, 3, 4]) [firstSamples 4] r := by
  have hlast : ((everySecond false 4).resampledReply (oneLine [1, 2, 3, 4])
      [firstSamples 4]).wattsSets.getLast? = some 2 := by decide +kernel
  have hone : ((everySecond false 4).resampledReply (oneLine [1, 2, 3, 4])
      [firstSamples 4]).wattsSize = 1 := by decide +kernel
  refine ⟨(everySecond false 4).resampledReply (oneLine [1, 2, 3, 4]) [firstSamples 4],
    get_everySecond false [1, 2, 3, 4], by decide +kernel, by decide +kernel, ?_⟩
  rintro ⟨⟨total, htotal, hsize⟩, -⟩
  rw [hlast, Option.some.injEq] at htotal
  rw [hone, ← htotal] at hsize
  revert hsize
  decide

/-! ## Sums over the lines -/

/-- Every set has as many sums as are announced for it, and these are the sums over the lines
of the buffered values at `begin`, `begin + interval` and so on. -/
def SetBySet (c : Counter) (dev : Device V) (ended : List (SetT × SetT)) (r : GetReply V) : Prop :=
  ∃ sizes : List ℕ, r.announced = sizes.map (fun n : ℕ => (n : ℤ)) ∧
    (∀ q ∈ ended.zip sizes, c.HasSamples dev q.1 q.2) ∧
    r.watts = (ended.zip sizes).flatMap fun q =>
      (Window.ofSet dev.buffer q.1).sums c.interval.toNat q.2 c.lines

def strideSum (c : Counter) (dev : Device V) (p : SetT × SetT) (j : ℕ) : V :=
  c.lines.foldl (fun sum l =>
    sum + (Window.ofSet dev.buffer p).value l (j * c.interval.toNat)) 0

omit [Zero V] in
private theorem foldl_if (lines : List ℕ) (f : ℕ → V) (q : Prop) [Decidable q] (v : V) :
    lines.foldl (fun sum l => if q then sum + f l else sum) v =
      if q then lines.foldl (fun sum l => sum + f l) v else v := by
  split_ifs
  · rfl
  · induction lines with
    | nil => rfl
    | cons l lines ih => exact ih

theorem blockOf_sums (ha : c.aggregate = true) (m : ℕ) :
    c.blockOf (Window.ofSet dev.buffer p) m = (List.range m).map fun j =>
      if j < summed c.interval.toNat m then c.strideSum dev p j else 0 := by
  rw [blockOf, if_pos ha]
  simp only [foldl_if]
  rfl

theorem sums_eq (dev : Device V) (p : SetT × SetT) (n : ℕ) :
    (Window.ofSet dev.buffer p).sums c.interval.toNat n c.lines =
      (List.range n).map (c.strideSum dev p) := rfl

theorem blockOf_eq_sums_iff (ha : c.aggregate = true) (m : ℕ) :
    c.blockOf (Window.ofSet dev.buffer p) m =
        (Window.ofSet dev.buffer p).sums c.interval.toNat m c.lines ↔
      (c.interval.toNat ∣ m → ∀ j, m / c.interval.toNat ≤ j → j < m →
        c.strideSum dev p j = 0) := by
  rw [blockOf_sums ha, sums_eq, List.map_inj_left]
  constructor
  · intro h hdvd j hle hlt
    have hj := h j (List.mem_range.mpr hlt)
    rw [summed, if_pos (Nat.mod_eq_zero_of_dvd hdvd), if_neg (by omega)] at hj
    exact hj.symm
  · intro h j hj
    have hj := List.mem_range.mp hj
    unfold summed
    split_ifs with hmod hlt
    · rfl
    · exact (h (Nat.dvd_of_mod_eq_zero hmod) j (by omega) hj).symm
    · rfl

/-- The sums of a reply with aggregation are the right ones if and only if, in each set where
the interval divides the announced number, the samples from the quotient on add up to zero;
and the announced numbers add up to an `int`. -/
theorem setBySet_iff {c : Counter} {dev : Device V} {ended : List (SetT × SetT)}
    (hn : c.lines.Nodup) (hi : 1 ≤ c.interval) (hstatus : c.status = .inactive)
    (hsets : c.sets = ended.map fun p => (p.1, some p.2)) (hclosed : ∀ p ∈ ended, c.Closed dev p)
    (ha : c.aggregate = true) :
    (∃ r, c.get dev = .done (c, dev, .data r) ∧ c.SetBySet dev ended r) ↔
    (ended.map c.quota).sum < 2 ^ 31 ∧ ∀ p ∈ ended, c.interval.toNat ∣ c.quota p →
      ∀ j, c.quota p / c.interval.toNat ≤ j → j < c.quota p → c.strideSum dev p j = 0 := by
  have hwatts : (c.resampledReply dev ended).watts = ended.flatMap fun p =>
      c.blockOf (Window.ofSet dev.buffer p) (c.quota p) := by
    simp only [resampledReply]
  have hlt : (ended.map c.quota).sum < 2 ^ 31 → ∀ n ∈ ended.map c.quota, n < 2 ^ 31 :=
    fun hsum n hn => (List.le_sum_of_mem hn).trans_lt hsum
  have hsize : ∀ p : SetT × SetT,
      (c.blockOf (Window.ofSet dev.buffer p) (c.quota p)).length = c.quota p := by
    intro p
    rw [blockOf_sums ha, List.length_map, List.length_range]
  rw [get_closed hn hi hstatus hsets hclosed]
  simp only [Outcome.done.injEq, Prod.mk.injEq, true_and, Reply.data.injEq, exists_eq_left']
  constructor
  · rintro ⟨sizes, hannounced, -, hblocks⟩
    rw [hwatts] at hblocks
    have hlen := congrArg List.length hannounced
    rw [GetReply.announced, resampledReply, length_diffs_totals, List.length_map,
      List.length_map] at hlen
    have hsum : (ended.map c.quota).sum = sizes.sum := by
      have := congrArg List.length hblocks
      simp only [List.length_flatMap, hsize, Window.length_sums] at this
      exact this.trans (congrArg List.sum (List.map_snd_zip hlen.ge))
    have hfits := sum_lt_of_diffs (by omega) hannounced
    have hquota := hlt (by omega)
    obtain ⟨rfl, hexact⟩ := (diffs_totals_eq_iff hquota).mp hannounced
    rw [zip_quota, List.flatMap_map] at hblocks
    refine ⟨hexact, fun p hp => (blockOf_eq_sums_iff ha _).mp ?_⟩
    exact Blocks.eq_of_flatMap_eq (fun p _ => by rw [hsize, Window.length_sums]) hblocks p hp
  · rintro ⟨hsum, hzero⟩
    refine ⟨ended.map c.quota, (diffs_totals_eq_iff (hlt hsum)).mpr ⟨rfl, hsum⟩,
      fun q hq => ?_, ?_⟩
    · rw [zip_quota] at hq
      obtain ⟨p, hp, rfl⟩ := List.mem_map.mp hq
      exact hasSamples_quota hi (hclosed p hp)
    · rw [hwatts, zip_quota, List.flatMap_map, List.flatMap_def, List.flatMap_def]
      congr 1
      exact List.map_congr_left fun p hp => (blockOf_eq_sums_iff ha _).mpr (hzero p hp)

theorem setBySet_threeSums : ∃ r, (everySecond true 6).get (oneLine [1, 2, 3, 4, 5, 6]) =
      .done (everySecond true 6, oneLine [1, 2, 3, 4, 5, 6], .data r) ∧
    (everySecond true 6).SetBySet (oneLine [1, 2, 3, 4, 5, 6]) [firstSamples 6] r :=
  (setBySet_iff (by decide) (by decide) rfl rfl (closed_everySecond true [1, 2, 3, 4, 5, 6])
    rfl).mpr ⟨by decide +kernel, fun p hp hdvd => by
      obtain rfl := List.mem_singleton.mp hp
      revert hdvd
      decide +kernel⟩

/-- The loop ends at the second sample, before it has added the third. -/
theorem setBySet_fails : ∃ r, (everySecond true 4).get (oneLine [1, 2, 3, 4]) =
      .done (everySecond true 4, oneLine [1, 2, 3, 4], .data r) ∧
    r.announced = [2] ∧ r.watts = [1, 0] ∧
    ¬ (everySecond true 4).SetBySet (oneLine [1, 2, 3, 4]) [firstSamples 4] r := by
  have hannounced : ((everySecond true 4).resampledReply (oneLine [1, 2, 3, 4])
      [firstSamples 4]).announced = [2] := by decide +kernel
  have hwatts : ((everySecond true 4).resampledReply (oneLine [1, 2, 3, 4])
      [firstSamples 4]).watts = [1, 0] := by decide +kernel
  refine ⟨(everySecond true 4).resampledReply (oneLine [1, 2, 3, 4]) [firstSamples 4],
    get_everySecond true [1, 2, 3, 4], hannounced, hwatts, ?_⟩
  rintro ⟨sizes, hsizes, -, hsums⟩
  rw [hannounced] at hsizes
  obtain rfl : sizes = [2] := by
    apply List.map_injective_iff.mpr Int.ofNat_injective
    exact hsizes.symm
  rw [hwatts] at hsums
  revert hsums
  decide +kernel

end Counter

end PMLib
