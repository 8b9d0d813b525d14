import PMLib.Recordings
import PMLib.Lib.Blocks

/-! # Where a reply has its values

The server writes set after set, and inside a set line after line. `position` says at which
index a sample of a set has ended up, and every index is the position of one sample. -/
namespace PMLib

open Int32Conv

variable {V : Type}

def before (lens : List ℕ) (s : ℕ) : ℕ := (lens.take s).sum

@[simp] theorem before_zero (lens : List ℕ) : before lens 0 = 0 := rfl

theorem before_le (lens : List ℕ) (s : ℕ) : before lens s ≤ lens.sum := by
  have := congrArg List.sum (List.take_append_drop s lens)
  rw [List.sum_append] at this
  unfold before
  omega

theorem before_succ {lens : List ℕ} {s n : ℕ} (h : lens[s]? = some n) :
    before lens (s + 1) = before lens s + n := by
  rw [before, before, List.take_add_one, h, List.sum_append]
  simp

theorem before_add_le {lens : List ℕ} {s n : ℕ} (h : lens[s]? = some n) :
    before lens s + n ≤ lens.sum := by
  rw [← before_succ h]
  exact before_le lens (s + 1)

/-- The index of sample `i` of set `s` on the `k`-th of `n` lines. -/
def position (n : ℕ) (lens : List ℕ) (s i k : ℕ) : ℕ :=
  n * before lens s + k * lens.getD s 0 + i

/-- How many samples of each set the reply has. There are none without lines. -/
def setSizes (lines : List ℕ) (lens : List ℕ) : List ℕ :=
  lens.map fun n => if lines = [] then 0 else n

theorem length_setSizes (lines lens : List ℕ) : (setSizes lines lens).length = lens.length := by
  rw [setSizes, List.length_map]

theorem setSizes_of_mem {lines : List ℕ} {l : ℕ} (hl : l ∈ lines) (lens : List ℕ) :
    setSizes lines lens = lens := by
  have hne : lines ≠ [] := List.ne_nil_of_mem hl
  simp [setSizes, hne]

theorem map_windowSize (lines : List ℕ) (ws : List (List (ℕ → V))) :
    ws.map (windowSize lines) = setSizes lines (ws.map List.length) := by
  rw [setSizes, List.map_map]
  rfl

structure Announces (sizes : List ℕ) (r : GetReply V) : Prop where
  wattsSets : r.wattsSets = (sizes.scanl (· + ·) 0).map fun n : ℕ => (n : ℤ)
  wattsSetsSize : r.wattsSetsSize = sizes.length + 1

theorem Announces.readAt_wattsSets {sizes : List ℕ} {r : GetReply V} (h : Announces sizes r)
    {s : ℕ} (hs : s ≤ sizes.length) :
    Counter.readAt r.wattsSets s = .done (before sizes s : ℤ) := by
  have hscan : (sizes.scanl (· + ·) 0)[s]? = some (before sizes s) := by
    rw [List.getElem?_scanl, if_pos hs, before, List.sum_eq_foldl]
  rw [Counter.readAt, if_pos (Int.natCast_nonneg s), h.wattsSets, Int.toNat_natCast,
    List.getElem?_map, hscan]
  rfl

/-- A reply with the windows `ws` on the given lines, all of whose counts fit an `int`. -/
structure NativeLayout (lines : List ℕ) (ws : List (List (ℕ → V))) (r : GetReply V) :
    Prop where
  watts : r.watts = ws.flatMap fun w => lines.flatMap fun l => readings l w
  wattsSets : r.wattsSets =
    ((setSizes lines (ws.map List.length)).scanl (· + ·) 0).map fun n : ℕ => (n : ℤ)
  wattsSize : r.wattsSize = r.watts.length
  wattsSetsSize : r.wattsSetsSize = ws.length + 1
  linesLen : r.linesLen = lines.length

theorem length_lineReadings (lines : List ℕ) (w : List (ℕ → V)) :
    (lines.flatMap fun l => readings l w).length = lines.length * w.length := by
  induction lines with
  | nil => simp
  | cons l lines ih =>
    rw [List.flatMap_cons, List.length_append, ih, readings, List.length_map,
      List.length_cons, Nat.succ_mul, Nat.add_comm]

theorem length_watts (lines : List ℕ) (ws : List (List (ℕ → V))) :
    (ws.flatMap fun w => lines.flatMap fun l => readings l w).length =
      lines.length * (ws.map List.length).sum := by
  induction ws with
  | nil => simp
  | cons w ws ih =>
    rw [List.flatMap_cons, List.length_append, ih, length_lineReadings, List.map_cons,
      List.sum_cons, Nat.mul_add]

theorem NativeReply.layout [Zero V] [Add V] {m : LineT} {nLines : ℕ}
    {ws : List (List (ℕ → V))} {r : GetReply V} (h : NativeReply m nLines ws r)
    (hfit : (m.lines nLines).length * (ws.map List.length).sum < 2 ^ 31)
    (hsets : ws.length + 1 < 2 ^ 31) : NativeLayout (m.lines nLines) ws r := by
  obtain ⟨ρ, pre, t, k, c, hb, hp, ht, hk, hdev, hi, ha, hl, rfl⟩ := h
  obtain ⟨rfl, _⟩ := ρ.reply_eq ht (hb.of_isPrefix _ hp) hk (by omega)
  have hwatts : (c.windowReply (recording k pre).closed).watts =
      (recording k pre).closed.flatMap fun w =>
        (m.lines nLines).flatMap fun l => readings l w := by
    rw [Counter.windowReply_watts hi, ha, hl]
    rfl
  have hlen : (c.windowReply (recording k pre).closed).watts.length < 2 ^ 31 := by
    simpa only [hwatts, length_watts] using hfit
  have hlines : (m.lines nLines).length ≤ 128 := by
    have := List.length_filter_le (fun l : ℕ => m.isSet l) (List.range (min nLines 128))
    rw [List.length_range] at this
    exact this.trans (Nat.min_le_right nLines 128)
  have hsize : (c.windowReply (recording k pre).closed).wattsSets.length =
      (recording k pre).closed.length + 1 := by
    simp [Counter.windowReply, List.length_scanl]
  refine ⟨hwatts, ?_, ?_, ?_, ?_⟩
  · rw [Counter.windowReply_wattsSets hi hlen, map_windowSize, hl]
  · have hcount : (c.windowReply (recording k pre).closed).wattsSize =
        wrap32 ((c.windowReply (recording k pre).closed).watts.length : ℤ) := by
      simp only [Counter.windowReply]
    rw [hcount, wrap32_natCast hlen]
  · have hcount : (c.windowReply (recording k pre).closed).wattsSetsSize =
        wrap32 ((c.windowReply (recording k pre).closed).wattsSets.length : ℤ) := by
      simp only [Counter.windowReply]
    rw [hcount, hsize, wrap32_natCast hsets, Nat.cast_succ]
  · have hcount : (c.windowReply (recording k pre).closed).linesLen =
        wrap32 (c.lines.length : ℤ) := by
      simp only [Counter.windowReply]
    rw [hcount, hl, wrap32_natCast (by omega)]

namespace NativeLayout

variable {lines : List ℕ} {ws : List (List (ℕ → V))} {r : GetReply V}

theorem unique {r' : GetReply V} (h : NativeLayout lines ws r) (h' : NativeLayout lines ws r') :
    r = r' := by
  obtain ⟨hwatts, hsets, hsize, hcount, hlen⟩ := h
  rw [← h'.watts] at hwatts
  rw [← h'.wattsSets] at hsets
  rw [hwatts, ← h'.wattsSize] at hsize
  rw [← h'.wattsSetsSize] at hcount
  rw [← h'.linesLen] at hlen
  cases r
  cases r'
  simp_all

theorem announces (h : NativeLayout lines ws r) :
    Announces (setSizes lines (ws.map List.length)) r where
  wattsSets := h.wattsSets
  wattsSetsSize := by rw [h.wattsSetsSize, length_setSizes, List.length_map]

private theorem offset_sets (lines : List ℕ) (ws : List (List (ℕ → V))) (s : ℕ) :
    Blocks.offset (ws.map fun w => lines.flatMap fun l => readings l w) s =
      lines.length * before (ws.map List.length) s := by
  induction ws generalizing s with
  | nil => simp [Blocks.offset, before]
  | cons w ws ih =>
    cases s with
    | zero => simp
    | succ s =>
      rw [List.map_cons, Blocks.offset_cons, ih, length_lineReadings, before, before,
        List.map_cons, List.take_succ_cons, List.sum_cons, Nat.mul_add]

private theorem offset_lines (lines : List ℕ) (w : List (ℕ → V)) {k : ℕ}
    (hk : k ≤ lines.length) :
    Blocks.offset (lines.map fun l => readings l w) k = k * w.length := by
  apply Blocks.offset_uniform
  · intro b hb
    obtain ⟨l, _, rfl⟩ := List.mem_map.mp hb
    simp [readings]
  · simpa using hk

theorem getD_length {s : ℕ} {w : List (ℕ → V)} (hs : ws[s]? = some w) :
    (ws.map List.length).getD s 0 = w.length := by
  simp [hs]

theorem getElem?_position (h : NativeLayout lines ws r) {s i k l : ℕ} {w : List (ℕ → V)}
    {x : ℕ → V} (hs : ws[s]? = some w) (hi : w[i]? = some x) (hk : lines[k]? = some l) :
    r.watts[position lines.length (ws.map List.length) s i k]? = some (x l) := by
  obtain ⟨hlt, _⟩ := List.getElem?_eq_some_iff.mp hi
  obtain ⟨hklt, _⟩ := List.getElem?_eq_some_iff.mp hk
  have hrow : (lines.flatMap fun l => readings l w)[k * w.length + i]? = some (x l) := by
    rw [List.flatMap_def, ← offset_lines lines w (Nat.le_of_lt hklt),
      Blocks.getElem?_flatten (b := readings l w) (by simp [hk]) (by simpa [readings] using hlt)]
    simp [readings, hi]
  have hinner : k * w.length + i < (lines.flatMap fun l => readings l w).length :=
    (List.getElem?_eq_some_iff.mp hrow).1
  rw [position, getD_length hs, h.watts, List.flatMap_def, Nat.add_assoc,
    ← offset_sets lines ws s, Blocks.getElem?_flatten
      (b := lines.flatMap fun l => readings l w) (by simp [hs]) hinner, hrow]

theorem exists_position (h : NativeLayout lines ws r) {p : ℕ} (hp : p < r.watts.length) :
    ∃ s i k l w x, ws[s]? = some w ∧ w[i]? = some x ∧ lines[k]? = some l ∧
      p = position lines.length (ws.map List.length) s i k := by
  rw [h.watts, List.flatMap_def] at hp
  obtain ⟨s, j, b, hs, hj, hpj⟩ := Blocks.exists_offset hp
  rw [offset_sets] at hpj
  obtain ⟨w, hw, rfl⟩ : ∃ w, ws[s]? = some w ∧ (lines.flatMap fun l => readings l w) = b := by
    simpa using hs
  rw [List.flatMap_def] at hj
  obtain ⟨k, i, b, hk, hi, hjk⟩ := Blocks.exists_offset hj
  obtain ⟨l, hl, rfl⟩ : ∃ l, lines[k]? = some l ∧ readings l w = b := by simpa using hk
  have hi : i < w.length := by simpa [readings] using hi
  have hklt := (List.getElem?_eq_some_iff.mp hl).1
  rw [offset_lines lines w (Nat.le_of_lt hklt)] at hjk
  refine ⟨s, i, k, l, w, w[i], hw, List.getElem?_eq_getElem hi, hl, ?_⟩
  rw [position, getD_length hw, hpj, hjk, Nat.add_assoc]

end NativeLayout

end PMLib
