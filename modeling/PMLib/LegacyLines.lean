import PMLib.LegacyReply
import PMLib.LineMask

/-! # Line masks in the legacy server

The daemon reads a mask as one big number, prints it in binary, and takes the digits in
groups of eight. The server tests the bits of each byte. -/
namespace PMLib

namespace Legacy

/-! ## The mask as a number -/

def bin (n : ℕ) : List Char := '0' :: 'b' :: Nat.toDigits 2 n

def int (c : Char) : Outcome ℕ := if c.isDigit then .done (c.toNat - '0'.toNat) else .failed

namespace Counter

def setLines (nLines : ℕ) (lines : List Byte) : Outcome (List ℕ) := do
  -- the leading 1 keeps the zeros behind it, and goes with the prefix
  let mask := (bin ((lines.map BitVec.toNat).foldl (fun x y => (x <<< 8) + y) 1)).drop 3
  let starts ← xrange 0 mask.length 8
  let nmask := starts.flatMap fun i => ((mask.drop i.toNat).take 8).reverse
  let nmask := nmask.take nLines
  let selected ← nmask.zipIdx.foldlM (fun selected c => do
    let l ← int c.1
    .done (if l ≠ 0 then selected ++ [c.2] else selected)) []
  .done (if selected = [] then List.range nLines else selected)

end Counter

def bitChar (b : Bool) : Char := if b then '1' else '0'

def bits (c : Byte) : List Char := (List.range 8).map fun b => bitChar (testMask c b)

@[simp] theorem length_bits (c : Byte) : (bits c).length = 8 := rfl

theorem toDigits_shift {x k y : ℕ} (hx : 0 < x) (hy : y < 2 ^ k) :
    Nat.toDigits 2 (x * 2 ^ k + y) =
      Nat.toDigits 2 x ++ ((List.range k).map fun b => bitChar (y.testBit b)).reverse := by
  induction k generalizing y with
  | zero =>
    obtain rfl : y = 0 := by simpa using hy
    simp
  | succ k ih =>
    have hhalf : y / 2 < 2 ^ k := by rw [pow_succ] at hy; omega
    have hsplit : x * 2 ^ (k + 1) + y = 2 * (x * 2 ^ k + y / 2) + y % 2 := by
      rw [pow_succ, ← Nat.mul_assoc]
      omega
    have hpos : 0 < x * 2 ^ k + y / 2 := by positivity
    have hlast : Nat.toDigits 2 (y % 2) = [bitChar (y.testBit 0)] := by
      rw [Nat.toDigits_of_lt_base (Nat.mod_lt y (by decide)), Nat.testBit_zero]
      rcases Nat.mod_two_eq_zero_or_one y with h | h
      · rw [h]; rfl
      · rw [h]; rfl
    rw [hsplit, ← Nat.toDigits_append_toDigits (by decide) hpos (Nat.mod_lt y (by decide)), hlast,
      ih hhalf, List.range_succ_eq_map, List.map_cons, List.map_map, List.reverse_cons,
      List.append_assoc]
    congr 3
    refine List.map_congr_left fun b _ => ?_
    simp [Nat.testBit_succ]

/-- The number of a mask, printed: a digit 1, and then byte after byte, the highest bit first. -/
theorem toDigits_fold (lines : List Byte) :
    0 < (lines.map BitVec.toNat).foldl (fun x y => (x <<< 8) + y) 1 ∧
    Nat.toDigits 2 ((lines.map BitVec.toNat).foldl (fun x y => (x <<< 8) + y) 1) =
      '1' :: lines.flatMap fun c => (bits c).reverse := by
  induction lines using List.reverseRecOn with
  | nil => exact ⟨by decide, rfl⟩
  | append_singleton lines c ih =>
    obtain ⟨hpos, ih⟩ := ih
    rw [List.map_append, List.foldl_append, List.flatMap_append, List.map_singleton,
      List.foldl_cons, List.foldl_nil, Nat.shiftLeft_eq]
    refine ⟨by positivity, ?_⟩
    rw [toDigits_shift hpos c.isLt, ih, List.flatMap_singleton, List.cons_append]
    congr 3
    refine List.map_congr_left fun b hb => ?_
    rw [testMask_eq_getLsbD _ (List.mem_range.mp hb)]
    rfl

/-! ## The digits of the lines -/

theorem flatMap_bits (lines : List Byte) :
    lines.flatMap bits =
      (List.range (lines.length * 8)).map fun l => bitChar (selects lines l) := by
  induction lines with
  | nil => rfl
  | cons c lines ih =>
    have hfirst : ∀ l < 8, selects (c :: lines) l = testMask c l := by
      intro l hl
      rw [selects, Nat.div_eq_of_lt hl, Nat.mod_eq_of_lt hl]
      rfl
    have hrest : ∀ l, selects (c :: lines) (8 + l) = selects lines l := by
      intro l
      rw [selects, selects, Nat.add_div_left l (by decide), Nat.add_mod_left]
      rfl
    rw [List.flatMap_cons, ih, List.length_cons, Nat.succ_mul, Nat.add_comm, List.range_add,
      List.map_append, List.map_map]
    refine congrArg₂ _ (List.map_congr_left fun l hl => ?_) (List.map_congr_left fun l _ => ?_)
    · rw [hfirst l (List.mem_range.mp hl)]
    · rw [Function.comp_apply, hrest]

/-- Cut into groups of eight and turned around, the digits stand in the order of the lines. -/
theorem flatMap_starts {lines : List Byte} {mask : List Char}
    (hmask : mask = lines.flatMap fun c => (bits c).reverse) :
    ∃ starts, xrange 0 mask.length 8 = .done starts ∧
      (starts.flatMap fun i => ((mask.drop i.toNat).take 8).reverse) = lines.flatMap bits := by
  have hlen : mask.length = lines.length * 8 := by simp [hmask, List.length_flatMap]
  have hcount : (lines.length * 8 - 0) ⌈/⌉ 8 = lines.length := by
    rw [Nat.sub_zero, Strides.ceilDiv_eq (by decide), if_pos ⟨_, Nat.mul_comm _ _⟩,
      Nat.mul_div_cancel _ (by decide)]
  have hstarts : xrange 0 ((lines.length * 8 : ℕ) : ℤ) 8 = _ :=
    xrange_eq (k := 8) (b := 0) (by decide) (Nat.zero_le _)
  have hchunks : ((List.range lines.length).map fun i => (mask.drop (i * 8)).take 8) =
      lines.map fun c => (bits c).reverse := by
    rw [hmask]
    exact Blocks.chunks_flatMap fun c _ => by rw [List.length_reverse, length_bits]
  rw [hcount] at hstarts
  rw [hlen]
  refine ⟨_, hstarts, ?_⟩
  have hstart : ∀ j : ℕ, ((0 + j * 8 : ℕ) : ℤ).toNat = j * 8 := fun j => by omega
  calc _ = (((List.range lines.length).map fun i => (mask.drop (i * 8)).take 8).map
          List.reverse).flatten := by
        simp only [List.flatMap_def, List.map_map, Function.comp_def, hstart]
    _ = lines.flatMap bits := by
        rw [hchunks, List.map_map, List.flatMap_def]
        simp [Function.comp_def]

theorem collect_ones (f : ℕ → Bool) (ls selected : List ℕ) :
    (ls.map fun l => (bitChar (f l), l)).foldlM (fun selected c => do
      let l ← int c.1
      .done (if l ≠ 0 then selected ++ [c.2] else selected)) selected =
    .done (selected ++ ls.filter f) := by
  induction ls generalizing selected with
  | nil => simp
  | cons l ls ih =>
    rw [List.map_cons, List.foldlM_cons]
    cases hf : f l with
    | false =>
      have hint : int (bitChar false) = .done 0 := by decide
      rw [hint, Outcome.done_bind, Outcome.done_bind, if_neg (by decide), ih,
        List.filter_cons_of_neg (by simp [hf])]
    | true =>
      have hint : int (bitChar true) = .done 1 := by decide
      rw [hint, Outcome.done_bind, Outcome.done_bind, if_pos (by decide), ih,
        List.filter_cons_of_pos hf, List.append_assoc, List.singleton_append]

/-- The daemon lists the selected lines of any mask, and all lines where none is selected. -/
theorem Counter.setLines_eq (nLines : ℕ) (lines : List Byte) :
    Counter.setLines nLines lines = .done (if selectedLines nLines lines = [] then
      List.range nLines else selectedLines nLines lines) := by
  have hmask : (bin ((lines.map BitVec.toNat).foldl (fun x y => (x <<< 8) + y) 1)).drop 3 =
      lines.flatMap fun c => (bits c).reverse := by
    rw [bin, (toDigits_fold lines).2]
    rfl
  obtain ⟨starts, hstarts, hdigits⟩ := flatMap_starts hmask
  have hzip : (((List.range (lines.length * 8)).map fun l => bitChar (selects lines l)).take
      nLines).zipIdx = (List.range (min nLines (lines.length * 8))).map fun l =>
        (bitChar (selects lines l), l) := by
    rw [← List.map_take, List.take_range, List.zipIdx_eq_zip_range', List.length_map,
      List.length_range, ← List.range_eq_range', ← List.map_prod_right_eq_zip]
  have hselected : (List.range (min nLines (lines.length * 8))).filter (selects lines ·) =
      selectedLines nLines lines := by
    refine (List.pairwise_lt_range.filter _).eq_of_mem_iff (selectedLines_sorted nLines lines)
      fun l => ?_
    rw [List.mem_filter, List.mem_range, mem_selectedLines, Nat.lt_min]
    refine and_congr_left fun hset => and_iff_left_of_imp fun _ => ?_
    by_contra hl
    rw [selects_of_length_le (by omega)] at hset
    exact absurd hset Bool.false_ne_true
  rw [setLines]
  dsimp only
  rw [hstarts, Outcome.done_bind, hdigits, flatMap_bits, hzip, collect_ones, hselected,
    List.nil_append, Outcome.done_bind]

end Legacy

/-- Both servers list the same lines for a mask exactly when the server can number the bits of
the mask and one of them selects a line of the device: without one the legacy server takes all
lines, and the server takes none. -/
theorem servers_select_same_iff (nLines : ℕ) (linesStr : List Byte) (hpos : 0 < nLines) :
    (∃ sel, Counter.setLines nLines linesStr = .done sel ∧
      Legacy.Counter.setLines nLines linesStr = .done sel) ↔
    linesStr.length * 8 ≤ 2 ^ 31 ∧ ∃ l < nLines, selects linesStr l = true := by
  have hnil : selectedLines nLines linesStr ≠ [] ↔ ∃ l < nLines, selects linesStr l = true := by
    simp [selectedLines_eq_nil_iff]
  rw [Counter.setLines_eq, Legacy.Counter.setLines_eq, ← hnil, ← not_lt]
  by_cases hlen : 2 ^ 31 < linesStr.length * 8
  · rw [if_pos hlen]
    exact iff_of_false (fun ⟨_, hserver, _⟩ => nomatch hserver) fun h => h.1 hlen
  · rw [if_neg hlen]
    constructor
    · rintro ⟨sel, hserver, hlegacy⟩
      refine ⟨hlen, fun hempty => ?_⟩
      rw [if_pos hempty] at hlegacy
      have hsame := (Outcome.done.inj hserver).trans (Outcome.done.inj hlegacy).symm
      rw [hempty] at hsame
      exact hpos.ne' (List.range_eq_nil.mp hsame.symm)
    · rintro ⟨-, hsome⟩
      exact ⟨_, rfl, by rw [if_neg hsome]⟩

theorem servers_select_same_two : 0 < 10 ∧
    ∃ sel, Counter.setLines 10 [2#8, 2#8] = .done sel ∧
      Legacy.Counter.setLines 10 [2#8, 2#8] = .done sel :=
  ⟨by decide, (servers_select_same_iff 10 [2#8, 2#8] (by decide)).mpr
    ⟨by decide, 9, by decide, by decide⟩⟩

theorem servers_select_same_fails : Counter.setLines 1 LineT.clrAll.bits = .done [] ∧
    Legacy.Counter.setLines 1 LineT.clrAll.bits = .done [0] := by
  rw [Counter.setLines_eq, Legacy.Counter.setLines_eq]
  decide +kernel

end PMLib
