import PMLib.Counter
import Mathlib.Data.List.Sort

/-! # Line masks of a client

`line_t` is a set of line ids below 128, kept in sixteen bytes. `isSet` reads a mask as
that set; the server's list of lines is the ascending enumeration of it. -/
namespace PMLib

def lineSetSize : ℕ := 16

structure LineT where
  bits : List Byte
  size : bits.length = lineSetSize
  deriving DecidableEq, Repr

namespace LineT

def toSize (l : ℤ) : ℕ := (l % 2 ^ 64).toNat

/-- `LINE_CLR_ALL`. -/
def clrAll : LineT := ⟨List.replicate lineSetSize 0, by simp⟩

def setAll : LineT := ⟨List.replicate lineSetSize 0xff, by simp⟩

/-- `LINE_SET`. A line beyond the mask is dropped without a report. -/
def set (m : LineT) (l : ℤ) : LineT :=
  if toSize l < 8 * lineSetSize then
    ⟨m.bits.modify (toSize l / 8) (· ||| 1#8 <<< (toSize l % 8)), by simp [m.size]⟩
  else m

def isSet (m : LineT) (l : ℤ) : Bool :=
  if toSize l < 8 * lineSetSize then testMask (m.bits.getD (toSize l / 8) 0) (toSize l % 8)
  else false

def and (a b : LineT) : LineT :=
  ⟨List.zipWith (· &&& ·) a.bits b.bits, by simp [a.size, b.size]⟩

@[simp] theorem toSize_natCast {l : ℕ} (h : l < 2 ^ 64) : toSize l = l := by
  unfold toSize
  omega

theorem set_bits (m : LineT) (l : ℤ) :
    (m.set l).bits = if toSize l < 8 * lineSetSize
      then m.bits.modify (toSize l / 8) (· ||| 1#8 <<< (toSize l % 8)) else m.bits := by
  unfold set
  split_ifs <;> rfl

end LineT

theorem testMask_eq_getLsbD (c : Byte) {b : ℕ} (hb : b < 8) : testMask c b = c.getLsbD b := by
  rw [testMask, ← BitVec.twoPow_eq, BitVec.and_twoPow]
  cases c.getLsbD b with
  | false => rfl
  | true =>
    have hne : BitVec.twoPow 8 b ≠ 0 := by
      intro h
      have hbit := congrArg (·.getLsbD b) h
      simp [hb] at hbit
    rw [if_pos rfl, bne_iff_ne]
    exact hne

theorem testMask_or (c d : Byte) {b : ℕ} (hb : b < 8) :
    testMask (c ||| d) b = (testMask c b || testMask d b) := by
  simp [testMask_eq_getLsbD _ hb]

theorem testMask_and (c d : Byte) {b : ℕ} (hb : b < 8) :
    testMask (c &&& d) b = (testMask c b && testMask d b) := by
  simp [testMask_eq_getLsbD _ hb]

theorem testMask_bit {a b : ℕ} (hb : b < 8) :
    testMask (1#8 <<< a) b = decide (a = b) := by
  rw [testMask_eq_getLsbD _ hb]
  simp only [BitVec.getLsbD_shiftLeft, BitVec.getLsbD_one]
  by_cases h : a = b
  · simp [h, hb]
  · by_cases hlt : b < a
    · simp [hlt, h]
    · have : b - a ≠ 0 := by omega
      simp [this, h]

namespace LineT

theorem isSet_eq (m : LineT) {l : ℕ} (h : l < 128) :
    m.isSet l = testMask (m.bits.getD (l / 8) 0) (l % 8) := by
  have hs : toSize l = l := toSize_natCast (by omega)
  simp [isSet, hs, lineSetSize, h]

@[simp] theorem isSet_clrAll (l : ℤ) : clrAll.isSet l = false := by
  unfold isSet clrAll
  split_ifs with h
  · have hl : toSize l / 8 < lineSetSize := by omega
    simp [hl, testMask]
  · rfl

theorem isSet_and (a b : LineT) (l : ℤ) : (a.and b).isSet l = (a.isSet l && b.isSet l) := by
  unfold isSet
  split_ifs with h
  · have ha : toSize l / 8 < a.bits.length := by rw [a.size]; omega
    have hb : toSize l / 8 < b.bits.length := by rw [b.size]; omega
    rw [← testMask_and _ _ (Nat.mod_lt _ (by decide))]
    simp [and, ha, hb]
  · rfl

theorem isSet_set (m : LineT) {n : ℕ} (hn : n < 2 ^ 64) {l : ℕ} (hl : l < 128) :
    (m.set n).isSet l = (m.isSet l || decide (n = l)) := by
  rw [isSet_eq _ hl, isSet_eq _ hl, set_bits, toSize_natCast hn]
  by_cases h : n < 8 * lineSetSize
  · have hlen : l / 8 < m.bits.length := by rw [m.size, lineSetSize]; omega
    simp only [h, if_true, List.getD_eq_getElem?_getD, List.getElem?_modify]
    by_cases hbyte : n / 8 = l / 8
    · simp only [hbyte, if_true, hlen, List.getElem?_eq_getElem, Option.map_eq_map, Option.map_some,
        Option.getD_some]
      rw [testMask_or _ _ (Nat.mod_lt _ (by decide)),
        testMask_bit (Nat.mod_lt _ (by decide))]
      congr 1
      simp only [decide_eq_decide]
      omega
    · have hne : n ≠ l := fun he => hbyte (by rw [he])
      simp [hbyte, hne]
  · have hne : n ≠ l := by unfold lineSetSize at h; omega
    simp [h, hne]

theorem isSet_foldl_set (ns : List ℕ) (hns : ∀ n ∈ ns, n < 2 ^ 64) (m : LineT) {l : ℕ}
    (hl : l < 128) :
    (ns.foldl (fun m n => m.set n) m).isSet l = (m.isSet l || decide (l ∈ ns)) := by
  induction ns generalizing m with
  | nil => simp
  | cons n ns ih =>
    rw [List.foldl_cons, ih (fun x hx => hns x (by simp [hx])), isSet_set _ (hns n (by simp)) hl,
      Bool.or_assoc]
    congr 1
    by_cases h : n = l
    · simp [h]
    · simp [h, Ne.symm h]

def lines (m : LineT) (nLines : ℕ) : List ℕ :=
  (List.range (min nLines 128)).filter fun l => m.isSet l

theorem mem_lines {m : LineT} {nLines l : ℕ} :
    l ∈ m.lines nLines ↔ l < min nLines 128 ∧ m.isSet l = true := by
  simp [lines]

theorem lines_sorted (m : LineT) (nLines : ℕ) : (m.lines nLines).Pairwise (· < ·) :=
  List.pairwise_lt_range.filter _

end LineT

/-! ## Masks of any length -/

def selects (linesStr : List Byte) (l : ℕ) : Bool := testMask (linesStr.getD (l / 8) 0) (l % 8)

def selectedLines (nLines : ℕ) (linesStr : List Byte) : List ℕ :=
  (List.range nLines).filter fun l => selects linesStr l

theorem mem_selectedLines {nLines l : ℕ} {linesStr : List Byte} :
    l ∈ selectedLines nLines linesStr ↔ l < nLines ∧ selects linesStr l = true := by
  simp [selectedLines]

theorem selectedLines_sorted (nLines : ℕ) (linesStr : List Byte) :
    (selectedLines nLines linesStr).Pairwise (· < ·) := List.pairwise_lt_range.filter _

theorem selectedLines_eq_nil_iff {nLines : ℕ} {linesStr : List Byte} :
    selectedLines nLines linesStr = [] ↔ ∀ l < nLines, selects linesStr l = false := by
  simp [selectedLines, List.filter_eq_nil_iff]

theorem selects_of_length_le {linesStr : List Byte} {l : ℕ} (h : linesStr.length * 8 ≤ l) :
    selects linesStr l = false := by
  rw [selects, List.getD_eq_getElem?_getD, List.getElem?_eq_none (by omega), Option.getD_none,
    testMask_eq_getLsbD _ (Nat.mod_lt _ (by decide))]
  simp

theorem Counter.setLines_eq (nLines : ℕ) (linesStr : List Byte) :
    Counter.setLines nLines linesStr =
      if 2 ^ 31 < linesStr.length * 8 then .undefined
      else .done (selectedLines nLines linesStr) := by
  by_cases hlen : 2 ^ 31 < linesStr.length * 8
  · rw [setLines, if_pos hlen, if_pos hlen]
  obtain ⟨sel, hsel⟩ : ∃ sel, Counter.setLines nLines linesStr = .done sel := by
    rw [setLines, if_neg hlen]
    exact ⟨_, rfl⟩
  obtain ⟨hs, -⟩ := Counter.setLines_sorted hsel
  rw [if_neg hlen, hsel]
  congr 1
  refine hs.eq_of_mem_iff (selectedLines_sorted nLines linesStr) fun l => ?_
  rw [setLines, if_neg hlen] at hsel
  obtain rfl := Outcome.done.inj hsel
  simp only [List.mem_flatMap, List.mem_filterMap, List.mem_range,
    Option.ite_none_right_eq_some, Option.some.injEq, mem_selectedLines, selects]
  constructor
  · rintro ⟨i, hi, b, hb, ⟨ht, hlt⟩, rfl⟩
    have hdiv : (i * 8 + b) / 8 = i := by omega
    have hmod : (i * 8 + b) % 8 = b := by omega
    exact ⟨hlt, by rwa [hdiv, hmod]⟩
  · rintro ⟨hlt, hset⟩
    have hl : l < linesStr.length * 8 := by
      by_contra hl
      exact absurd hset (by rw [← selects, selects_of_length_le (by omega)]; simp)
    have heq : l / 8 * 8 + l % 8 = l := by omega
    exact ⟨l / 8, by omega, l % 8, by omega, ⟨hset, by omega⟩, heq⟩

theorem LineT.lines_eq_selectedLines (m : LineT) (nLines : ℕ) :
    m.lines nLines = selectedLines nLines m.bits := by
  refine (m.lines_sorted nLines).eq_of_mem_iff (selectedLines_sorted nLines m.bits) fun l => ?_
  rw [mem_lines, mem_selectedLines, Nat.lt_min, and_assoc]
  refine and_congr_right fun _ => ?_
  by_cases hl : l < 128
  · rw [isSet_eq _ hl, selects, and_iff_right hl]
  · rw [selects_of_length_le (by rw [m.size, lineSetSize]; omega)]
    simp [hl]

theorem Counter.setLines_bits (nLines : ℕ) (m : LineT) :
    Counter.setLines nLines m.bits = .done (m.lines nLines) := by
  rw [setLines_eq, m.size, if_neg (by decide), m.lines_eq_selectedLines]

end PMLib
