import PMLib.ArduPower
import Mathlib.Data.Set.Function

/-! # The bits of an ArduPower frame

Where the bits of a channel are in a frame, and that frames with nothing in the other bits
and vectors of values determine each other. -/
namespace PMLib.Legacy.ArduPower

variable {n i j t u p b : ℕ} {w : List Byte} {vs : List ℕ}

/-- The byte and the bit of it that bit `t` of channel `i` is read from. -/
def address (n i t : ℕ) : ℕ × ℕ :=
  if t < 7 then (lowByte i, t) else (highByte n i, t - highShift n i)

def Addressed (n p b : ℕ) : Prop := ∃ i < n, ∃ t < 10, address n i t = (p, b)

instance (n p b : ℕ) : Decidable (Addressed n p b) := by
  unfold Addressed
  infer_instance

def frameBit (w : List Byte) (p b : ℕ) : Bool := (w.getD p 0).getLsbD b

/-- A frame with zeros in all bits that belong to no channel. -/
structure Clean (n : ℕ) (w : List Byte) : Prop where
  isFrame : IsFrame n w
  zero : ∀ p, ∀ b < 7, ¬ Addressed n p b → frameBit w p b = false

structure Samples (n : ℕ) (vs : List ℕ) : Prop where
  length : vs.length = n
  lt : ∀ v ∈ vs, v < 1024

/-! ## Addresses -/

theorem address_lt (hi : i < n) (ht : t < 10) :
    (address n i t).1 < frameBytes n ∧ (address n i t).2 < 7 := by
  unfold address
  split_ifs with hlow
  · exact ⟨lowByte_lt hi, hlow⟩
  · refine ⟨highByte_lt hi, ?_⟩
    unfold highShift
    split_ifs <;> omega

theorem lowByte_inj (h : lowByte i = lowByte j) : i = j := by
  unfold lowByte at h
  omega

theorem lowByte_ne_highByte (hi : i < n) : lowByte i ≠ highByte n j := by
  unfold lowByte
  rcases highByte_cases n j with ⟨⟨hlast, heven⟩, hbyte, -⟩ | ⟨-, hbyte, -⟩
  · omega
  · omega

/-- Two channels may share a byte of high bits, but not its bits. -/
theorem highAddress_inj (ht : 7 ≤ t) (ht' : t < 10) (hu : 7 ≤ u)
    (hu' : u < 10) (hbyte : highByte n i = highByte n j)
    (hbit : t - highShift n i = u - highShift n j) : i = j ∧ t = u := by
  rcases highByte_cases n i with ⟨⟨hi₁, hi₂⟩, hbi, hsi⟩ | ⟨hi₁, hbi, hsi⟩ <;>
    rcases highByte_cases n j with ⟨⟨hj₁, hj₂⟩, hbj, hsj⟩ | ⟨hj₁, hbj, hsj⟩
  · omega
  · omega
  · omega
  · rw [hsi, hsj] at hbit
    split_ifs at hbit <;> omega

theorem address_inj (hi : i < n) (hj : j < n) (ht : t < 10) (hu : u < 10)
    (h : address n i t = address n j u) : i = j ∧ t = u := by
  unfold address at h
  split_ifs at h with hlow hlow' hlow' <;> obtain ⟨hbyte, hbit⟩ := Prod.mk.inj h
  · exact ⟨lowByte_inj hbyte, hbit⟩
  · exact absurd hbyte (lowByte_ne_highByte hi)
  · exact absurd hbyte.symm (lowByte_ne_highByte hj)
  · exact highAddress_inj (by omega) ht (by omega) hu hbyte hbit

/-! ## Unpacking reads the bits at the addresses -/

theorem testBit_high (t : ℕ) : Nat.testBit 0x0380 t = decide (7 ≤ t ∧ t < 10) := by
  have : 0x0380 = (2 ^ 3 - 1) <<< 7 := rfl
  rw [this, Nat.testBit_shiftLeft, Nat.testBit_two_pow_sub_one]
  by_cases ht : 7 ≤ t
  · simp [ht]
    omega
  · simp [ht]

theorem testBit_low (t : ℕ) : Nat.testBit 0x7F t = decide (t < 7) :=
  Nat.testBit_two_pow_sub_one 7 t

theorem testBit_bits (n : ℕ) (w : List Byte) (i t : ℕ) :
    (bits n w i).testBit t =
      (decide (t < 10) && frameBit w (address n i t).1 (address n i t).2) := by
  have hshift : 7 ≤ t → highShift n i ≤ t := by
    intro ht
    unfold highShift
    split_ifs <;> omega
  rw [bits, Nat.testBit_or, Nat.testBit_and, Nat.testBit_and, Nat.testBit_shiftLeft, testBit_high,
    testBit_low, address]
  by_cases hlow : t < 7
  · simp [hlow, show ¬ 7 ≤ t by omega, show t < 10 by omega, frameBit, ord, BitVec.getLsbD]
  · by_cases hhigh : t < 10
    · simp [hlow, show 7 ≤ t by omega, hhigh, hshift, frameBit, ord, BitVec.getLsbD]
    · simp [hlow, hhigh]

theorem bits_lt (n : ℕ) (w : List Byte) (i : ℕ) : bits n w i < 1024 := by
  apply Nat.lt_pow_two_of_testBit (n := 10)
  intro t ht
  simp [testBit_bits, Nat.not_lt.mpr ht]

/-! ## Packing -/

def packBit (n : ℕ) (vs : List ℕ) (p b : ℕ) : Bool :=
  if b = 7 then p == 0
  else (List.range n).any fun i => (List.range 10).any fun t =>
    address n i t == (p, b) && (vs.getD i 0).testBit t

def packByte (n : ℕ) (vs : List ℕ) (p : ℕ) : Byte :=
  (BitVec.ofBoolListLE ((List.range 8).map (packBit n vs p))).cast (by simp)

def pack (n : ℕ) (vs : List ℕ) : List Byte := (List.range (frameBytes n)).map (packByte n vs)

theorem getLsbD_packByte (hb : b < 8) : (packByte n vs p).getLsbD b = packBit n vs p b := by
  rw [packByte, BitVec.getLsbD_cast, BitVec.getLsbD_ofBoolListLE, List.getD_eq_getElem?_getD,
    List.getElem?_map, List.getElem?_range hb]
  rfl

theorem packBit_eq_true (hb : b ≠ 7) :
    packBit n vs p b = true ↔
      ∃ i < n, ∃ t < 10, address n i t = (p, b) ∧ (vs.getD i 0).testBit t = true := by
  rw [packBit, if_neg hb]
  simp only [List.any_eq_true, List.mem_range, Bool.and_eq_true, beq_iff_eq]

@[simp] theorem length_pack (n : ℕ) (vs : List ℕ) : (pack n vs).length = frameBytes n := by
  simp [pack]

theorem getElem?_pack (hp : p < frameBytes n) :
    (pack n vs)[p]? = some (packByte n vs p) := by
  simp [pack, hp]

theorem frameBit_pack (hp : p < frameBytes n) (hb : b < 8) :
    frameBit (pack n vs) p b = packBit n vs p b := by
  rw [frameBit, List.getD_eq_getElem?_getD, getElem?_pack hp, Option.getD_some,
    getLsbD_packByte hb]

theorem frameBit_of_length_le (hp : w.length ≤ p) (b : ℕ) : frameBit w p b = false := by
  rw [frameBit, List.getD_eq_getElem?_getD, List.getElem?_eq_none hp]
  exact BitVec.getLsbD_zero

theorem frameBit_pack_address (hi : i < n) (ht : t < 10) :
    frameBit (pack n vs) (address n i t).1 (address n i t).2 = (vs.getD i 0).testBit t := by
  obtain ⟨hbyte, hbit⟩ := address_lt hi ht
  rw [frameBit_pack hbyte (by omega), Bool.eq_iff_iff, packBit_eq_true (by omega)]
  constructor
  · rintro ⟨j, hj, u, hu, haddress, h⟩
    obtain ⟨rfl, rfl⟩ := address_inj hj hi hu ht haddress
    exact h
  · intro h
    exact ⟨i, hi, t, ht, rfl, h⟩

theorem clean_pack (hn : 0 < n) (vs : List ℕ) : Clean n (pack n vs) := by
  refine ⟨⟨by rw [length_pack, nBytes_eq hn], fun p c hc => ?_⟩, fun p b hb hno => ?_⟩
  · obtain ⟨hp, -⟩ := List.getElem?_eq_some_iff.mp hc
    rw [length_pack] at hp
    obtain rfl := Option.some.inj ((getElem?_pack hp).symm.trans hc)
    rw [getLsbD_packByte (by decide), packBit, if_pos rfl, beq_iff_eq]
  · rcases Nat.lt_or_ge p (frameBytes n) with hp | hp
    · rw [frameBit_pack hp (by omega), ← Bool.not_eq_true, packBit_eq_true (by omega)]
      rintro ⟨i, hi, t, ht, haddress, -⟩
      exact hno ⟨i, hi, t, ht, haddress⟩
    · exact frameBit_of_length_le (by rwa [length_pack]) b

theorem values_pack (hvs : Samples n vs) : values n (pack n vs) = .done vs := by
  rw [values_eq (length_pack n vs), Outcome.done.injEq]
  apply List.ext_getElem (by rw [List.length_map, List.length_range, hvs.length])
  intro i hi hlt
  have hin : i < n := by rwa [hvs.length] at hlt
  rw [List.getElem_map, List.getElem_range]
  apply Nat.eq_of_testBit_eq
  intro t
  rw [testBit_bits]
  by_cases ht : t < 10
  · rw [frameBit_pack_address hin ht, List.getD_eq_getElem?_getD, List.getElem?_eq_getElem hlt]
    simp [ht]
  · have hpow : 2 ^ 10 ≤ 2 ^ t := Nat.pow_le_pow_right (by decide) (Nat.not_lt.mp ht)
    have hv : vs[i] < 2 ^ t := (hvs.lt _ (List.getElem_mem hlt)).trans_le hpow
    simp [ht, Nat.testBit_lt_two_pow hv]

/-! ## Unpacking is one-to-one -/

theorem frame_ext {w' : List Byte} (hlen : w.length = w'.length)
    (h : ∀ p, ∀ b < 8, frameBit w p b = frameBit w' p b) : w = w' := by
  apply List.ext_getElem hlen
  intro p hp hp'
  apply BitVec.eq_of_getLsbD_eq
  intro b hb
  have := h p b hb
  simpa [frameBit, List.getD_eq_getElem?_getD, List.getElem?_eq_getElem hp,
    List.getElem?_eq_getElem hp'] using this

theorem IsFrame.frameBit_seven (h : IsFrame n w) (hp : p < w.length) :
    frameBit w p 7 = (p == 0) := by
  rw [frameBit, List.getD_eq_getElem?_getD, List.getElem?_eq_getElem hp, Bool.eq_iff_iff,
    beq_iff_eq]
  exact h.marked p _ (List.getElem?_eq_getElem hp)

theorem Clean.eq_of_bits {w' : List Byte} (hn : 0 < n) (hw : Clean n w) (hw' : Clean n w')
    (h : ∀ i < n, bits n w i = bits n w' i) : w = w' := by
  have hlen : w.length = w'.length :=
    (hw.isFrame.length_eq hn).trans (hw'.isFrame.length_eq hn).symm
  refine frame_ext hlen fun p b hb => ?_
  rcases Nat.lt_or_ge p w.length with hp | hp
  · by_cases hseven : b = 7
    · rw [hseven, hw.isFrame.frameBit_seven hp, hw'.isFrame.frameBit_seven (hlen ▸ hp)]
    · by_cases haddr : Addressed n p b
      · obtain ⟨i, hi, t, ht, haddress⟩ := haddr
        have := congrArg (Nat.testBit · t) (h i hi)
        simpa [testBit_bits, ht, haddress] using this
      · rw [hw.zero p b (by omega) haddr, hw'.zero p b (by omega) haddr]
  · rw [frameBit_of_length_le hp, frameBit_of_length_le (hlen ▸ hp)]

/-- Every bit of a value has a place of its own in the frame, never bit 7 of a byte, and
unpacking is a bijection from the clean frames to the vectors of values. -/
theorem values_bijOn (n : ℕ) (hn : 0 < n) :
    (∀ i < n, ∀ t < 10, (∀ size, nBytes n = .done size → (address n i t).1 < size) ∧
      (address n i t).2 < 7) ∧
    (∀ i < n, ∀ j < n, ∀ t < 10, ∀ u < 10, address n i t = address n j u → i = j ∧ t = u) ∧
    (∀ w, IsFrame n w → ∃ vs, values n w = .done vs ∧ vs.length = n ∧
      ∀ i v, vs[i]? = some v → ∀ t,
        v.testBit t = (decide (t < 10) && frameBit w (address n i t).1 (address n i t).2)) ∧
    Set.BijOn (values n) {w | Clean n w} {x | ∃ vs, x = .done vs ∧ Samples n vs} := by
  refine ⟨fun i hi t ht => ?_, fun i hi j hj t ht u hu h => address_inj hi hj ht hu h,
    fun w hw => ?_, ?_, ?_, ?_⟩
  · obtain ⟨hbyte, hbit⟩ := address_lt hi ht
    refine ⟨fun size hsize => ?_, hbit⟩
    rw [nBytes_eq hn] at hsize
    rwa [← Outcome.done.inj hsize]
  · refine ⟨_, values_eq (hw.length_eq hn), by simp, fun i v hv t => ?_⟩
    obtain ⟨hlt, rfl⟩ := List.getElem?_eq_some_iff.mp hv
    rw [List.getElem_map, List.getElem_range, testBit_bits]
  · intro w hw
    refine ⟨_, values_eq (hw.isFrame.length_eq hn), by simp, fun v hv => ?_⟩
    obtain ⟨i, -, rfl⟩ := List.mem_map.mp hv
    exact bits_lt n w i
  · intro w hw w' hw' h
    refine Clean.eq_of_bits hn hw hw' fun i hi => ?_
    rw [values_eq (hw.isFrame.length_eq hn), values_eq (hw'.isFrame.length_eq hn)] at h
    exact List.map_inj_left.mp (Outcome.done.inj h) i (List.mem_range.mpr hi)
  · rintro _ ⟨vs, rfl, hvs⟩
    exact ⟨pack n vs, clean_pack hn vs, values_pack hvs⟩

theorem values_bijOn_three :
    Set.BijOn (values 3) {w | Clean 3 w} {x | ∃ vs, x = .done vs ∧ Samples 3 vs} :=
  (values_bijOn 3 (by decide)).2.2.2

example : pack 3 [1, 640, 1023] = [0x81#8, 0x00#8, 0x05#8, 0x7F#8, 0x07#8] := by decide +kernel

end PMLib.Legacy.ArduPower
