import PMLib.Legacy

/-! # The ArduPower reader

The board sends ten bits for each of its channels, in frames that have bit 7 set on their
first byte only. The legacy driver unpacks them. -/
namespace PMLib.Legacy.ArduPower

variable {V F : Type}

structure Line (F : Type) where
  number : ℕ
  voltage : F
  offset : F
  slope : F
  deriving DecidableEq, Repr

/-- Python's arithmetic on floats, as far as the driver needs it: which of them are zero, and
`(float(value) - offset) / slope * voltage`. -/
structure Arithmetic (F : Type) where
  isZero : F → Bool
  sample : (value : ℕ) → (offset slope voltage : F) → F

def ord (b : Byte) : ℕ := b.toNat

/-- `ord(b) >> 7` is 1. It is 0 otherwise. -/
def marked (b : Byte) : Bool := ord b >>> 7 == 1

theorem marked_eq (b : Byte) : marked b = b.getLsbD 7 := by
  have := b.isLt
  rw [marked, ord, Nat.shiftRight_eq_div_pow, BitVec.getLsbD, Nat.testBit_eq_decide_div_mod_eq,
    Bool.eq_iff_iff, beq_iff_eq, decide_eq_true_eq]
  omega

/-! ## Unpacking -/

def positionss (channels : ℕ) : List ℕ :=
  (List.range channels).map fun i =>
    let p := 3 * (i / 2) + 2
    if i = channels - 1 ∧ i % 2 = 0 then p - 1 else p

def shifts (channels : ℕ) : List ℕ :=
  ((List.range (channels / 2)).flatMap fun _ => [4, 7]) ++ if channels % 2 = 1 then [7] else []

def nBytes (channels : ℕ) : Outcome ℕ := do
  let p ← item (positionss channels) (channels - 1)
  .done (p + 1)

/-- What the loop takes for the value of channel `i`. -/
def value (channels : ℕ) (lines : List Byte) (i j : ℕ) : Outcome ℕ := do
  let position ← raising (positionss channels)[i]?
  let high ← raising lines[position]?
  let shift ← raising (shifts channels)[i]?
  let low ← raising lines[j]?
  .done (((ord high <<< shift) &&& 0x0380) ||| (ord low &&& 0x7F))

def next (i j : ℕ) : ℕ :=
  let j := j + 1
  if (i + 1) % 2 = 0 ∧ i ≠ 0 then j + 1 else j

/-- The loop over the channels. What becomes of a value is for `store` to say. -/
def unpack (store : ℕ → ℕ → Outcome V) (channels : ℕ) (lines : List Byte) : Outcome (List V) := do
  let r ← (List.range channels).foldlM (fun (s : List V × ℕ) i => do
    let v ← value channels lines i s.2
    let x ← store i v
    .done (s.1 ++ [x], next i s.2)) ([], 0)
  .done r.1

def values (channels : ℕ) (lines : List Byte) : Outcome (List ℕ) :=
  unpack (fun _ v => .done v) channels lines

/-- Python does not divide by zero. -/
def Line.power (ops : Arithmetic F) (l : Line F) (value : ℕ) : Outcome F :=
  if ops.isZero l.slope then .failed
  else .done (ops.sample value l.offset l.slope l.voltage)

def powers (ops : Arithmetic F) (ls : List (Line F)) (lines : List Byte) : Outcome (List F) :=
  unpack (fun i v => do
    let l ← raising ls[i]?
    l.power ops v) ls.length lines

/-! ## The channel mask -/

def channelMask (ls : List (Line F)) : ℕ := ls.foldl (fun mask l => mask ||| 1 <<< l.number) 0

/-- The bytes that are written to the board. An item of a `bytearray` is below 256. -/
def maskBytes (ls : List (Line F)) : Outcome (List Byte) :=
  let lsb := channelMask ls &&& 0xff
  let msb := channelMask ls >>> 8
  if msb < 256 then .done [.ofNat 8 msb, .ofNat 8 lsb] else .failed

/-! ## Reading -/

abbrev Port := ℕ → Byte

/-- `ser.read(size)` behind `pos` bytes. It waits until it has them all. -/
def Port.read (port : Port) (pos size : ℕ) : List Byte :=
  (List.range size).map fun i => port (pos + i)

structure Reader (F : Type) where
  pos : ℕ
  yielded : List (List F)
  deriving DecidableEq, Repr

/-- The window from its first mark on, topped up, and the position behind it. -/
def realign (port : Port) (pos : ℕ) (lines : List Byte) : Option (List Byte × ℕ) :=
  if lines.head?.any marked then some (lines, pos)
  else match lines.findIdx? marked with
    | some k => some (lines.drop k ++ port.read pos k, pos + k)
    | none => none

def pass (port : Port) (size : ℕ) (powers : List Byte → Outcome (List F)) (r : Reader F) :
    Outcome (Reader F) :=
  match realign port (r.pos + size) (port.read r.pos size) with
  | none => .done { r with pos := r.pos + size }
  | some (lines, pos) =>
    if lines.tail.any marked then .done { r with pos }
    else do
      let power ← powers lines
      .done ⟨pos, r.yielded ++ [power]⟩

def passes (port : Port) (size : ℕ) (powers : List Byte → Outcome (List F)) :
    ℕ → Outcome (Reader F)
  | 0 => .done ⟨0, []⟩
  | k + 1 => passes port size powers k >>= pass port size powers

def sampling (ops : Arithmetic F) (ls : List (Line F)) (port : Port) (k : ℕ) :
    Outcome (Reader F) := do
  let size ← nBytes ls.length
  passes port size (powers ops ls) k

def read (ops : Arithmetic F) (ls : List (Line F)) (port : Port) (k : ℕ) :
    Outcome (Reader F) := do
  let _ ← maskBytes ls
  sampling ops ls port k

structure IsFrame (n : ℕ) (w : List Byte) : Prop where
  length : nBytes n = .done w.length
  marked : ∀ i b, w[i]? = some b → (b.getLsbD 7 = true ↔ i = 0)

theorem isFrame_iff {n : ℕ} {w : List Byte} :
    IsFrame n w ↔ nBytes n = .done w.length ∧
      ∀ i : Fin w.length, (w.get i).getLsbD 7 = true ↔ i.val = 0 := by
  constructor
  · rintro ⟨hlen, hmarked⟩
    exact ⟨hlen, fun i => hmarked i _ (List.getElem?_eq_getElem i.isLt)⟩
  · rintro ⟨hlen, hmarked⟩
    refine ⟨hlen, fun i b hi => ?_⟩
    obtain ⟨hlt, rfl⟩ := List.getElem?_eq_some_iff.mp hi
    exact hmarked ⟨i, hlt⟩

instance (n : ℕ) (w : List Byte) : Decidable (IsFrame n w) := decidable_of_iff' _ isFrame_iff

/-! ## Where the bits of a channel are -/

/-- The byte with the low bits of channel `i`. -/
def lowByte (i : ℕ) : ℕ := 3 * (i / 2) + i % 2

/-- The last channel of an odd number has no other one to share a byte with. -/
def Alone (channels i : ℕ) : Prop := i + 1 = channels ∧ i % 2 = 0

instance (channels i : ℕ) : Decidable (Alone channels i) :=
  inferInstanceAs (Decidable (_ ∧ _))

def highByte (channels i : ℕ) : ℕ := 3 * (i / 2) + if Alone channels i then 1 else 2

def highShift (channels i : ℕ) : ℕ := if Alone channels i ∨ i % 2 = 1 then 7 else 4

def frameBytes (channels : ℕ) : ℕ := 3 * (channels / 2) + 2 * (channels % 2)

section Layout

variable {n i j : ℕ}

theorem positionss_get (hi : i < n) : (positionss n)[i]? = some (highByte n i) := by
  have hlast : (i = n - 1 ∧ i % 2 = 0) ↔ Alone n i := by
    unfold Alone
    omega
  simp only [positionss, List.getElem?_map, List.getElem?_range hi, Option.map_some, hlast,
    highByte]
  split_ifs <;> rfl

@[simp] theorem length_pairs (k : ℕ) :
    ((List.range k).flatMap fun _ => [4, 7]).length = 2 * k := by
  simp [Nat.mul_comm]

theorem getElem?_pairs (k : ℕ) (hi : i < 2 * k) :
    ((List.range k).flatMap fun _ => [4, 7])[i]? = some (if i % 2 = 0 then 4 else 7) := by
  induction k with
  | zero => omega
  | succ k ih =>
    rw [List.range_succ, List.flatMap_append, List.getElem?_append, length_pairs]
    split_ifs with hlt heven heven
    · rw [ih hlt, if_pos heven]
    · rw [ih hlt, if_neg heven]
    · obtain rfl : i = 2 * k := by omega
      simp
    · obtain rfl : i = 2 * k + 1 := by omega
      simp

theorem shifts_get (hi : i < n) : (shifts n)[i]? = some (highShift n i) := by
  rw [shifts, List.getElem?_append, length_pairs]
  rcases Nat.lt_or_ge i (2 * (n / 2)) with hlt | hge
  · have hshift : highShift n i = if i % 2 = 0 then 4 else 7 := by
      unfold highShift Alone
      split_ifs <;> omega
    rw [if_pos hlt, getElem?_pairs _ hlt, hshift]
  · have halone : Alone n i := by
      unfold Alone
      omega
    have hodd : n % 2 = 1 := by omega
    have hi' : i - 2 * (n / 2) = 0 := by omega
    simp [Nat.not_lt.mpr hge, hodd, hi', highShift, halone]

theorem highByte_cases (n i : ℕ) :
    (Alone n i ∧ highByte n i = 3 * (i / 2) + 1 ∧ highShift n i = 7) ∨
      (¬ Alone n i ∧ highByte n i = 3 * (i / 2) + 2 ∧
        highShift n i = if i % 2 = 1 then 7 else 4) := by
  by_cases h : Alone n i
  · exact .inl ⟨h, by rw [highByte, if_pos h], by rw [highShift, if_pos (.inl h)]⟩
  · refine .inr ⟨h, by rw [highByte, if_neg h], ?_⟩
    simp only [highShift, h, false_or]

theorem highByte_lt (hi : i < n) : highByte n i < frameBytes n := by
  unfold frameBytes
  rcases highByte_cases n i with ⟨⟨hlast, heven⟩, hbyte, -⟩ | ⟨hno, hbyte, -⟩
  · omega
  · unfold Alone at hno
    omega

theorem lowByte_lt (hi : i < n) : lowByte i < frameBytes n := by
  unfold lowByte frameBytes
  omega

theorem highByte_last (hn : 0 < n) : highByte n (n - 1) + 1 = frameBytes n := by
  unfold frameBytes
  rcases highByte_cases n (n - 1) with ⟨⟨hlast, heven⟩, hbyte, -⟩ | ⟨hno, hbyte, -⟩
  · omega
  · unfold Alone at hno
    omega

theorem nBytes_eq (hn : 0 < n) : nBytes n = .done (frameBytes n) := by
  have hcast : ((n : ℤ) - 1).toNat = n - 1 := by omega
  rw [nBytes, item, if_pos (by omega), hcast, positionss_get (by omega), raising,
    Outcome.done_bind, highByte_last hn]

theorem next_lowByte (i : ℕ) : next i (lowByte i) = lowByte (i + 1) := by
  simp only [next, lowByte]
  split_ifs <;> omega

/-! ## The loop over the channels -/

variable {lines : List Byte}

/-- Every channel is unpacked with the `j` that belongs to it. -/
theorem unpack_eq (store : ℕ → ℕ → Outcome V) (n : ℕ) (lines : List Byte) :
    unpack store n lines =
      (List.range n).mapM fun i => value n lines i (lowByte i) >>= store i := by
  have hloop : ∀ k, ((List.range k).foldlM (fun (s : List V × ℕ) i => do
      let v ← value n lines i s.2
      let x ← store i v
      Outcome.done (s.1 ++ [x], next i s.2)) ([], 0)) =
        ((List.range k).mapM fun i => value n lines i (lowByte i) >>= store i) >>= fun xs =>
          Outcome.done (xs, lowByte k) := by
    intro k
    induction k with
    | zero => rfl
    | succ k ih =>
      simp only [List.range_succ, List.foldlM_append, ih, List.mapM_append, List.foldlM_cons,
        List.foldlM_nil, List.mapM_cons, List.mapM_nil, bind_assoc, Outcome.done_bind,
        Outcome.pure_done, next_lowByte]
  rw [unpack, hloop, bind_assoc]
  simp only [Outcome.done_bind]
  exact bind_pure _

/-- The ten bits of channel `i`, with its seven low ones behind its three high ones. -/
def bits (n : ℕ) (lines : List Byte) (i : ℕ) : ℕ :=
  ((ord (lines.getD (highByte n i) 0) <<< highShift n i) &&& 0x0380) |||
    (ord (lines.getD (lowByte i) 0) &&& 0x7F)

theorem value_eq (hlen : lines.length = frameBytes n) (hi : i < n) :
    value n lines i (lowByte i) = .done (bits n lines i) := by
  have hget : ∀ p < lines.length, lines[p]? = some (lines.getD p 0) := by
    intro p hp
    rw [List.getD_eq_getElem?_getD, List.getElem?_eq_getElem hp, Option.getD_some]
  rw [value, positionss_get hi, shifts_get hi, hget _ (hlen ▸ lowByte_lt hi), raising,
    Outcome.done_bind, hget _ (hlen ▸ highByte_lt hi)]
  rfl

theorem unpack_frame (store : ℕ → ℕ → Outcome V) (hlen : lines.length = frameBytes n) :
    unpack store n lines = (List.range n).mapM fun i => store i (bits n lines i) := by
  rw [unpack_eq]
  apply Outcome.mapM_congr
  intro i hi
  rw [value_eq hlen (List.mem_range.mp hi), Outcome.done_bind]

theorem values_eq (hlen : lines.length = frameBytes n) :
    values n lines = .done ((List.range n).map (bits n lines)) := by
  rw [values, unpack_frame _ hlen]
  exact Outcome.mapM_eq_map fun i _ => rfl

theorem IsFrame.length_eq (h : IsFrame n lines) (hn : 0 < n) : lines.length = frameBytes n := by
  have := h.length
  rw [nBytes_eq hn] at this
  exact (Outcome.done.inj this).symm

theorem powers_returns_iff {ops : Arithmetic F} {ls : List (Line F)}
    (hlen : lines.length = frameBytes ls.length) :
    (powers ops ls lines).Returns ↔ ∀ l ∈ ls, ops.isZero l.slope = false := by
  have hpower : ∀ (l : Line F) v, (l.power ops v).Returns ↔ ops.isZero l.slope = false := by
    intro l v
    unfold Line.power
    cases ops.isZero l.slope <;> simp [Outcome.Returns]
  rw [powers, unpack_frame _ hlen, Outcome.returns_mapM]
  constructor
  · intro h l hl
    obtain ⟨i, hi, rfl⟩ := List.getElem_of_mem hl
    have hret := h i (List.mem_range.mpr hi)
    rwa [List.getElem?_eq_getElem hi, raising, Outcome.done_bind, hpower] at hret
  · intro h i hi
    have hlt : i < ls.length := List.mem_range.mp hi
    rw [List.getElem?_eq_getElem hlt, raising, Outcome.done_bind, hpower]
    exact h _ (List.getElem_mem hlt)

end Layout

/-! ## Lines that the mask has a bit for -/

section Mask

variable {ls : List (Line F)}

theorem testBit_foldl (mask : ℕ) (i : ℕ) :
    (ls.foldl (fun mask l => mask ||| 1 <<< l.number) mask).testBit i =
      (mask.testBit i || ls.any fun l => l.number == i) := by
  induction ls generalizing mask with
  | nil => simp
  | cons l ls ih =>
    rw [List.foldl_cons, ih, Nat.testBit_or, Nat.one_shiftLeft, Nat.testBit_two_pow,
      List.any_cons, Bool.or_assoc]
    rfl

theorem testBit_channelMask (i : ℕ) :
    (channelMask ls).testBit i = ls.any fun l => l.number == i := by
  rw [channelMask, testBit_foldl, Nat.zero_testBit, Bool.false_or]

theorem maskBytes_returns_iff : (maskBytes ls).Returns ↔ ∀ l ∈ ls, l.number < 16 := by
  have hmsb : (maskBytes ls).Returns ↔ channelMask ls < 2 ^ 16 := by
    have hshift : channelMask ls >>> 8 < 256 ↔ channelMask ls < 2 ^ 16 := by
      rw [Nat.shiftRight_eq_div_pow]
      omega
    unfold maskBytes
    dsimp only
    rw [← hshift]
    split_ifs with h <;> simp [Outcome.Returns, h]
  rw [hmsb]
  constructor
  · intro h l hl
    by_contra hge
    have hbit : (channelMask ls).testBit l.number = true := by
      rw [testBit_channelMask, List.any_eq_true]
      exact ⟨l, hl, beq_self_eq_true _⟩
    have hle := Nat.ge_two_pow_of_testBit hbit
    have hpow : 2 ^ 16 ≤ 2 ^ l.number := Nat.pow_le_pow_right (by decide) (by omega)
    omega
  · intro h
    refine Nat.lt_pow_two_of_testBit _ fun i hi => ?_
    rw [testBit_channelMask, List.any_eq_false]
    intro l hl
    have := h l hl
    simp only [beq_iff_eq]
    omega

theorem read_eq_sampling (ops : Arithmetic F) (h : ∀ l ∈ ls, l.number < 16) (port : Port) (k : ℕ) :
    read ops ls port k = sampling ops ls port k := by
  obtain ⟨bytes, hbytes⟩ := maskBytes_returns_iff.mpr h
  rw [read, hbytes, Outcome.done_bind]

end Mask

end PMLib.Legacy.ArduPower
