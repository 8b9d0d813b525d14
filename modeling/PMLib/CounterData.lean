import PMLib.Messages
import PMLib.ReplyLayout

/-! # The data reply on the client

`pm_get_counter_data` sizes its buffers and the rest of the message in `int` arithmetic.
It gets the reply that the server has sent as long as that arithmetic is exact. -/
namespace PMLib

open Int32Conv
open Wire (Receive Reads int32 recvInt)

namespace Energy

/-- Signed addition; a sum that does not fit has no meaning. -/
def addInt (x y : ℤ) : Outcome ℤ := if FitsInt (x + y) then .done (x + y) else .undefined

/-- `malloc` of a buffer and a `recv` that fills it. No buffer has a negative length. -/
def recvBlock (len : ℤ) : Receive (List Byte) :=
  if len < 0 then Wire.lift .failed else Wire.recv len.toNat

/-- The loop that copies `n` elements out of the received bytes into an array of `room`
bytes. Beyond the end of either nothing has a meaning. -/
def unpack {α : Type} (size : ℕ) (elem : List Byte → α) :
    (n : ℕ) → (room : ℤ) → List Byte → Outcome (List α × List Byte)
  | 0, _, ptr => .done ([], ptr)
  | n + 1, room, ptr =>
    if ptr.length < size ∨ room < size then .undefined
    else do
      let (elems, ptr') ← unpack size elem n (room - size) (ptr.drop size)
      .done (elem (ptr.take size) :: elems, ptr')

def recvMeasures (wattsSize wattsSetsSize linesLen : ℤ) : Receive (GetReply Double) := do
  let wattsSetsLen := wrap32 (wattsSetsSize * 4)
  let wattsLen := wrap32 (wattsSize * 8)
  let messageLen ← Wire.lift (addInt wattsSetsLen wattsLen)
  let string ← recvBlock messageLen
  let (wattsSets, ptr) ← Wire.lift (unpack 4 Wire.ofInt32 wattsSetsSize.toNat wattsSetsLen string)
  let (watts, _) ← Wire.lift (unpack 8 Double.ofBytes wattsSize.toNat wattsLen ptr)
  pure { wattsSize, wattsSetsSize, linesLen, wattsSets, watts }

/-- What the client stores of the reply to its GET. A negative size ends the process. -/
def pmGetCounterData : Receive (GetReply Double) := do
  let wattsSize ← recvInt
  if wattsSize < 0 then Wire.lift .failed
  else do
    let wattsSetsSize ← recvInt
    let linesLen ← recvInt
    recvMeasures wattsSize wattsSetsSize linesLen

theorem unpack_flatMap {α : Type} {size : ℕ} {enc : α → List Byte} {elem : List Byte → α}
    {as : List α} (hsize : ∀ a ∈ as, (enc a).length = size) (helem : ∀ a ∈ as, elem (enc a) = a)
    {room : ℤ} (hroom : (as.length * size : ℕ) ≤ room) (rest : List Byte) :
    unpack size elem as.length room (as.flatMap enc ++ rest) = .done (as, rest) := by
  induction as generalizing room with
  | nil => rfl
  | cons a as ih =>
    have ha := hsize a (by simp)
    have hle : ¬((enc a ++ (as.flatMap enc ++ rest)).length < size ∨ room < size) := by
      rw [List.length_cons, Nat.succ_mul] at hroom
      rw [List.length_append]
      omega
    have hrest : ((as.length * size : ℕ) : ℤ) ≤ room - size := by
      rw [List.length_cons, Nat.succ_mul] at hroom
      push_cast at hroom ⊢
      omega
    have htail := ih (fun b hb => hsize b (by simp [hb])) (fun b hb => helem b (by simp [hb]))
      hrest
    rw [List.flatMap_cons, List.append_assoc, List.length_cons, unpack, if_neg hle,
      List.drop_left' ha, List.take_left' ha, htail, Outcome.done_bind, helem a (by simp)]

theorem length_flatMap_of_forall {α : Type} {size : ℕ} {enc : α → List Byte} {as : List α}
    (hsize : ∀ a ∈ as, (enc a).length = size) : (as.flatMap enc).length = as.length * size := by
  induction as with
  | nil => simp
  | cons a as ih =>
    rw [List.flatMap_cons, List.length_append, hsize a (by simp),
      ih fun b hb => hsize b (by simp [hb]), List.length_cons, Nat.succ_mul, Nat.add_comm]

end Energy

open Energy

structure GetReply.WellFormed {V : Type} (r : GetReply V) : Prop where
  wattsSize : r.wattsSize = wrap32 r.watts.length
  wattsSetsSize : r.wattsSetsSize = wrap32 r.wattsSets.length
  linesLen : FitsInt r.linesLen
  wattsSets : ∀ x ∈ r.wattsSets, FitsInt x

private theorem fits_scanl_wrap32 (ms : List ℤ) {b : ℤ} (hb : FitsInt b) :
    ∀ x ∈ ms.scanl (fun back m => wrap32 (m + back)) b, FitsInt x := by
  induction ms generalizing b with
  | nil => simpa using hb
  | cons m ms ih =>
    intro x hx
    rw [List.scanl_cons, List.mem_cons] at hx
    rcases hx with rfl | hx
    · exact hb
    · exact ih (wrap32_fits _) x hx

theorem Counter.getData_wellFormed {V : Type} [Zero V] [Add V] {read : Reader V} {c : Counter}
    {dev : Device V} {r : GetReply V} (h : getData read c dev = .done r) : r.WellFormed := by
  obtain ⟨minLen, _, h⟩ := Outcome.bind_eq_done.mp h
  obtain ⟨blocks, _, h⟩ := Outcome.bind_eq_done.mp h
  obtain rfl := Outcome.done.inj h
  constructor
  · dsimp only
  · dsimp only
  · dsimp only
    apply wrap32_fits
  · exact fits_scanl_wrap32 minLen (by decide)

theorem Counter.get_wellFormed {V : Type} [Zero V] [Add V] {c c' : Counter} {dev dev' : Device V}
    {r : GetReply V} (h : c.get dev = .done (c', dev', .data r)) : r.WellFormed := by
  unfold get at h
  split_ifs at h
  · obtain ⟨r', hr', h⟩ := Outcome.bind_eq_done.mp h
    obtain ⟨-, h⟩ := Prod.mk.inj (Outcome.done.inj h)
    obtain ⟨-, h⟩ := Prod.mk.inj h
    obtain rfl := Reply.data.inj h
    exact getData_wellFormed hr'
  · obtain ⟨-, h⟩ := Prod.mk.inj (Outcome.done.inj h)
    exact absurd (Prod.mk.inj h).2 (by simp)

namespace GetReply

variable {r : GetReply Double}

def payload (r : GetReply Double) : List Byte :=
  r.wattsSets.flatMap int32 ++ r.watts.flatMap Double.bytes

theorem payload_length (r : GetReply Double) :
    r.payload.length = r.wattsSets.length * 4 + r.watts.length * 8 := by
  rw [payload, List.length_append,
    length_flatMap_of_forall fun a _ => Wire.int32_length a,
    length_flatMap_of_forall fun a _ => Double.bytes_length a]

theorem recv_bytes (h : r.WellFormed) (hw : r.watts.length < 2 ^ 31)
    (rest : List Byte) :
    pmGetCounterData (r.bytes ++ rest) =
      recvMeasures r.wattsSize r.wattsSetsSize r.linesLen (r.payload ++ rest) := by
  have hsize : FitsInt r.wattsSize := h.wattsSize ▸ wrap32_fits _
  have hsets : FitsInt r.wattsSetsSize := h.wattsSetsSize ▸ wrap32_fits _
  have hpos : ¬ r.wattsSize < 0 := by
    rw [h.wattsSize, wrap32_natCast hw]
    omega
  rw [pmGetCounterData, bytes, List.append_assoc, Wire.bind_apply,
    Wire.reads_int_of_fits hsize, Outcome.done_bind]
  simp only [hpos, if_false]
  rw [List.append_assoc, Wire.bind_apply, Wire.reads_int_of_fits hsets, Outcome.done_bind,
    List.append_assoc, Wire.bind_apply, Wire.reads_int_of_fits h.linesLen, Outcome.done_bind]
  rfl

theorem reads_measures (h : r.WellFormed) (hw : r.watts.length < 2 ^ 31)
    (hs : r.wattsSets.length < 2 ^ 31) (hfit : r.payload.length < 2 ^ 31) :
    Reads (recvMeasures r.wattsSize r.wattsSetsSize r.linesLen) r.payload r := by
  have hlen := r.payload_length
  have hsize : r.wattsSize = (r.watts.length : ℤ) := by rw [h.wattsSize, wrap32_natCast hw]
  have hcount : r.wattsSetsSize = (r.wattsSets.length : ℤ) := by
    rw [h.wattsSetsSize, wrap32_natCast hs]
  have hwatts : wrap32 (r.wattsSize * 8) = ((r.watts.length * 8 : ℕ) : ℤ) := by
    rw [hsize, ← wrap32_natCast (show r.watts.length * 8 < 2 ^ 31 by omega)]
    push_cast
    rfl
  have hwsets : wrap32 (r.wattsSetsSize * 4) = ((r.wattsSets.length * 4 : ℕ) : ℤ) := by
    rw [hcount, ← wrap32_natCast (show r.wattsSets.length * 4 < 2 ^ 31 by omega)]
    push_cast
    rfl
  have hmsg : addInt (wrap32 (r.wattsSetsSize * 4)) (wrap32 (r.wattsSize * 8)) =
      .done (r.payload.length : ℤ) := by
    have hsum : ((r.wattsSets.length * 4 : ℕ) : ℤ) + ((r.watts.length * 8 : ℕ) : ℤ) =
        (r.payload.length : ℤ) := by
      rw [hlen]
      push_cast
      rfl
    rw [addInt, hwsets, hwatts, hsum, if_pos ⟨by omega, by omega⟩]
  have hblock : recvBlock (r.payload.length : ℤ) = Wire.recv r.payload.length := by
    rw [recvBlock, if_neg (by omega), Int.toNat_natCast]
  have hunpackSets : unpack 4 Wire.ofInt32 r.wattsSets.length (wrap32 (r.wattsSetsSize * 4))
      (r.wattsSets.flatMap int32 ++ r.watts.flatMap Double.bytes) =
        .done (r.wattsSets, r.watts.flatMap Double.bytes) :=
    unpack_flatMap (fun a _ => Wire.int32_length a)
      (fun a ha => (Wire.ofInt32_int32 a).trans (wrap32_of_fits (h.wattsSets a ha)))
      (le_of_eq hwsets.symm) (r.watts.flatMap Double.bytes)
  have hunpackWatts : unpack 8 Double.ofBytes r.watts.length (wrap32 (r.wattsSize * 8))
      (r.watts.flatMap Double.bytes ++ []) = .done (r.watts, []) :=
    unpack_flatMap (fun a _ => Double.bytes_length a) (fun a _ => Double.ofBytes_bytes a)
      (le_of_eq hwatts.symm) []
  rw [List.append_nil] at hunpackWatts
  have hsetsNat : r.wattsSetsSize.toNat = r.wattsSets.length := by omega
  have hwattsNat : r.wattsSize.toNat = r.watts.length := by omega
  intro rest
  rw [recvMeasures]
  simp only [hmsg, Wire.lift_done, pure_bind, hblock]
  rw [Wire.bind_apply, Reads.recv rfl, Outcome.done_bind, payload]
  simp only [hsetsNat, hunpackSets, Wire.lift_done, pure_bind, hwattsNat, hunpackWatts]
  rfl

/-- Whatever the client makes of a message, it asks for a length that is an `int`. -/
theorem length_of_recvMeasures {wattsSize wattsSetsSize linesLen : ℤ} {s : List Byte}
    {r' : GetReply Double} (h : recvMeasures wattsSize wattsSetsSize linesLen s = .done (r', [])) :
    s.length < 2 ^ 31 := by
  obtain ⟨len, u, hlen, h⟩ := Wire.bind_eq_done.mp h
  obtain ⟨string, v, hstring, h⟩ := Wire.bind_eq_done.mp h
  obtain ⟨⟨wattsSets, ptr⟩, v₁, hsets, h⟩ := Wire.bind_eq_done.mp h
  obtain ⟨⟨watts, ptr'⟩, v₂, hwatts, h⟩ := Wire.bind_eq_done.mp h
  obtain ⟨hadd, rfl⟩ := Wire.lift_eq_done.mp hlen
  obtain ⟨-, rfl⟩ := Wire.lift_eq_done.mp hsets
  obtain ⟨-, rfl⟩ := Wire.lift_eq_done.mp hwatts
  obtain ⟨-, rfl⟩ := Prod.mk.inj (Outcome.done.inj h)
  have hfit : FitsInt len := by
    unfold addInt at hadd
    split_ifs at hadd with hsum
    exact Outcome.done.inj hadd ▸ hsum
  unfold recvBlock at hstring
  split_ifs at hstring with hneg
  · exact absurd hstring (by simp)
  · obtain ⟨hcount, rfl⟩ := Wire.recv_eq_done.mp hstring
    have := hfit.2
    rw [List.append_nil]
    omega

theorem reads_iff (h : r.WellFormed) (hw : r.watts.length < 2 ^ 31)
    (hs : r.wattsSets.length < 2 ^ 31) :
    Reads pmGetCounterData r.bytes r ↔
      4 * r.wattsSets.length + 8 * r.watts.length < 2 ^ 31 := by
  have hlen := r.payload_length
  constructor
  · intro hr
    have hall := hr []
    rw [recv_bytes h hw, List.append_nil] at hall
    have := length_of_recvMeasures hall
    omega
  · intro hfit rest
    rw [recv_bytes h hw]
    exact reads_measures h hw hs (by omega) rest

end GetReply

/-- A reply of `get` whose counts fit the header fields reaches the client, with nothing left
over and nothing missing, if and only if its two arrays have less than 2^31 bytes. -/
theorem getReply_reads_iff {c c' : Counter} {dev dev' : Device Double} {r : GetReply Double}
    (hget : c.get dev = .done (c', dev', .data r)) (hw : r.watts.length < 2 ^ 31)
    (hs : r.wattsSets.length < 2 ^ 31) :
    Reads pmGetCounterData r.bytes r ↔
      4 * r.wattsSets.length + 8 * r.watts.length < 2 ^ 31 :=
  GetReply.reads_iff (Counter.get_wellFormed hget) hw hs

theorem getReply_reads_twoSets : ∃ (c c' : Counter) (dev dev' : Device Double)
    (r : GetReply Double), c.get dev = .done (c', dev', .data r) ∧
      r.watts = [⟨5⟩, ⟨15⟩, ⟨6⟩, ⟨7⟩, ⟨16⟩, ⟨17⟩] ∧ Reads pmGetCounterData r.bytes r := by
  let sizes (n : ℤ) : SetT := (Std.TreeMap.insert ∅ 0 n).insert 1 n
  let c : Counter := { Counter.unregistered 1 with
    interval := 1, lines := [0, 1], sets := [(sizes 0, some (sizes 1)), (sizes 1, some (sizes 3))] }
  let dev : Device Double := ⟨[], 1, 2, (Std.TreeMap.insert ∅ 0 ⟨1, 0, [⟨5⟩, ⟨6⟩, ⟨7⟩]⟩).insert 1
    ⟨1, 0, [⟨15⟩, ⟨16⟩, ⟨17⟩]⟩, ∅⟩
  have hrun : (c.get dev).check (fun p => match p.2.2 with
      | .data r => r.watts == [⟨5⟩, ⟨15⟩, ⟨6⟩, ⟨7⟩, ⟨16⟩, ⟨17⟩] && r.wattsSets == [0, 1, 3]
      | .retval _ => false) = true := by decide +kernel
  obtain ⟨⟨c', dev', reply⟩, hget, hp⟩ := Outcome.check_eq_true.mp hrun
  cases reply with
  | retval rv => simp at hp
  | data r =>
    simp only [Bool.and_eq_true, beq_iff_eq] at hp
    obtain ⟨hw, hs⟩ := hp
    exact ⟨c, c', dev, dev', r, hget, hw,
      (getReply_reads_iff hget (by simp [hw]) (by simp [hs])).mpr (by simp [hw, hs])⟩

theorem Run.get_of_reply {V : Type} [Zero V] [Add V] (ρ : Run V) {es : List (Event V)}
    {t : Server V} (ht : Trace.exec Server.next ρ.start es = .done t) {k : ℕ} {c : Counter}
    {r : GetReply V} (hk : t.sessions[k]? = some ⟨c, .replying (.data r)⟩) :
    ∃ dev, c.get dev = .done (c, dev, .data r) := by
  induction es using List.reverseRecOn generalizing t with
  | nil =>
    obtain rfl := Outcome.done.inj ht
    simp [ρ.initial.sessions] at hk
  | append_singleton es e ih =>
    obtain ⟨s, hs, hn⟩ := (Trace.exec_snoc Server.next).mp ht
    obtain ⟨hw, _⟩ := ρ.follows hs
    rcases (next_change hw hn).data_reply hk with ⟨hk', _⟩ | ⟨_, _, hst, hget⟩
    · exact ih hs hk'
    · exact ⟨s.dev, by rw [Counter.get, if_pos hst, hget]; rfl⟩

private theorem exists_longReply {n : ℕ} (hn : n < 2 ^ 31) :
    ∃ r : GetReply Double, NativeReply LineT.setAll 1 [List.replicate n fun _ => ⟨5⟩] r ∧
      r.WellFormed ∧ r.watts.length = n ∧ r.wattsSets.length = 2 := by
  have hlines : LineT.setAll.lines 1 = [0] := by decide
  have hsum : ([List.replicate n fun _ : ℕ => (⟨5⟩ : Double)].map List.length).sum = n := by simp
  obtain ⟨r, hr⟩ := exists_nativeReply LineT.setAll 1 _ (hsum.trans_lt hn)
  have hlayout := hr.layout (by rw [hlines, hsum]; simpa using hn) (by simp)
  obtain ⟨ρ, pre, t, k, c, -, -, ht, hk, -⟩ := id hr
  obtain ⟨dev, hget⟩ := ρ.get_of_reply ht hk
  refine ⟨r, hr, Counter.get_wellFormed hget, ?_, ?_⟩
  · rw [hlayout.watts, length_watts, hlines, hsum, List.length_singleton, Nat.one_mul]
  · simp [hlayout.wattsSets, setSizes]

/-- 2^28 samples of one line fit the header, and their 2^31 bytes no `int`. -/
theorem getReply_reads_fails : ∃ (ws : List (List (ℕ → Double))) (r : GetReply Double),
    NativeReply LineT.setAll 1 ws r ∧ r.watts.length < 2 ^ 31 ∧ r.wattsSets.length < 2 ^ 31 ∧
      ¬ Reads pmGetCounterData r.bytes r := by
  obtain ⟨r, hr, hwell, hw, hs⟩ := exists_longReply (n := 2 ^ 28) (by decide)
  refine ⟨_, r, hr, by omega, by omega, fun hreads => ?_⟩
  have := (GetReply.reads_iff hwell (by omega) (by omega)).mp hreads
  omega

end PMLib
