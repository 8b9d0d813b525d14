import PMLib.Messages

/-! # The status dump

The server walks over its devices and sends all that is known of each. `pm_info` reads the
dump with branches of its own, one of which depends on what it is asked to display. -/
namespace PMLib

open Int32Conv
open Wire (Bytes Receive Reads Takes int32 recvInt)

abbrev CInt := { x : ℤ // FitsInt x }

abbrev Sized (α : Type) := { v : List α // v.length < 2 ^ 31 }

structure LineInfo where
  id : CInt
  name : Sized Byte
  voltage : BitVec 32
  description : Sized Byte
  computer : Sized Byte

/-- A connection that is lost has no peer, and asking for its address throws. -/
structure CounterInfo where
  id : CInt
  clientIp : Option (Sized Byte)
  lines : Sized CInt

structure DeviceInfo where
  name : Sized Byte
  maxFreq : CInt
  numLines : CInt
  isPdu : Bool
  computer : Sized Byte
  lines : List LineInfo
  counters : Sized CounterInfo
  declared : numLines.val = lines.length

def floatBytes (x : BitVec 32) : List Byte := Wire.littleEndian 4 x.toNat

/-- What has been sent, and whether an exception ended it. -/
structure Dump where
  sent : List Byte
  broken : Bool

namespace Dump

def send (bs : List Byte) : Dump := ⟨bs, false⟩

def andThen (d e : Dump) : Dump := if d.broken then d else ⟨d.sent ++ e.sent, e.broken⟩

def each {α : Type} (f : α → Dump) : List α → Dump
  | [] => send []
  | a :: as => (f a).andThen (each f as)

end Dump

namespace Info

def sendLine (isPdu : Bool) (lin : LineInfo) : List Byte :=
  int32 lin.id ++ (sendString lin.name ++ (floatBytes lin.voltage ++
    (sendString lin.description ++ if isPdu then sendString lin.computer else [])))

def sendCounter (cnt : CounterInfo) : Dump :=
  match cnt.clientIp with
  | some ip => .send (int32 cnt.id ++ (sendString ip ++ (int32 cnt.lines.val.length ++
      cnt.lines.val.flatMap fun l : CInt => int32 l.val)))
  | none => ⟨int32 cnt.id, true⟩

def sendDevice (dev : DeviceInfo) : Dump :=
  (Dump.send (sendString dev.name ++ (int32 dev.maxFreq ++ (int32 dev.numLines ++
    ((if dev.isPdu then int32 1 else int32 0 ++ sendString dev.computer) ++
      (dev.lines.flatMap (sendLine dev.isPdu) ++ int32 dev.counters.val.length)))))).andThen
    (.each sendCounter dev.counters.val)

def cmdStatus (deviceMap : List DeviceInfo) : Dump :=
  (Dump.send (int32 deviceMap.length)).andThen (.each sendDevice deviceMap)

/-- The reply of `run` to CMD_STATUS. It answers an exception behind what has been sent. -/
def runStatus (deviceMap : List DeviceInfo) : List Byte :=
  (cmdStatus deviceMap).sent ++
    if (cmdStatus deviceMap).broken then int32 Retval.error.toInt else []

end Info

structure LineShown where
  number : ℤ
  name : List Byte
  voltage : BitVec 32
  desc : List Byte
  compName : Option (List Byte)
  deriving DecidableEq, Repr

structure CounterShown where
  id : ℤ
  address : List Byte
  lines : List ℤ
  deriving DecidableEq, Repr

structure DeviceShown where
  name : List Byte
  freq : ℤ
  nLines : ℤ
  compName : Option (List Byte)
  lines : List LineShown
  nCounters : ℤ
  counters : List CounterShown
  deriving DecidableEq, Repr

/-- A printed line, without its fixed text. -/
inductive Printed where
  | device (name : List Byte) (freq nLines : ℤ)
  | computer (name : List Byte)
  | linesHeading
  | line (lin : LineShown)
  | countersHeading
  | counter (con : CounterShown)
  deriving DecidableEq, Repr

namespace PmInfo

def recvString : Receive (List Byte) := do
  let n ← recvInt
  if n < 0 then Wire.lift .failed else Wire.recv n.toNat

def recvFloat : Receive (BitVec 32) :=
  (fun bs => BitVec.ofNat 32 (Wire.ofLittleEndian bs)) <$> Wire.recv 4

def recvLine (isPdu : Bool) : Receive LineShown := do
  let number ← recvInt
  let name ← recvString
  let voltage ← recvFloat
  let desc ← recvString
  if isPdu then do
    let compName ← recvString
    pure ⟨number, name, voltage, desc, some compName⟩
  else pure ⟨number, name, voltage, desc, none⟩

def recvCounter : Receive CounterShown := do
  let id ← recvInt
  let address ← recvString
  let n ← recvInt
  let lines ← Wire.times recvInt n.toNat
  pure ⟨id, address, lines⟩

/-- The computer of a device that is no PDU. -/
def recvComputer (isPdu : Bool) : Receive (Option (List Byte)) :=
  if isPdu then pure none
  else do
    let compName ← recvString
    pure (some compName)

/-- The counters of a device are read when they are to be displayed. -/
def recvCounters (counters : Bool) (nCounters : ℤ) : Receive (List CounterShown) :=
  if nCounters ≠ 0 ∧ counters then Wire.times recvCounter nCounters.toNat else pure []

def recvDevice (counters : Bool) : Receive DeviceShown := do
  let name ← recvString
  let freq ← recvInt
  let nLines ← recvInt
  let kind ← recvInt
  let isPdu : Bool := kind ≠ 0
  let compName ← recvComputer isPdu
  let lines ← Wire.times (recvLine isPdu) nLines.toNat
  let nCounters ← recvInt
  let shown ← recvCounters counters nCounters
  pure ⟨name, freq, nLines, compName, lines, nCounters, shown⟩

def printDevice (lines counters : Bool) (dev : DeviceShown) : List Printed :=
  .device dev.name dev.freq dev.nLines :: dev.compName.toList.map .computer ++
    (if lines then .linesHeading :: dev.lines.map .line else []) ++
    (if dev.nCounters ≠ 0 ∧ counters then .countersHeading :: dev.counters.map .counter else [])

def showDevices (lines counters : Bool) : Receive (List DeviceShown × List Printed) := do
  let nDev ← recvInt
  let devs ← Wire.times (recvDevice counters) nDev.toNat
  pure (devs, devs.flatMap (printDevice lines counters))

end PmInfo

namespace LineInfo

def shown (isPdu : Bool) (lin : LineInfo) : LineShown :=
  ⟨lin.id, lin.name, lin.voltage, lin.description, if isPdu then some lin.computer.val else none⟩

end LineInfo

/-- A counter as it should be shown. Without an address there is no way to show it. -/
def CounterInfo.ShownAs (cnt : CounterInfo) (con : CounterShown) : Prop :=
  ∃ ip, cnt.clientIp = some ip ∧ con = ⟨cnt.id, ip, cnt.lines.val.map Subtype.val⟩

structure DeviceInfo.ShownAs (counters : Bool) (dev : DeviceInfo) (d : DeviceShown) : Prop where
  name : d.name = dev.name
  freq : d.freq = dev.maxFreq
  nLines : d.nLines = dev.numLines
  compName : d.compName = if dev.isPdu then none else some dev.computer.val
  lines : d.lines = dev.lines.map (LineInfo.shown dev.isPdu)
  nCounters : d.nCounters = dev.counters.val.length
  counters : if counters then List.Forall₂ CounterInfo.ShownAs dev.counters.val d.counters
    else d.counters = []

/-- The whole reply is read, and every field is shown of the device it was sent for. -/
def StatusRead (lines counters : Bool) (deviceMap : List DeviceInfo) : Prop :=
  ∃ devs, List.Forall₂ (DeviceInfo.ShownAs counters) deviceMap devs ∧
    Reads (PmInfo.showDevices lines counters) (Info.runStatus deviceMap)
      (devs, devs.flatMap (PmInfo.printDevice lines counters))

namespace Dump

variable {α : Type} {f : α → Dump} {as : List α}

theorem each_of_unbroken (h : ∀ a ∈ as, (f a).broken = false) :
    each f as = send (as.flatMap fun a => (f a).sent) := by
  induction as with
  | nil => rfl
  | cons a as ih =>
    obtain ⟨ha, has⟩ := List.forall_mem_cons.mp h
    rw [each, andThen, ha, if_neg (by decide), ih has]
    rfl

theorem broken_each : (each f as).broken = true ↔ ∃ a ∈ as, (f a).broken = true := by
  induction as with
  | nil => simp [each, send]
  | cons a as ih =>
    rw [each, andThen]
    by_cases ha : (f a).broken = true <;> simp [ha, ih]

end Dump

theorem broken_sendCounter (cnt : CounterInfo) :
    (Info.sendCounter cnt).broken = true ↔ cnt.clientIp = none := by
  unfold Info.sendCounter
  split <;> simp_all [Dump.send]

theorem broken_sendDevice (dev : DeviceInfo) :
    (Info.sendDevice dev).broken = true ↔ ∃ cnt ∈ dev.counters.val, cnt.clientIp = none := by
  simp only [Info.sendDevice, Dump.andThen, Dump.send, Bool.false_eq_true, if_false,
    Dump.broken_each, broken_sendCounter]

theorem broken_cmdStatus (deviceMap : List DeviceInfo) :
    (Info.cmdStatus deviceMap).broken = true ↔
      ∃ dev ∈ deviceMap, ∃ cnt ∈ dev.counters.val, cnt.clientIp = none := by
  simp only [Info.cmdStatus, Dump.andThen, Dump.send, Bool.false_eq_true, if_false,
    Dump.broken_each, broken_sendDevice]

section reads

theorem fits_length {α : Type} (v : Sized α) : FitsInt v.val.length :=
  ⟨by omega, by have := v.property; omega⟩

theorem reads_cint (x : CInt) : Reads recvInt (int32 x) x := Wire.reads_int_of_fits x.property

theorem reads_string (str : Sized Byte) : Reads PmInfo.recvString (sendString str) str := by
  apply (Wire.reads_int_of_fits (fits_length str)).bind
  rw [if_neg (by omega), Int.toNat_natCast]
  exact Reads.recv rfl

theorem reads_float (x : BitVec 32) : Reads PmInfo.recvFloat (floatBytes x) x := by
  have h := (Reads.recv (Wire.littleEndian_length 4 x.toNat)).map fun bs =>
    BitVec.ofNat 32 (Wire.ofLittleEndian bs)
  have hlt : x.toNat % 256 ^ 4 = x.toNat := Nat.mod_eq_of_lt x.isLt
  rwa [Wire.ofLittleEndian_littleEndian, hlt, BitVec.ofNat_toNat, BitVec.setWidth_eq] at h

theorem reads_line (isPdu : Bool) (lin : LineInfo) :
    Reads (PmInfo.recvLine isPdu) (Info.sendLine isPdu lin) (lin.shown isPdu) := by
  apply (reads_cint lin.id).bind
  apply (reads_string lin.name).bind
  apply (reads_float lin.voltage).bind
  apply (reads_string lin.description).bind
  cases isPdu with
  | false => exact Reads.pure _
  | true =>
    rw [if_pos rfl, if_pos rfl, ← List.append_nil (sendString lin.computer)]
    exact (reads_string lin.computer).bind (Reads.pure _)

theorem reads_counter {cnt : CounterInfo} {con : CounterShown} (h : cnt.ShownAs con) :
    Reads PmInfo.recvCounter (Info.sendCounter cnt).sent con := by
  obtain ⟨ip, hip, rfl⟩ := h
  rw [Info.sendCounter, hip]
  apply (reads_cint cnt.id).bind
  apply (reads_string ip).bind
  apply (Wire.reads_int_of_fits (fits_length cnt.lines)).bind
  rw [Int.toNat_natCast, ← List.append_nil (cnt.lines.val.flatMap _)]
  exact (Reads.times fun l _ => reads_cint l).bind (Reads.pure _)

theorem reads_computer (isPdu : Bool) (computer : Sized Byte) :
    Reads (PmInfo.recvComputer isPdu) (if isPdu then [] else sendString computer)
      (if isPdu then none else some computer.val) := by
  cases isPdu with
  | true => exact Reads.pure none
  | false =>
    rw [if_neg (by decide), if_neg (by decide), ← List.append_nil (sendString computer)]
    exact (reads_string computer).bind (Reads.pure _)

theorem reads_counters {counters : Bool} {cnts : Sized CounterInfo} {cons : List CounterShown}
    (h : counters = true ∨ cnts.val = [])
    (hcons : if counters then List.Forall₂ CounterInfo.ShownAs cnts.val cons else cons = []) :
    Reads (PmInfo.recvCounters counters cnts.val.length)
      (cnts.val.flatMap fun cnt => (Info.sendCounter cnt).sent) cons := by
  unfold PmInfo.recvCounters
  by_cases hnone : cnts.val = []
  · obtain rfl : cons = [] := by
      cases counters
      · exact hcons
      · rw [hnone] at hcons
        exact List.forall₂_nil_left_iff.mp hcons
    rw [hnone, if_neg (by simp)]
    exact Reads.pure []
  · obtain rfl := h.resolve_right hnone
    rw [if_pos ⟨by simpa using hnone, rfl⟩, Int.toNat_natCast]
    exact Reads.times_forall₂ (hcons.imp fun _ _ => reads_counter)

theorem sendDevice_eq {dev : DeviceInfo} (h : ∀ cnt ∈ dev.counters.val, cnt.clientIp ≠ none) :
    Info.sendDevice dev = .send ((sendString dev.name ++ (int32 dev.maxFreq ++
      (int32 dev.numLines ++ ((if dev.isPdu then int32 1 else int32 0 ++ sendString dev.computer) ++
        (dev.lines.flatMap (Info.sendLine dev.isPdu) ++ int32 dev.counters.val.length))))) ++
          dev.counters.val.flatMap fun cnt => (Info.sendCounter cnt).sent) := by
  have hall : ∀ cnt ∈ dev.counters.val, (Info.sendCounter cnt).broken = false := by
    intro cnt hcnt
    rw [← Bool.not_eq_true, broken_sendCounter]
    exact h cnt hcnt
  rw [Info.sendDevice, Dump.each_of_unbroken hall]
  rfl

theorem runStatus_eq {deviceMap : List DeviceInfo}
    (h : ∀ dev ∈ deviceMap, ∀ cnt ∈ dev.counters.val, cnt.clientIp ≠ none) :
    Info.runStatus deviceMap = int32 deviceMap.length ++
      deviceMap.flatMap fun dev => (Info.sendDevice dev).sent := by
  have hall : ∀ dev ∈ deviceMap, (Info.sendDevice dev).broken = false := by
    intro dev hdev
    rw [sendDevice_eq (h dev hdev)]
    rfl
  rw [Info.runStatus, Info.cmdStatus, Dump.each_of_unbroken hall]
  exact List.append_nil _

/-- A device is read to its end, unless it has counters that are not displayed. -/
theorem reads_device {counters : Bool} {dev : DeviceInfo} {d : DeviceShown}
    (h : counters = true ∨ dev.counters.val = [])
    (haddr : ∀ cnt ∈ dev.counters.val, cnt.clientIp ≠ none) (hd : dev.ShownAs counters d) :
    Reads (PmInfo.recvDevice counters) (Info.sendDevice dev).sent d := by
  have hkind : (if dev.isPdu then int32 1 else int32 0 ++ sendString dev.computer) =
      int32 (if dev.isPdu then 1 else 0) ++ if dev.isPdu then [] else sendString dev.computer := by
    cases dev.isPdu with
    | true => rw [if_pos rfl, if_pos rfl, if_pos rfl, List.append_nil]
    | false => rfl
  have hpdu : decide ((if dev.isPdu then (1 : ℤ) else 0) ≠ 0) = dev.isPdu := by
    cases dev.isPdu <;> rfl
  have hlines : dev.numLines.val.toNat = dev.lines.length := by rw [dev.declared]; rfl
  have hshown : d = ⟨dev.name, dev.maxFreq, dev.numLines,
      if dev.isPdu then none else some dev.computer.val,
      dev.lines.map (LineInfo.shown dev.isPdu), dev.counters.val.length, d.counters⟩ := by
    cases d
    simp only [DeviceShown.mk.injEq, and_true]
    exact ⟨hd.name, hd.freq, hd.nLines, hd.compName, hd.lines, hd.nCounters⟩
  rw [sendDevice_eq haddr, hkind, hshown]
  simp only [Dump.send, List.append_assoc]
  apply (reads_string dev.name).bind
  apply (reads_cint dev.maxFreq).bind
  apply (reads_cint dev.numLines).bind
  apply (Wire.reads_int_of_fits (x := if dev.isPdu then 1 else 0) (by split_ifs <;> decide)).bind
  rw [hpdu, hlines]
  apply (reads_computer dev.isPdu dev.computer).bind
  apply (Reads.times fun lin _ => reads_line dev.isPdu lin).bind
  apply (Wire.reads_int_of_fits (fits_length dev.counters)).bind
  rw [← List.append_nil (dev.counters.val.flatMap _)]
  exact (reads_counters h hd.counters).bind (Reads.pure _)

theorem reads_status {lines counters : Bool} {deviceMap : List DeviceInfo}
    {devs : List DeviceShown} (hlen : deviceMap.length < 2 ^ 31)
    (h : counters = true ∨ ∀ dev ∈ deviceMap, dev.counters.val = [])
    (haddr : ∀ dev ∈ deviceMap, ∀ cnt ∈ dev.counters.val, cnt.clientIp ≠ none)
    (hdevs : List.Forall₂ (DeviceInfo.ShownAs counters) deviceMap devs) :
    Reads (PmInfo.showDevices lines counters) (Info.runStatus deviceMap)
      (devs, devs.flatMap (PmInfo.printDevice lines counters)) := by
  rw [runStatus_eq haddr]
  apply (Wire.reads_int_of_fits ⟨by omega, by omega⟩).bind
  rw [Int.toNat_natCast, ← List.append_nil (deviceMap.flatMap _)]
  refine Reads.bind (Reads.times_forall₂ ?_) (Reads.pure _)
  obtain ⟨hsame, hshown⟩ := List.forall₂_iff_get.mp hdevs
  refine List.forall₂_iff_get.mpr ⟨hsame, fun i hi hi' => ?_⟩
  have hdev := List.get_mem deviceMap ⟨i, hi⟩
  exact reads_device (h.imp_right fun h => h _ hdev) (haddr _ hdev) (hshown i hi hi')

theorem exists_shown {counters : Bool} {deviceMap : List DeviceInfo}
    (haddr : ∀ dev ∈ deviceMap, ∀ cnt ∈ dev.counters.val, cnt.clientIp ≠ none) :
    ∃ devs, List.Forall₂ (DeviceInfo.ShownAs counters) deviceMap devs := by
  let con (cnt : CounterInfo) : CounterShown :=
    ⟨cnt.id, cnt.clientIp.elim [] Subtype.val, cnt.lines.val.map Subtype.val⟩
  refine ⟨deviceMap.map fun dev => ⟨dev.name, dev.maxFreq, dev.numLines,
    if dev.isPdu then none else some dev.computer.val, dev.lines.map (LineInfo.shown dev.isPdu),
    dev.counters.val.length, if counters then dev.counters.val.map con else []⟩, ?_⟩
  refine List.forall₂_map_right_iff.mpr (List.forall₂_same.mpr fun dev hdev => ?_)
  refine ⟨rfl, rfl, rfl, rfl, rfl, rfl, ?_⟩
  cases counters with
  | false => rfl
  | true =>
    refine List.forall₂_map_right_iff.mpr (List.forall₂_same.mpr fun cnt hcnt => ?_)
    obtain ⟨ip, hip⟩ := Option.ne_none_iff_exists'.mp (haddr dev hdev cnt hcnt)
    exact ⟨ip, hip, by simp [con, hip]⟩

end reads

section sizes

def LineShown.size (lin : LineShown) : ℕ :=
  4 + (4 + lin.name.length) + 4 + (4 + lin.desc.length) +
    (lin.compName.elim 0 fun name => 4 + name.length)

def CounterShown.size (con : CounterShown) : ℕ :=
  4 + (4 + con.address.length) + 4 + con.lines.length * 4

def DeviceShown.size (dev : DeviceShown) : ℕ :=
  (4 + dev.name.length) + 4 + 4 + 4 + (dev.compName.elim 0 fun name => 4 + name.length) +
    (dev.lines.map LineShown.size).sum + 4 + (dev.counters.map CounterShown.size).sum

theorem takes_string : Takes 0 PmInfo.recvString fun str => 4 + str.length := by
  apply Wire.takes_int.bind
  intro n
  split_ifs
  · exact Takes.failed
  · intro s str t h
    obtain ⟨msg, hs, hmsg⟩ := Takes.recv _ s str t h
    exact ⟨msg, hs, by dsimp only; omega⟩

theorem takes_float : Takes 0 PmInfo.recvFloat fun _ => 4 := by
  intro s x t h
  obtain ⟨⟨b, u⟩, hb, heq⟩ := Outcome.bind_eq_done.mp
    (show (Wire.recv 4 s >>= fun p =>
      Outcome.done (BitVec.ofNat 32 (Wire.ofLittleEndian p.1), p.2)) = _ from h)
  obtain ⟨_, rfl⟩ := Prod.mk.inj (Outcome.done.inj heq)
  obtain ⟨hlen, rfl⟩ := Wire.recv_eq_done.mp hb
  exact ⟨b, rfl, by rw [hlen]⟩

theorem takes_line (isPdu : Bool) : Takes 0 (PmInfo.recvLine isPdu) LineShown.size := by
  apply Wire.takes_int.bind
  intro number
  apply takes_string.bind
  intro name
  apply takes_float.bind
  intro voltage
  apply takes_string.bind
  intro desc
  split_ifs
  · apply takes_string.bind
    intro compName
    apply Takes.pure
    simp [LineShown.size]
  · apply Takes.pure
    simp [LineShown.size]

theorem takes_counter : Takes 0 PmInfo.recvCounter CounterShown.size := by
  apply Wire.takes_int.bind
  intro id
  apply takes_string.bind
  intro address
  apply Wire.takes_int.bind
  intro n
  apply (Takes.times Wire.takes_int _).bind
  intro lines
  apply Takes.pure
  simp [CounterShown.size]

theorem takes_counters (counters : Bool) (nCounters : ℤ) :
    Takes 0 (PmInfo.recvCounters counters nCounters) fun cons =>
      (cons.map CounterShown.size).sum := by
  unfold PmInfo.recvCounters
  split_ifs
  · exact takes_counter.times _
  · exact Takes.pure rfl

theorem takes_computer (isPdu : Bool) :
    Takes 0 (PmInfo.recvComputer isPdu) fun comp => comp.elim 0 fun name => 4 + name.length := by
  unfold PmInfo.recvComputer
  split_ifs
  · exact Takes.pure rfl
  · apply takes_string.bind
    intro name
    apply Takes.pure
    simp

theorem takes_device (counters : Bool) :
    Takes 0 (PmInfo.recvDevice counters) DeviceShown.size := by
  apply takes_string.bind
  intro name
  apply Wire.takes_int.bind
  intro freq
  apply Wire.takes_int.bind
  intro nLines
  apply Wire.takes_int.bind
  intro kind
  apply (takes_computer _).bind
  intro compName
  apply ((takes_line _).times _).bind
  intro lines
  apply Wire.takes_int.bind
  intro nCounters
  apply (takes_counters _ _).bind
  intro shown
  apply Takes.pure
  simp [DeviceShown.size]

theorem takes_status (lines counters : Bool) :
    Takes 0 (PmInfo.showDevices lines counters) fun p => 4 + (p.1.map DeviceShown.size).sum := by
  apply Wire.takes_int.bind
  intro nDev
  apply ((takes_device counters).times _).bind
  intro devs
  apply Takes.pure
  simp

theorem CounterShown.size_pos (con : CounterShown) : 0 < con.size := by
  unfold size
  omega

theorem size_le {dev : DeviceInfo} {d d' : DeviceShown} (hd : dev.ShownAs false d)
    (hd' : dev.ShownAs true d') :
    d.size ≤ d'.size ∧ (d'.size ≤ d.size → dev.counters.val = []) := by
  have hnone : d.counters = [] := hd.counters
  have hsize : d'.size = d.size + (d'.counters.map CounterShown.size).sum := by
    unfold DeviceShown.size
    rw [hnone, hd'.name, hd.name, hd'.compName, hd.compName, hd'.lines, hd.lines]
    simp
  refine ⟨by omega, fun hle => ?_⟩
  have hcounters : List.Forall₂ CounterInfo.ShownAs dev.counters.val d'.counters := hd'.counters
  cases hc : d'.counters with
  | nil =>
    rw [hc] at hcounters
    exact List.forall₂_nil_right_iff.mp hcounters
  | cons con cons =>
    have := con.size_pos
    rw [hc, List.map_cons, List.sum_cons] at hsize
    omega

theorem sum_size_le {deviceMap : List DeviceInfo} {devs devs' : List DeviceShown}
    (h : List.Forall₂ (DeviceInfo.ShownAs false) deviceMap devs)
    (h' : List.Forall₂ (DeviceInfo.ShownAs true) deviceMap devs') :
    (devs.map DeviceShown.size).sum ≤ (devs'.map DeviceShown.size).sum ∧
      ((devs'.map DeviceShown.size).sum ≤ (devs.map DeviceShown.size).sum →
        ∀ dev ∈ deviceMap, dev.counters.val = []) := by
  induction h generalizing devs' with
  | nil =>
    cases h'
    exact ⟨le_rfl, by simp⟩
  | cons hd _ ih =>
    cases h' with
    | cons hd' h' =>
      obtain ⟨hle, hnone⟩ := ih h'
      obtain ⟨hle₀, hnone₀⟩ := size_le hd hd'
      simp only [List.map_cons, List.sum_cons, List.forall_mem_cons]
      exact ⟨by omega, fun hsum => ⟨hnone₀ (by omega), hnone (by omega)⟩⟩

/-- A dump that is read to its end without the counters has none. -/
theorem no_counters_of_reads {lines : Bool} {deviceMap : List DeviceInfo}
    (hlen : deviceMap.length < 2 ^ 31)
    (haddr : ∀ dev ∈ deviceMap, ∀ cnt ∈ dev.counters.val, cnt.clientIp ≠ none)
    (h : StatusRead lines false deviceMap) : ∀ dev ∈ deviceMap, dev.counters.val = [] := by
  obtain ⟨devs, hdevs, hread⟩ := h
  obtain ⟨devs', hdevs'⟩ : ∃ devs', List.Forall₂ (DeviceInfo.ShownAs true) deviceMap devs' :=
    exists_shown haddr
  have hread' : Reads (PmInfo.showDevices lines true) (Info.runStatus deviceMap) _ :=
    reads_status hlen (.inl rfl) haddr hdevs'
  have hsize := (takes_status lines false).length_eq hread
  have hsize' := (takes_status lines true).length_eq hread'
  dsimp only at hsize hsize'
  exact (sum_size_le hdevs hdevs').2 (by omega)

end sizes

section broken

theorem recvDevice_end {s t : Bytes} {d : DeviceShown}
    (h : PmInfo.recvDevice false s = .done (d, t)) :
    ∃ pre b, s = pre ++ (b ++ t) ∧ b.length = 4 ∧ d.nCounters = Wire.ofInt32 b := by
  obtain ⟨name, s₁, h₁, h⟩ := Wire.bind_eq_done.mp h
  obtain ⟨freq, s₂, h₂, h⟩ := Wire.bind_eq_done.mp h
  obtain ⟨nLines, s₃, h₃, h⟩ := Wire.bind_eq_done.mp h
  obtain ⟨kind, s₄, h₄, h⟩ := Wire.bind_eq_done.mp h
  obtain ⟨compName, s₅, h₅, h⟩ := Wire.bind_eq_done.mp h
  obtain ⟨lines, s₆, h₆, h⟩ := Wire.bind_eq_done.mp h
  obtain ⟨nCounters, s₇, h₇, h⟩ := Wire.bind_eq_done.mp h
  have hend : d.nCounters = nCounters ∧ s₇ = t := by
    simp only [PmInfo.recvCounters, Bool.false_eq_true, and_false, if_false, pure_bind,
      Wire.pure_apply, Outcome.done.injEq, Prod.mk.injEq] at h
    exact ⟨by rw [← h.1], h.2⟩
  have hsuffix : s₆ <:+ s :=
    (((takes_line _).times _).suffix h₆).trans <| ((takes_computer _).suffix h₅).trans <|
      (Wire.takes_int.suffix h₄).trans <| (Wire.takes_int.suffix h₃).trans <|
        (Wire.takes_int.suffix h₂).trans (takes_string.suffix h₁)
  obtain ⟨pre, rfl⟩ := hsuffix
  obtain ⟨b, hb, rfl, hn⟩ := Wire.recvInt_eq_done.mp h₇
  exact ⟨pre, b, by rw [hend.2], hb, hend.1.trans hn⟩

theorem recvDevices_end {n : ℕ} {s t : Bytes} {devs : List DeviceShown} {d : DeviceShown}
    (h : Wire.times (PmInfo.recvDevice false) n s = .done (devs, t))
    (hd : devs.getLast? = some d) :
    ∃ pre b, s = pre ++ (b ++ t) ∧ b.length = 4 ∧ d.nCounters = Wire.ofInt32 b := by
  induction n generalizing s devs with
  | zero =>
    obtain ⟨rfl, rfl⟩ := Prod.mk.inj (Outcome.done.inj h)
    cases hd
  | succ n ih =>
    obtain ⟨first, s₁, h₁, h⟩ := Wire.bind_eq_done.mp h
    obtain ⟨rest, s₂, h₂, h⟩ := Wire.bind_eq_done.mp h
    obtain ⟨rfl, rfl⟩ := Prod.mk.inj (Outcome.done.inj h)
    cases rest with
    | nil =>
      obtain rfl : first = d := Option.some.inj hd
      obtain rfl : s₁ = s₂ := by
        obtain ⟨msg, rfl, hmsg⟩ := (takes_device false).times n _ _ _ h₂
        rw [List.length_eq_zero_iff.mp (show msg.length = 0 by simpa using hmsg), List.nil_append]
      exact recvDevice_end h₁
    | cons second rest =>
      obtain ⟨pre, b, rfl, hb, hn⟩ := ih h₂ (by simpa using hd)
      obtain ⟨msg, rfl⟩ := (takes_device false).suffix h₁
      exact ⟨msg ++ pre, b, by rw [List.append_assoc], hb, hn⟩

/-- The error that an exception is answered with is no number of counters. -/
theorem not_reads_of_broken {lines : Bool} {deviceMap : List DeviceInfo}
    (hbroken : (Info.cmdStatus deviceMap).broken = true) : ¬ StatusRead lines false deviceMap := by
  rintro ⟨devs, hdevs, hread⟩
  obtain ⟨nDev, s₁, h₁, h⟩ := Wire.bind_eq_done.mp (hread [])
  obtain ⟨devs₁, s₂, h₂, h⟩ := Wire.bind_eq_done.mp h
  obtain ⟨hshown, rfl⟩ := Prod.mk.inj (Outcome.done.inj h)
  obtain rfl : devs₁ = devs := congrArg Prod.fst hshown
  obtain ⟨dev, hdev, -⟩ := (broken_cmdStatus deviceMap).mp hbroken
  cases hlast : devs₁.getLast? with
  | none =>
    rw [List.getLast?_eq_none_iff] at hlast
    rw [hlast, List.forall₂_nil_right_iff] at hdevs
    rw [hdevs] at hdev
    cases hdev
  | some d =>
    obtain ⟨pre, b, rfl, hb, hn⟩ := recvDevices_end h₂ hlast
    obtain ⟨msg, hmsg⟩ := Wire.takes_int.suffix h₁
    -- the last four bytes are those of the error
    rw [Info.runStatus, if_pos hbroken, List.append_nil, List.append_nil,
      ← List.append_assoc] at hmsg
    have hb' := (List.append_inj' hmsg (by rw [hb, Wire.int32_length])).2
    obtain ⟨i, hi⟩ := List.mem_iff_get.mp (List.mem_of_getLast? hlast)
    obtain ⟨hsame, hall⟩ := List.forall₂_iff_get.mp hdevs
    have hcount := (hall i.val (by omega) i.isLt).nCounters
    rw [show devs₁.get ⟨i.val, i.isLt⟩ = d from hi, hn, hb', Wire.ofInt32_int32] at hcount
    have hneg : Int32Conv.wrap32 Retval.error.toInt = -1 := by decide
    omega

end broken

def Addressed (deviceMap : List DeviceInfo) : Prop :=
  ∀ dev ∈ deviceMap, ∀ cnt ∈ dev.counters.val, cnt.clientIp ≠ none

/-- The dump is read to its end, and every field is shown of the device it was sent for, if
and only if no device has a counter, or the counters are displayed and all have an address. -/
theorem status_reads_iff {lines counters : Bool} {deviceMap : List DeviceInfo}
    (hlen : deviceMap.length < 2 ^ 31) :
    StatusRead lines counters deviceMap ↔
      (∀ dev ∈ deviceMap, dev.counters.val = []) ∨ counters = true ∧ Addressed deviceMap := by
  constructor
  · intro h
    cases counters with
    | true =>
      refine .inr ⟨rfl, fun dev hdev cnt hcnt hnone => ?_⟩
      obtain ⟨devs, hdevs, -⟩ := h
      obtain ⟨i, rfl⟩ := List.mem_iff_get.mp hdev
      obtain ⟨hsame, hall⟩ := List.forall₂_iff_get.mp hdevs
      have hcounters : List.Forall₂ CounterInfo.ShownAs _ _ :=
        (hall i.val i.isLt (by omega)).counters
      obtain ⟨j, rfl⟩ := List.mem_iff_get.mp hcnt
      obtain ⟨hsame', hall'⟩ := List.forall₂_iff_get.mp hcounters
      obtain ⟨ip, hip, -⟩ := hall' j.val j.isLt (hsame' ▸ j.isLt)
      rw [hip] at hnone
      cases hnone
    | false =>
      refine .inl (no_counters_of_reads hlen (fun dev hdev cnt hcnt hnone => ?_) h)
      exact not_reads_of_broken ((broken_cmdStatus _).mpr ⟨dev, hdev, cnt, hcnt, hnone⟩) h
  · intro h
    have haddr : Addressed deviceMap := by
      rcases h with h | ⟨-, h⟩
      · intro dev hdev cnt hcnt
        rw [h dev hdev] at hcnt
        cases hcnt
      · exact h
    obtain ⟨devs, hdevs⟩ : ∃ devs, List.Forall₂ (DeviceInfo.ShownAs counters) deviceMap devs :=
      exists_shown haddr
    exact ⟨devs, hdevs, reads_status hlen (h.symm.imp_left And.left) haddr hdevs⟩

def oneLineDevice (name : Sized Byte) (counters : Sized CounterInfo) : DeviceInfo where
  name := name
  maxFreq := ⟨1, by decide⟩
  numLines := ⟨1, by decide⟩
  isPdu := false
  computer := ⟨[99#8], by decide⟩
  lines := [⟨⟨0, by decide⟩, ⟨[108#8], by decide⟩, 0, ⟨[], by decide⟩, ⟨[], by decide⟩⟩]
  counters := counters
  declared := rfl

def oneLineCounter (ip : Sized Byte) : CounterInfo :=
  ⟨⟨1, by decide⟩, some ip, ⟨[⟨0, by decide⟩], by decide⟩⟩

/-- Two devices; a client has a counter on the first one. -/
def busyMap : List DeviceInfo :=
  [oneLineDevice ⟨[97#8], by decide⟩ ⟨[oneLineCounter ⟨[49#8], by decide⟩], by decide⟩,
    oneLineDevice ⟨[98#8], by decide⟩ ⟨[], by decide⟩]

theorem addressed_busyMap : Addressed busyMap := by
  simp [Addressed, busyMap, oneLineDevice, oneLineCounter]

theorem status_reads_busy : StatusRead false true busyMap :=
  (status_reads_iff (by decide)).mpr (.inr ⟨rfl, addressed_busyMap⟩)

theorem status_reads_fails : ¬ StatusRead false false busyMap := by
  intro h
  have hnone := no_counters_of_reads (by decide) addressed_busyMap h _ (List.mem_cons_self ..)
  simp [oneLineDevice] at hnone

end PMLib
