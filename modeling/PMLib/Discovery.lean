import Mathlib.Data.List.TakeWhile
import PMLib.Isolation
import PMLib.Messages

/-! # Finding the devices

A client asks for the names of the devices, and for what each of them can do. Both requests
have a connection of their own. -/
namespace PMLib

open Wire (Receive Reads recvInt int32)

variable {V : Type}

namespace Info

def listDevices (deviceMap : Std.TreeMap Name (Device V)) : List Byte :=
  int32 deviceMap.size ++ deviceMap.toList.flatMap fun dev => sendString dev.2.name

def infoDevice (deviceMap : Std.TreeMap Name (Device V)) : Receive (List Byte) := do
  let deviceName ← receiveString
  match deviceMap[deviceName]? with
  | none => pure (int32 Retval.error.toInt)
  | some dev => pure (int32 dev.maxFrequency ++ (int32 dev.nLines ++ sendString dev.name))

/-- `send` of the samples that get through until the client leaves. -/
def sendSamples (samples : List (List Double)) : List Byte :=
  samples.flatMap fun sample => int32 sample.length ++ sample.flatMap Double.bytes

def readDevice (deviceMap : Std.TreeMap Name (Device V)) (samples : List (List Double)) :
    Receive (List Byte) := do
  let deviceName ← receiveString
  let frequency ← recvInt
  match deviceMap[deviceName]? with
  | none => pure (int32 Retval.error.toInt)
  | some dev =>
    if frequency > dev.maxFrequency then
      pure (int32 Retval.errorf.toInt ++ int32 dev.maxFrequency)
    else pure (int32 Retval.success.toInt ++ sendSamples samples)

/-- `status` is the dump for CMD_STATUS. A receive that throws is answered with an error. -/
def run (deviceMap : Std.TreeMap Name (Device V)) (status : List Byte)
    (samples : List (List Double)) (op : ℤ) (fields : List Byte) : Outcome (List Byte) :=
  let handler : Receive (List Byte) :=
    match Operation.ofInt op with
    | some .listDevices => pure (listDevices deviceMap)
    | some .infoDevice => infoDevice deviceMap
    | some .cmdStatus => pure status
    | some .readDevice => readDevice deviceMap samples
    | _ => pure (int32 Retval.error.toInt)
  match handler fields with
  | .done (reply, _) => .done reply
  | .failed => .done (int32 Retval.error.toInt)
  | .undefined => .undefined

end Info

namespace Discovery

structure DeviceT where
  name : List Byte
  maxFrecuency : ℤ
  nLines : ℤ
  deriving DecidableEq, Repr

def buffSize : ℕ := 1024

def recvBuffer (n : ℤ) : Receive (List Byte) :=
  if 0 ≤ n ∧ n ≤ buffSize then Wire.recv n.toNat else Wire.lift .undefined

/-- A count below zero makes the program exit. -/
def recvCount : Receive ℤ := do
  let n ← recvInt
  if n < 0 then Wire.lift .failed else pure n

def pmGetDevices : Receive (List (List Byte)) := do
  let numDevices ← recvCount
  Wire.times (recvInt >>= recvBuffer) numDevices.toNat

/-- A string ends before its first NUL. -/
def cString (s : List Byte) : List Byte := s.takeWhile (· ≠ 0)

/-- The request of `pm_get_device_info` is put together in the buffer. -/
def deviceInfoRequest (pmId : List Byte) : Outcome (List Byte) :=
  let msg := int32 6 ++ sendString (cString pmId)
  if msg.length ≤ buffSize then .done msg else .undefined

def pmGetDeviceInfo : Receive DeviceT := do
  let maxFrecuency ← recvCount
  let nLines ← recvCount
  let nameSize ← recvCount
  let name ← recvBuffer nameSize
  pure ⟨name, maxFrecuency, nLines⟩

section exchange

variable (deviceMap : Std.TreeMap Name (Device V)) (status : List Byte)
  (samples : List (List Double))

def connection (msg : List Byte) : Outcome (List Byte) := do
  let (op, fields) ← recvInt msg
  Info.run deviceMap status samples op fields

def getDevices : Outcome (List (List Byte)) := do
  let reply ← connection deviceMap status samples (int32 7)
  let (devices, _) ← pmGetDevices reply
  .done devices

def getDeviceInfo (pmId : List Byte) : Outcome DeviceT := do
  let msg ← deviceInfoRequest pmId
  let reply ← connection deviceMap status samples msg
  let (d, _) ← pmGetDeviceInfo reply
  .done d

def discover (later : Name → Std.TreeMap Name (Device V)) : Outcome (List DeviceT) := do
  let devices ← getDevices deviceMap status samples
  devices.mapM fun pmId => getDeviceInfo (later pmId) status samples pmId

end exchange

/-! ## Names in the buffer -/

theorem reads_name {name : List Byte} (h : name.length ≤ buffSize) :
    Reads (recvInt >>= recvBuffer) (sendString name) name := by
  have hsize : name.length ≤ 1024 := h
  apply (Wire.reads_int_of_fits (x := name.length) ⟨by omega, by omega⟩).bind
  rw [recvBuffer, if_pos ⟨by omega, by exact_mod_cast h⟩]
  exact Reads.recv (by simp)

theorem reads_count {n : ℤ} (h : 0 ≤ n) (hfit : n < 2 ^ 31) : Reads recvCount (int32 n) n := by
  apply (Wire.reads_int_of_fits ⟨by omega, by omega⟩).bind_nil
  rw [if_neg (by omega)]
  exact Reads.pure n

theorem name_eq {name rest out t : List Byte} (hfit : name.length < 2 ^ 31)
    (h : (recvInt >>= recvBuffer) (sendString name ++ rest) = .done (out, t)) :
    out = name ∧ t = rest := by
  obtain ⟨n, u, hn, h⟩ := Wire.bind_eq_done.mp h
  have hint := Wire.reads_int_of_fits (x := name.length) ⟨by omega, by omega⟩ (name ++ rest)
  rw [sendString, List.append_assoc, hint] at hn
  obtain ⟨rfl, rfl⟩ := Prod.mk.inj (Outcome.done.inj hn)
  unfold recvBuffer at h
  split_ifs at h
  · obtain ⟨hlen, happ⟩ := Wire.recv_eq_done.mp h
    obtain ⟨rfl, rfl⟩ := List.append_inj happ (by simpa using hlen.symm)
    exact ⟨rfl, rfl⟩
  · cases h

theorem times_name {names : List (List Byte)} (hfit : ∀ x ∈ names, x.length < 2 ^ 31)
    {t : List Byte} {out : List (List Byte)}
    (h : Wire.times (recvInt >>= recvBuffer) names.length (names.flatMap sendString) =
      .done (out, t)) : out = names := by
  induction names generalizing out with
  | nil =>
    cases h
    rfl
  | cons x names ih =>
    obtain ⟨y, u, hy, h⟩ := Wire.bind_eq_done.mp h
    obtain ⟨ys, v, hys, h⟩ := Wire.bind_eq_done.mp h
    cases h
    obtain ⟨rfl, rfl⟩ := name_eq (hfit x (by simp)) hy
    rw [ih (fun x hx => hfit x (by simp [hx])) hys]

/-! ## Both requests -/

def describe (dev : Device V) : DeviceT := ⟨dev.name, dev.maxFrequency, dev.nLines⟩

def Sized (dn : Name) (dev : Device V) : Prop :=
  dn.length < 2 ^ 31 ∧ 0 ≤ dev.maxFrequency ∧ dev.maxFrequency < 2 ^ 31 ∧ dev.nLines < 2 ^ 31

instance (dn : Name) (dev : Device V) : Decidable (Sized dn dev) :=
  inferInstanceAs (Decidable (_ ∧ _))

structure Presentable (deviceMap : Std.TreeMap Name (Device V)) : Prop where
  size : deviceMap.size < 2 ^ 31
  device : ∀ (dn : Name) (dev : Device V), deviceMap[dn]? = some dev →
    dev.name = dn ∧ Sized dn dev

variable {deviceMap : Std.TreeMap Name (Device V)} {status : List Byte}
  {samples : List (List Double)}

theorem Presentable.keys_eq (h : Presentable deviceMap) :
    deviceMap.toList.map (fun p => p.2.name) = deviceMap.keys := by
  rw [← Std.TreeMap.map_fst_toList_eq_keys]
  refine List.map_congr_left fun p hp => ?_
  exact (h.device p.1 p.2 (Std.TreeMap.mem_toList_iff_getElem?_eq_some.mp hp)).1

theorem Presentable.listDevices_eq (h : Presentable deviceMap) :
    Info.listDevices deviceMap =
      int32 deviceMap.keys.length ++ deviceMap.keys.flatMap sendString := by
  rw [Info.listDevices, ← h.keys_eq, List.flatMap_map, List.length_map, Std.TreeMap.length_toList]

theorem Presentable.length_lt (h : Presentable deviceMap) :
    ∀ dn ∈ deviceMap.keys, dn.length < 2 ^ 31 := by
  intro dn hdn
  rw [Std.TreeMap.mem_keys, Std.TreeMap.mem_iff_isSome_getElem?] at hdn
  obtain ⟨dev, hdev⟩ := Option.isSome_iff_exists.mp hdn
  exact (h.device dn dev hdev).2.1

theorem connection_list : connection deviceMap status samples (int32 7) =
    .done (Info.listDevices deviceMap) := by
  have hop := Wire.reads_int_of_fits (x := 7) (by decide) []
  rw [List.append_nil] at hop
  rw [connection, hop]
  rfl

/-- The names come in whole, or the client does not get to the end. -/
theorem getDevices_eq (h : Presentable deviceMap) {devices : List (List Byte)}
    (hd : getDevices deviceMap status samples = .done devices) : devices = deviceMap.keys := by
  rw [getDevices, connection_list, Outcome.done_bind, h.listDevices_eq] at hd
  obtain ⟨⟨names, t⟩, hnames, hd⟩ := Outcome.bind_eq_done.mp hd
  obtain rfl := Outcome.done.inj hd
  obtain ⟨n, u, hn, hnames⟩ := Wire.bind_eq_done.mp hnames
  have hsize := h.size
  rw [← Std.TreeMap.length_keys] at hsize
  rw [reads_count (by omega) (by exact_mod_cast hsize)] at hn
  obtain ⟨rfl, rfl⟩ := Prod.mk.inj (Outcome.done.inj hn)
  exact times_name h.length_lt hnames

theorem getDevices_done (h : Presentable deviceMap)
    (hshort : ∀ dn ∈ deviceMap.keys, dn.length ≤ buffSize) :
    getDevices deviceMap status samples = .done deviceMap.keys := by
  have hsize := h.size
  rw [← Std.TreeMap.length_keys] at hsize
  have hreads : Reads pmGetDevices (Info.listDevices deviceMap) deviceMap.keys := by
    rw [h.listDevices_eq]
    apply (reads_count (by omega) (by exact_mod_cast hsize)).bind
    rw [Int.toNat_natCast]
    have htimes := Reads.times fun dn hdn => reads_name (hshort dn hdn)
    rwa [List.map_id'] at htimes
  have hreply := hreads []
  rw [List.append_nil] at hreply
  rw [getDevices, connection_list, Outcome.done_bind, hreply]
  rfl

theorem reads_deviceInfo (h : Presentable deviceMap) {dn : Name} {dev : Device V}
    (hdev : deviceMap[dn]? = some dev) (hshort : dn.length ≤ buffSize) :
    Reads pmGetDeviceInfo
      (int32 dev.maxFrequency ++ (int32 dev.nLines ++ sendString dev.name)) (describe dev) := by
  obtain ⟨rfl, hlen, hpos, hmax, hlines⟩ := h.device dn dev hdev
  apply (reads_count hpos hmax).bind
  apply (reads_count (by omega) (by exact_mod_cast hlines)).bind
  apply (reads_count (n := dev.name.length) (by omega) (by exact_mod_cast hlen)).bind
  rw [recvBuffer, if_pos ⟨by omega, by exact_mod_cast hshort⟩, Int.toNat_natCast]
  exact (Reads.recv rfl).bind_nil (Reads.pure _)

theorem length_request (pmId : List Byte) :
    (int32 6 ++ sendString (cString pmId)).length = 8 + (cString pmId).length := by
  simp only [sendString, List.length_append, Wire.int32_length]
  omega

theorem deviceInfoRequest_eq {pmId : List Byte} (hlen : 8 + (cString pmId).length ≤ buffSize) :
    deviceInfoRequest pmId = .done (int32 6 ++ sendString (cString pmId)) := by
  rw [deviceInfoRequest, if_pos (by rw [length_request]; exact hlen)]

theorem infoDevice_eq {dn : Name} (hlen : dn.length < 2 ^ 31) :
    Info.infoDevice deviceMap (sendString dn) =
      .done (match deviceMap[dn]? with
        | some dev => int32 dev.maxFrequency ++ (int32 dev.nLines ++ sendString dev.name)
        | none => int32 Retval.error.toInt, []) := by
  have hname := reads_receiveString hlen []
  rw [List.append_nil] at hname
  rw [Info.infoDevice, Wire.bind_apply, hname, Outcome.done_bind]
  cases deviceMap[dn]? <;> rfl

theorem run_info (fields : List Byte) :
    Info.run deviceMap status samples 6 fields =
      match Info.infoDevice deviceMap fields with
      | .done (reply, _) => .done reply
      | .failed => .done (int32 Retval.error.toInt)
      | .undefined => .undefined := by
  have hinfo : Operation.ofInt 6 = some .infoDevice := rfl
  simp only [Info.run, hinfo]

theorem connection_info {dn : Name} (hlen : dn.length < 2 ^ 31) :
    connection deviceMap status samples (int32 6 ++ sendString dn) =
      .done (match deviceMap[dn]? with
        | some dev => int32 dev.maxFrequency ++ (int32 dev.nLines ++ sendString dev.name)
        | none => int32 Retval.error.toInt) := by
  have hop := Wire.reads_int_of_fits (x := 6) (by decide) (sendString dn)
  have hrun : Info.run deviceMap status samples 6 (sendString dn) = _ := run_info (sendString dn)
  rw [infoDevice_eq hlen] at hrun
  rw [connection, hop, Outcome.done_bind]
  exact hrun

/-- The server answers for an unknown name with a number below zero. -/
theorem pmGetDeviceInfo_error :
    pmGetDeviceInfo (int32 Retval.error.toInt) = .failed := by
  have hread := Wire.reads_int_of_fits (x := Retval.error.toInt) (by decide) []
  rw [List.append_nil] at hread
  rw [pmGetDeviceInfo, recvCount, Wire.bind_apply, Wire.bind_apply, hread, Outcome.done_bind]
  rfl

theorem getDeviceInfo_eq (h : Presentable deviceMap) {pmId : List Byte}
    (hlen : 8 + (cString pmId).length ≤ buffSize) :
    getDeviceInfo deviceMap status samples pmId =
      match deviceMap[cString pmId]? with
      | some dev => .done (describe dev)
      | none => .failed := by
  have hsize : buffSize = 1024 := by decide
  rw [getDeviceInfo, deviceInfoRequest_eq hlen, Outcome.done_bind, connection_info (by omega),
    Outcome.done_bind]
  cases hdev : deviceMap[cString pmId]? with
  | none =>
    simp only []
    rw [pmGetDeviceInfo_error]
    rfl
  | some dev =>
    have hread := reads_deviceInfo h hdev (by omega) []
    rw [List.append_nil] at hread
    simp only []
    rw [hread, Outcome.done_bind]

theorem getDeviceInfo_long {pmId : List Byte} (hlen : ¬ 8 + (cString pmId).length ≤ buffSize) :
    getDeviceInfo deviceMap status samples pmId = .undefined := by
  rw [getDeviceInfo, deviceInfoRequest, if_neg (by rw [length_request]; exact hlen)]
  rfl

/-! ## While the server runs -/

theorem describe_eq_of_kind {dev dev' : Device V} (h : dev'.kind = dev.kind) :
    describe dev' = describe dev := by
  obtain ⟨hname, h⟩ := Prod.mk.inj h
  obtain ⟨hmax, hlines⟩ := Prod.mk.inj h
  rw [describe, describe, hname, hmax, hlines]

theorem keys_eq_of_sameDevices {m m' : Std.TreeMap Name (Device V)}
    (h : Daemon.SameDevices m m') : m'.keys = m.keys := by
  have hequiv : (m'.map fun _ dev => dev.kind).Equiv (m.map fun _ dev => dev.kind) := by
    apply Std.TreeMap.Equiv.of_forall_constGet?_eq
    intro dn
    rw [Std.TreeMap.getElem?_map, Std.TreeMap.getElem?_map]
    exact h dn
  simpa only [Std.TreeMap.keys_map] using hequiv.keys_eq

theorem found_of_sameDevices {m m' : Std.TreeMap Name (Device V)} (h : Daemon.SameDevices m m')
    {dn : Name} {dev : Device V} (hdev : m[dn]? = some dev) :
    ∃ dev', m'[dn]? = some dev' ∧ dev'.kind = dev.kind := by
  have hkind := h dn
  rw [hdev, Option.map_some] at hkind
  exact Option.map_eq_some_iff.mp hkind

theorem Presentable.of_sameDevices {m m' : Std.TreeMap Name (Device V)} (hm : Presentable m)
    (h : Daemon.SameDevices m m') : Presentable m' := by
  refine ⟨?_, fun dn dev' hdev' => ?_⟩
  · rw [← Std.TreeMap.length_keys, keys_eq_of_sameDevices h, Std.TreeMap.length_keys]
    exact hm.size
  · obtain ⟨dev, hdev, hkind⟩ := found_of_sameDevices (fun dn => (h dn).symm) hdev'
    obtain ⟨hname, hsized⟩ := hm.device dn dev hdev
    obtain ⟨hname', hmax, hlines⟩ : dev.name = dev'.name ∧ dev.maxFrequency = dev'.maxFrequency ∧
        dev.nLines = dev'.nLines := by simpa [Device.kind] using hkind
    refine ⟨hname' ▸ hname, ?_⟩
    rw [Sized, ← hmax, ← hlines]
    exact hsized

theorem cString_eq_self {dn : Name} : cString dn = dn ↔ 0 ∉ dn := by
  rw [cString, List.takeWhile_eq_self_iff]
  constructor
  · intro h hmem
    simpa using h 0 hmem
  · intro h b hb
    have hne : b ≠ 0 := fun hzero => h (hzero ▸ hb)
    simpa using hne

theorem getDeviceInfo_iff (h : Presentable deviceMap) {dn : Name} {dev : Device V}
    (hdev : deviceMap[dn]? = some dev) :
    getDeviceInfo deviceMap status samples dn = .done (describe dev) ↔
      8 + dn.length ≤ buffSize ∧ 0 ∉ dn := by
  by_cases hlen : 8 + (cString dn).length ≤ buffSize
  · rw [getDeviceInfo_eq h hlen]
    constructor
    · intro hinfo
      cases hfound : deviceMap[cString dn]? with
      | none => rw [hfound] at hinfo; cases hinfo
      | some dev' =>
        rw [hfound] at hinfo
        have hname : dev'.name = dev.name := congrArg DeviceT.name (Outcome.done.inj hinfo)
        rw [(h.device _ _ hfound).1, (h.device _ _ hdev).1] at hname
        rw [hname] at hlen
        exact ⟨hlen, cString_eq_self.mp hname⟩
    · rintro ⟨-, hzero⟩
      rw [cString_eq_self.mpr hzero, hdev]
  · rw [getDeviceInfo_long hlen]
    constructor
    · exact nofun
    · rintro ⟨hle, hzero⟩
      rw [cString_eq_self.mpr hzero] at hlen
      exact absurd hle hlen

/-- A client finds exactly the devices of the configuration, however the server runs on between
its requests, when every name is a string that fits the buffer. -/
theorem discover_iff [Zero V] [Add V] {register : Name → Option Driver}
    {text : Json → List Byte} {takesDisk : DiskCheck} {conf : Json} {es : List (DaemonEvent V)}
    {s : Daemon V}
    {later : Name → Daemon V}
    (hset : Presentable (parseConfigfile (V := V) register text takesDisk conf))
    (h : Trace.exec Daemon.next (Daemon.configured register text takesDisk conf) es = .done s)
    (hlater : ∀ dn, ∃ es', Trace.exec Daemon.next s es' = .done (later dn)) :
    discover s.deviceMap status samples (fun dn => (later dn).deviceMap) =
        .done ((parseConfigfile (V := V) register text takesDisk conf).toList.map fun p =>
          describe p.2) ↔
      ∀ dn ∈ (parseConfigfile (V := V) register text takesDisk conf).keys,
        8 + dn.length ≤ buffSize ∧ 0 ∉ dn := by
  have hsame := (Daemon.exec_keeps h).devices
  have hsame' : ∀ dn, Daemon.SameDevices (parseConfigfile register text takesDisk conf)
      (later dn).deviceMap := by
    intro dn
    obtain ⟨es', hes'⟩ := hlater dn
    exact (Daemon.exec_keeps (((Trace.exec_append_eq_done _).mpr ⟨s, h, hes'⟩))).devices
  have hkeys := keys_eq_of_sameDevices hsame
  have hshown := hset.of_sameDevices hsame
  generalize hm : parseConfigfile (V := V) register text takesDisk conf = m at *
  -- one request for each device, in the order of the map
  have hall : (m.keys.mapM fun pmId => getDeviceInfo (later pmId).deviceMap status samples pmId) =
      .done (m.toList.map fun p => describe p.2) ↔
        ∀ dn ∈ m.keys, 8 + dn.length ≤ buffSize ∧ 0 ∉ dn := by
    rw [← Std.TreeMap.map_fst_toList_eq_keys, Outcome.mapM_eq_done, List.forall₂_map_left_iff,
      List.forall₂_map_right_iff, List.forall₂_same, List.forall_mem_map]
    refine forall₂_congr fun p hp => ?_
    rw [Std.TreeMap.mem_toList_iff_getElem?_eq_some] at hp
    obtain ⟨dev', hdev', hkind⟩ := found_of_sameDevices (hsame' p.1) hp
    rw [← describe_eq_of_kind hkind]
    exact getDeviceInfo_iff (hset.of_sameDevices (hsame' p.1)) hdev'
  rw [← hall]
  constructor
  · intro hd
    obtain ⟨devices, hdevices, hd⟩ := Outcome.bind_eq_done.mp hd
    rw [getDevices_eq hshown hdevices, hkeys] at hd
    exact hd
  · intro hd
    have hnames := hall.mp hd
    rw [discover, getDevices_done hshown (fun dn hdn => ?_), Outcome.done_bind, hkeys]
    · exact hd
    · have hle := (hnames dn (hkeys ▸ hdn)).1
      omega

theorem discover_iff_meters : ∃ (s : Daemon ℤ),
    Trace.exec Daemon.next (Daemon.configured deviceRegister (fun _ => []) anyDisk Daemon.twoMeters)
      Daemon.measureBoth = .done s ∧
    discover s.deviceMap [] [] (fun _ => s.deviceMap) =
      .done [⟨ascii "a", 1, 1⟩, ⟨ascii "b", 1, 1⟩] := by
  have hrun : (Trace.exec Daemon.next
    (Daemon.configured (V := ℤ) deviceRegister (fun _ => []) anyDisk
    Daemon.twoMeters) Daemon.measureBoth).check (fun s => s.handlers.length == 2) = true := by
    decide +kernel
  obtain ⟨s, h, -⟩ := Outcome.check_eq_true.mp hrun
  have hset : Presentable (parseConfigfile (V := ℤ) deviceRegister (fun _ => []) anyDisk
      Daemon.twoMeters) := by
    refine ⟨by decide +kernel, fun dn dev hdev => ?_⟩
    have hall : ∀ p ∈ (parseConfigfile (V := ℤ) deviceRegister (fun _ => []) anyDisk
        Daemon.twoMeters).toList, p.2.name = p.1 ∧ Sized p.1 p.2 := by decide +kernel
    exact hall (dn, dev) (Std.TreeMap.mem_toList_iff_getElem?_eq_some.mpr hdev)
  have hfound : discover s.deviceMap [] [] (fun _ => s.deviceMap) = _ :=
    (discover_iff hset h fun _ => ⟨[], rfl⟩).mpr (by decide +kernel)
  refine ⟨s, h, hfound.trans ?_⟩
  decide +kernel

end Discovery

end PMLib
