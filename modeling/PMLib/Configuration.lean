import PMLib.Json
import PMLib.Accounting

/-! # The configuration file

`parse_configfile` builds the devices that the server has. A device gets into the map only
with all of its lines, and no session ever removes one. -/
namespace PMLib

open Int32Conv

variable {V : Type}

structure Driver where
  maxFrequency : ℤ
  nLines : ℕ
  deriving DecidableEq, Repr

/-- Whether STXXL takes a disk of a name, a size in MiB and properties. -/
abbrev DiskCheck := List Byte → ℤ → List Byte → Bool

def lineNumber (l : Json) : Outcome ℤ := do
  let number ← l.get "number" .null
  number.asInt

section parse

/-! The drivers that are linked in, by the type that they register, and the text of a number. -/

variable (register : Name → Option Driver) (text : Json → List Byte)

def readLine (l : Json) : Outcome Unit := do
  let computer ← l.get "computer" .null
  let _ ← computer.asString text
  let description ← l.get "description" .null
  let _ ← description.asString text
  let metric ← l.get "metric" (.string (ascii "default"))
  let _ ← metric.asString text
  let voltage ← l.get "voltage" .null
  let _ ← voltage.asFloat
  let offset ← l.get "offset" (.int 0)
  let _ ← offset.asFloat
  let slope ← l.get "slope" (.int 0)
  slope.asFloat

/-- The body of the loop over the lines: `check_lines` and the registered lines. A number that
is out of range and one that is taken are reported by different messages. -/
def registerLine (n : ℕ) (st : List Bool × Std.TreeMap ℕ (Line V)) (l : Json) :
    Outcome (List Bool × Std.TreeMap ℕ (Line V)) := do
  let number ← lineNumber l
  if 0 ≤ number ∧ number < n ∧ st.1[number.toNat]? = some false then do
    let _ ← readLine text l
    .done (st.1.set number.toNat true, st.2.insert number.toNat Line.fresh)
  else .failed

def parseDevice (dn : Name) (d : Json) : Outcome (Device V) := do
  let type ← d.get "type" .null
  let type ← type.asString text
  let url ← d.get "url" .null
  let _ ← url.asString text
  let lines ← d.get "lines" .null
  match register type with
  | none => .failed
  | some driver =>
    if lines.isNull then .failed
    else do
      let members ← lines.fields
      if members.size ≠ driver.nLines then .failed
      else do
        let computer ← d.get "computer" .null
        let _ ← computer.asString text
        let st ← (members.toList.map Prod.snd).foldlM (registerLine text members.size)
          (List.replicate members.size false, ∅)
        .done { name := dn, maxFrequency := driver.maxFrequency, nLines := driver.nLines,
                lines := st.2, counterMap := ∅ }

variable (takesDisk : DiskCheck)

def addDisk (conf : Json) : Outcome Unit := do
  let name ← conf.get "stxxl_disk_name" (.string (ascii "data.tmp"))
  let name ← name.asString text
  let size ← conf.get "stxxl_disk_mb_size" (.int 1024)
  let size ← size.asInt
  let properties ← conf.get "stxxl_disk_properties"
    (.string (ascii "syscall delete autogrow direct=try"))
  let properties ← properties.asString text
  if takesDisk name size properties then .done () else .failed

def parseSettings (conf : Json) : Outcome Unit := do
  let _ ← addDisk text takesDisk conf
  let ip ← conf.get "server_ip" (.string (ascii "0.0.0.0"))
  let _ ← ip.asString text
  let port ← conf.get "server_port" (.int 6526)
  let _ ← port.asInt
  let logfile ← conf.get "server_logfile" (.string (ascii "pmlib_%N.log"))
  let _ ← logfile.asString text
  let computers ← conf.get "computers" .null
  let computers ← computers.fields
  let _ ← computers.toList.mapM fun c => do
    let ip ← c.2.get "ip" .null
    ip.asString text
  .done ()

def deviceEntries (conf : Json) : Outcome (List (Name × Json)) := do
  let devices ← conf.get "devices" .null
  let devices ← devices.fields
  .done devices.toList

/-- The loop over the devices. An exception ends it, and is caught: the map stays as it is. -/
def parseDevices : List (Name × Json) → Std.TreeMap Name (Device V) → Std.TreeMap Name (Device V)
  | [], deviceMap => deviceMap
  | (dn, d) :: rest, deviceMap =>
    match parseDevice register text dn d with
    | .done dev => parseDevices rest (deviceMap.insert dn dev)
    | _ => deviceMap

def parseConfigfile (conf : Json) : Std.TreeMap Name (Device V) :=
  match parseSettings text takesDisk conf, deviceEntries conf with
  | .done _, .done entries => parseDevices register text entries ∅
  | _, _ => ∅

end parse

def startedDevices (deviceMap : Std.TreeMap Name (Device V)) : List Name :=
  if deviceMap.isEmpty then [] else deviceMap.keys

structure Registered (n : ℕ) (numbers : List ℕ) (st : List Bool × Std.TreeMap ℕ (Line V)) :
    Prop where
  nodup : numbers.Nodup
  lt : ∀ l ∈ numbers, l < n
  checked : ∀ l, st.1[l]? = if l < n then some (decide (l ∈ numbers)) else none
  lines : ∀ l, st.2[l]? = if l ∈ numbers then some Line.fresh else none

theorem registered_start (n : ℕ) :
    Registered (V := V) n [] (List.replicate n false, ∅) where
  nodup := List.nodup_nil
  lt := by simp
  checked := by simp [List.getElem?_replicate]
  lines := by simp

namespace Registered

variable {n : ℕ} {numbers : List ℕ} {st st' : List Bool × Std.TreeMap ℕ (Line V)}
  {text : Json → List Byte}

theorem insert (h : Registered n numbers st) {l : ℕ} (hl : l < n) (hnew : l ∉ numbers) :
    Registered n (numbers ++ [l]) (st.1.set l true, st.2.insert l Line.fresh) where
  nodup := List.nodup_append.mpr ⟨h.nodup, List.nodup_singleton l, by
    rintro a ha b hb rfl
    exact hnew (List.mem_singleton.mp hb ▸ ha)⟩
  lt := by
    intro a ha
    rcases List.mem_append.mp ha with ha | ha
    · exact h.lt a ha
    · rwa [List.mem_singleton.mp ha]
  checked := by
    intro a
    have hlen : l < st.1.length := by
      have := h.checked l
      rw [if_pos hl] at this
      exact (List.getElem?_eq_some_iff.mp this).1
    by_cases ha : a = l
    · subst ha
      simp [hlen, hl]
    · simp [Ne.symm ha, ha, h.checked a]
  lines := by
    intro a
    by_cases ha : a = l
    · subst ha
      simp
    · have hc : compare l a ≠ Ordering.eq := by simpa using Ne.symm ha
      simp [Std.TreeMap.getElem?_insert, hc, ha, h.lines a]

theorem step (h : Registered n numbers st) {l : Json}
    (hst : registerLine text n st l = .done st') :
    ∃ number : ℕ, lineNumber l = .done (number : ℤ) ∧ readLine text l = .done () ∧
      Registered n (numbers ++ [number]) st' := by
  obtain ⟨number, hnum, hst⟩ := Outcome.bind_eq_done.mp hst
  split_ifs at hst with hfree
  obtain ⟨hpos, hlt, hcheck⟩ := hfree
  obtain ⟨_, hread, hst⟩ := Outcome.bind_eq_done.mp hst
  obtain rfl := Outcome.done.inj hst
  have hnat : number.toNat < n := by omega
  have hnew : number.toNat ∉ numbers := by
    rw [h.checked, if_pos hnat] at hcheck
    simpa using hcheck
  exact ⟨number.toNat, by rw [hnum, Int.toNat_of_nonneg hpos], hread, h.insert hnat hnew⟩

theorem run (h : Registered n numbers st) {ls : List Json}
    (hst : ls.foldlM (registerLine text n) st = .done st') :
    ∃ more : List ℕ, ls.mapM lineNumber = .done (more.map fun l : ℕ => (l : ℤ)) ∧
      (∀ l ∈ ls, readLine text l = .done ()) ∧ Registered n (numbers ++ more) st' := by
  induction ls generalizing numbers st with
  | nil =>
    obtain rfl := Outcome.done.inj hst
    exact ⟨[], rfl, by simp, by simpa using h⟩
  | cons l ls ih =>
    rw [List.foldlM_cons] at hst
    obtain ⟨st₁, hst₁, hst⟩ := Outcome.bind_eq_done.mp hst
    obtain ⟨number, hnum, hread, h₁⟩ := h.step hst₁
    obtain ⟨more, hmore, hreads, h₂⟩ := ih h₁ hst
    refine ⟨number :: more, ?_, ?_, by rwa [List.append_assoc] at h₂⟩
    · rw [List.mapM_cons, hnum, Outcome.done_bind, hmore]
      rfl
    · intro l' hl'
      rcases List.mem_cons.mp hl' with rfl | hl'
      · exact hread
      · exact hreads l' hl'

theorem exists_run (h : Registered n numbers st) {ls : List Json} {more : List ℕ}
    (hnum : ls.mapM lineNumber = .done (more.map fun l : ℕ => (l : ℤ)))
    (hread : ∀ l ∈ ls, readLine text l = .done ()) (hnodup : (numbers ++ more).Nodup)
    (hlt : ∀ l ∈ more, l < n) : ∃ st', ls.foldlM (registerLine text n) st = .done st' := by
  induction ls generalizing numbers st more with
  | nil => exact ⟨st, rfl⟩
  | cons l ls ih =>
    rw [List.mapM_cons] at hnum
    obtain ⟨x, hx, hnum⟩ := Outcome.bind_eq_done.mp hnum
    obtain ⟨xs, hxs, hnum⟩ := Outcome.bind_eq_done.mp hnum
    cases more with
    | nil => cases hnum
    | cons number more =>
      obtain ⟨rfl, rfl⟩ := List.cons.inj (Outcome.done.inj hnum)
      have hnat : number < n := hlt number (by simp)
      have hnew : number ∉ numbers := by
        intro hmem
        exact (List.nodup_append.mp hnodup).2.2 number hmem number (by simp) rfl
      have hfree : 0 ≤ (number : ℤ) ∧ (number : ℤ) < n ∧
          st.1[(number : ℤ).toNat]? = some false := by
        refine ⟨by omega, by omega, ?_⟩
        rw [Int.toNat_natCast, h.checked, if_pos hnat]
        simpa using hnew
      have hone : registerLine text n st l =
          .done (st.1.set number true, st.2.insert number Line.fresh) := by
        rw [registerLine, hx, Outcome.done_bind, if_pos hfree, hread l (by simp)]
        rfl
      rw [List.foldlM_cons, hone, Outcome.done_bind]
      exact ih (h.insert hnat hnew) hxs (fun l' hl' => hread l' (by simp [hl']))
        (by rwa [List.append_assoc]) fun l' hl' => hlt l' (by simp [hl'])

end Registered

/-- What makes the entry of a device a correct one: its type is that of a linked driver, it
has as many lines as the driver, and their numbers are in range and pairwise different. All
members that are read convert to the types that they should have. -/
structure Accepted (register : Name → Option Driver) (text : Json → List Byte) (d : Json)
    (driver : Driver) (members : Std.TreeMap Name Json) (numbers : List ℕ) : Prop where
  type : ∃ j t, d.get "type" .null = .done j ∧ j.asString text = .done t ∧
    register t = some driver
  url : ∃ j t, d.get "url" .null = .done j ∧ j.asString text = .done t
  computer : ∃ j t, d.get "computer" .null = .done j ∧ j.asString text = .done t
  lines : ∃ j, d.get "lines" .null = .done j ∧ j.isNull = false ∧ j.fields = .done members
  count : members.size = driver.nLines
  assigned : (members.toList.map Prod.snd).mapM lineNumber =
    .done (numbers.map fun l : ℕ => (l : ℤ))
  distinct : numbers.Nodup
  inRange : ∀ l ∈ numbers, l < driver.nLines
  read : ∀ l ∈ members.toList.map Prod.snd, readLine text l = .done ()

section device

variable {register : Name → Option Driver} {text : Json → List Byte} {dn : Name} {d : Json}
  {driver : Driver} {members : Std.TreeMap Name Json} {numbers : List ℕ}

def builtDevice (dn : Name) (driver : Driver) (lines : Std.TreeMap ℕ (Line V)) : Device V where
  name := dn
  maxFrequency := driver.maxFrequency
  nLines := driver.nLines
  lines := lines
  counterMap := ∅

theorem Accepted.parseDevice (h : Accepted register text d driver members numbers) (dn : Name) :
    ∃ st : List Bool × Std.TreeMap ℕ (Line V),
      PMLib.parseDevice register text dn d = .done (builtDevice dn driver st.2) := by
  obtain ⟨jt, t, hjt, ht, hreg⟩ := h.type
  obtain ⟨ju, u, hju, hu⟩ := h.url
  obtain ⟨jc, c, hjc, hc⟩ := h.computer
  obtain ⟨jl, hjl, hnull, hfields⟩ := h.lines
  obtain ⟨st, hst⟩ := (registered_start (V := V) members.size).exists_run h.assigned h.read
    h.distinct (by rw [h.count]; exact h.inRange)
  refine ⟨st, ?_⟩
  simp only [PMLib.parseDevice, hjt, ht, hju, hu, hjl, hreg, hnull, hfields, h.count, hjc, hc,
    Outcome.done_bind, ne_eq, not_true, if_false, Bool.false_eq_true]
  rw [h.count] at hst
  rw [hst]
  rfl

theorem accepted_of_parseDevice {dev : Device V}
    (h : PMLib.parseDevice register text dn d = .done dev) :
    ∃ driver members numbers st, Accepted register text d driver members numbers ∧
      Registered members.size numbers st ∧ dev = builtDevice dn driver st.2 := by
  obtain ⟨jt, hjt, h⟩ := Outcome.bind_eq_done.mp h
  obtain ⟨t, ht, h⟩ := Outcome.bind_eq_done.mp h
  obtain ⟨ju, hju, h⟩ := Outcome.bind_eq_done.mp h
  obtain ⟨u, hu, h⟩ := Outcome.bind_eq_done.mp h
  obtain ⟨jl, hjl, h⟩ := Outcome.bind_eq_done.mp h
  cases hreg : register t with
  | none => rw [hreg] at h; cases h
  | some driver =>
    rw [hreg] at h
    dsimp only at h
    split_ifs at h with hnull
    obtain ⟨members, hfields, h⟩ := Outcome.bind_eq_done.mp h
    split_ifs at h with hcount
    obtain ⟨jc, hjc, h⟩ := Outcome.bind_eq_done.mp h
    obtain ⟨c, hc, h⟩ := Outcome.bind_eq_done.mp h
    obtain ⟨st, hst, h⟩ := Outcome.bind_eq_done.mp h
    obtain rfl := Outcome.done.inj h
    obtain ⟨numbers, hnum, hread, hregd⟩ := (registered_start (V := V) members.size).run hst
    have hcount : members.size = driver.nLines := not_not.mp hcount
    rw [List.nil_append] at hregd
    refine ⟨driver, members, numbers, st, ?_, hregd, rfl⟩
    exact {
      type := ⟨jt, t, hjt, ht, hreg⟩
      url := ⟨ju, u, hju, hu⟩
      computer := ⟨jc, c, hjc, hc⟩
      lines := ⟨jl, hjl, by simpa using hnull, hfields⟩
      count := hcount
      assigned := hnum
      distinct := hregd.nodup
      inRange := by rw [← hcount]; exact hregd.lt
      read := hread }

theorem Accepted.perm (h : Accepted register text d driver members numbers) :
    numbers.Perm (List.range driver.nLines) := by
  have hlen : numbers.length = driver.nLines := by
    have hmap := Outcome.mapM_eq_done.mp h.assigned
    have := hmap.length_eq
    rw [List.length_map, List.length_map, Std.TreeMap.length_toList, h.count] at this
    exact this.symm
  have hsub : numbers ⊆ List.range driver.nLines := fun l hl =>
    List.mem_range.mpr (h.inRange l hl)
  exact (List.subperm_of_subset h.distinct hsub).perm_of_length_le
    (by rw [List.length_range, hlen])

theorem Registered.lines_eq {n : ℕ} {st : List Bool × Std.TreeMap ℕ (Line V)}
    (h : Registered n numbers st) (hp : numbers.Perm (List.range n)) (l : ℕ) :
    st.2[l]? = if l < n then some Line.fresh else none := by
  rw [h.lines l]
  simp [hp.mem_iff]

end device

section map

variable {register : Name → Option Driver} {text : Json → List Byte}
  {takesDisk : DiskCheck} {conf : Json} {dn : Name} {dev : Device V}

theorem mem_parseDevices {entries : List (Name × Json)}
    {deviceMap : Std.TreeMap Name (Device V)}
    (h : (parseDevices register text entries deviceMap)[dn]? = some dev) :
    deviceMap[dn]? = some dev ∨
      ∃ d, (dn, d) ∈ entries ∧ parseDevice register text dn d = .done dev := by
  induction entries generalizing deviceMap with
  | nil => exact .inl h
  | cons p entries ih =>
    obtain ⟨name, d⟩ := p
    rw [parseDevices] at h
    split at h
    · next dev' hdev =>
      rcases ih h with h | ⟨d', hd', hdev'⟩
      · by_cases hname : name = dn
        · subst hname
          rw [Std.TreeMap.getElem?_insert_self] at h
          obtain rfl := Option.some.inj h
          exact .inr ⟨d, by simp, hdev⟩
        · have hc : compare name dn ≠ Ordering.eq := by simpa using hname
          rw [Std.TreeMap.getElem?_insert, if_neg hc] at h
          exact .inl h
      · exact .inr ⟨d', by simp [hd'], hdev'⟩
    · exact .inl h

theorem mem_parseConfigfile (h : (parseConfigfile register text takesDisk conf)[dn]? = some dev) :
    ∃ entries d, deviceEntries conf = .done entries ∧ (dn, d) ∈ entries ∧
      parseDevice register text dn d = .done dev := by
  unfold parseConfigfile at h
  split at h
  · next entries _ hentries =>
    rcases mem_parseDevices h with h | ⟨d, hd, hdev⟩
    · simp at h
    · exact ⟨entries, d, hentries, hd, hdev⟩
  · simp at h

theorem initial_parseConfigfile
    (h : (parseConfigfile register text takesDisk conf)[dn]? = some dev) :
    Server.Initial ⟨dev, []⟩ := by
  obtain ⟨_, d, _, _, hdev⟩ := mem_parseConfigfile h
  obtain ⟨driver, members, numbers, st, hacc, hreg, rfl⟩ := accepted_of_parseDevice hdev
  have hlines := hreg.lines_eq (by rw [hacc.count]; exact hacc.perm)
  exact {
    sessions := rfl
    complete := fun l hl => ⟨Line.fresh, by
      rw [builtDevice, hlines l, if_pos (by rw [hacc.count]; exact hl)]⟩
    fresh := by
      intro l ln hl
      rw [builtDevice, hlines l] at hl
      split_ifs at hl
      exact (Option.some.inj hl).symm
    counterMap := by simp [builtDevice] }

end map

/-- Every access `lines[l]->` that an operation makes for the counter finds a line. -/
structure Device.NoneMissing (d : Device V) (c : Counter) : Prop where
  register : ∃ d', d.registerCounter c = .done d'
  deregister : ∃ d', d.deregisterCounter c = .done d'
  start : ∃ d', d.startCounter c.lines = .done d'
  stop : ∃ d', d.stopCounter c.lines = .done d'
  sizes : ∃ sizes, d.getLinesSizes c.lines = .done sizes
  data : ∀ l ∈ c.lines, ∃ data, d.getLineData l = .done data

theorem Device.noneMissing {d : Device V} {c : Counter} (hn : c.lines.Nodup)
    (hs : d.Has c.lines) : d.NoneMissing c where
  register := by
    obtain ⟨d', hd', -⟩ := forLines_mapped
      (d := { d with counterMap := d.counterMap.insert c.id c }) hn hs Line.enable
    exact ⟨d', hd'⟩
  deregister := deregisterCounter_done hn hs
  start := by
    obtain ⟨d', hd', -⟩ := forLines_mapped hn hs Line.activate
    exact ⟨d', hd'⟩
  stop := by
    obtain ⟨d', hd', -⟩ := forLines_mapped hn hs Line.deactivate
    exact ⟨d', hd'⟩
  sizes := getLinesSizes_done hs
  data := by
    intro l hl
    obtain ⟨ln, hln⟩ := hs l hl
    exact ⟨ln.data, by rw [getLineData, line, hln]; rfl⟩

abbrev Site (V : Type) := Std.TreeMap Name (Server V)

namespace Site

def start (deviceMap : Std.TreeMap Name (Device V)) : Site V :=
  deviceMap.map fun _ dev => ⟨dev, []⟩

variable [Zero V] [Add V]

/-- An event at one device. A CREATE that names no device touches none. -/
def next (s : Site V) (e : Name × Event V) : Outcome (Site V) :=
  match s[e.1]? with
  | some server => do
    let server ← server.next e.2
    .done (s.insert e.1 server)
  | none => .done s

def eventsAt (dn : Name) (es : List (Name × Event V)) : List (Event V) :=
  es.filterMap fun e => if e.1 = dn then some e.2 else none

theorem component {s t : Site V} {es : List (Name × Event V)}
    (h : Trace.exec next s es = .done t) {dn : Name} {server : Server V}
    (ht : t[dn]? = some server) : ∃ server₀, s[dn]? = some server₀ ∧
      Trace.exec Server.next server₀ (eventsAt dn es) = .done server := by
  induction es using List.reverseRecOn generalizing t server with
  | nil =>
    obtain rfl := Outcome.done.inj h
    exact ⟨server, ht, rfl⟩
  | append_singleton es e ih =>
    obtain ⟨u, hu, hn⟩ := (Trace.exec_snoc next).mp h
    have hsplit : eventsAt dn (es ++ [e]) = eventsAt dn es ++ if e.1 = dn then [e.2] else [] := by
      by_cases he : e.1 = dn <;> simp [eventsAt, he]
    rw [hsplit]
    unfold next at hn
    split at hn
    · next old hold =>
      obtain ⟨new, hnew, hn⟩ := Outcome.bind_eq_done.mp hn
      obtain rfl := Outcome.done.inj hn
      by_cases he : e.1 = dn
      · subst he
        rw [Std.TreeMap.getElem?_insert_self] at ht
        obtain rfl := Option.some.inj ht
        obtain ⟨server₀, h₀, hrun⟩ := ih hu hold
        refine ⟨server₀, h₀, ?_⟩
        rw [if_pos rfl]
        exact (Trace.exec_snoc Server.next).mpr ⟨old, hrun, hnew⟩
      · have hc : compare e.1 dn ≠ Ordering.eq := by simpa using he
        rw [Std.TreeMap.getElem?_insert, if_neg hc] at ht
        obtain ⟨server₀, h₀, hrun⟩ := ih hu ht
        exact ⟨server₀, h₀, by rw [if_neg he, List.append_nil]; exact hrun⟩
    · next hnone =>
      obtain rfl := Outcome.done.inj hn
      have he : e.1 ≠ dn := by
        rintro rfl
        rw [ht] at hnone
        cases hnone
      obtain ⟨server₀, h₀, hrun⟩ := ih hu ht
      exact ⟨server₀, h₀, by rw [if_neg he, List.append_nil]; exact hrun⟩

end Site

/-- The entry of the device `dn` assigns each number below `n` to one of its lines. -/
def AssignsEach (conf : Json) (dn : Name) (n : ℕ) : Prop :=
  ∃ entries d lines members, ∃ numbers : List ℕ, deviceEntries conf = .done entries ∧
    (dn, d) ∈ entries ∧ d.get "lines" .null = .done lines ∧ lines.fields = .done members ∧
    (members.toList.map Prod.snd).mapM lineNumber = .done (numbers.map fun l : ℕ => (l : ℤ)) ∧
    numbers.Perm (List.range n)

/-- The lines of a configured device are those below its line count, one for each entry. In
every run after that, no operation meets a missing line: not for the lines of a mask that a
client may send, nor for those of a counter that exists. -/
theorem parseConfigfile_complete [Zero V] [Add V] {register : Name → Option Driver}
    {text : Json → List Byte} {takesDisk : DiskCheck} {conf : Json}
    {dn : Name} {dev : Device V}
    (h : (parseConfigfile register text takesDisk conf)[dn]? = some dev) :
    AssignsEach conf dn dev.nLines ∧ (∀ l, (∃ ln, dev.lines[l]? = some ln) ↔ l < dev.nLines) ∧
      ∀ (es : List (Name × Event V)) (t : Site V) (server : Server V),
        Trace.exec Site.next (Site.start (parseConfigfile register text takesDisk conf)) es =
          .done t →
        t[dn]? = some server →
        (∀ mask c, Counter.setLines server.dev.nLines mask = .done c.lines →
          server.dev.NoneMissing c) ∧
        ∀ (k : ℕ) ss, server.sessions[k]? = some ss → server.dev.NoneMissing ss.counter := by
  have hinit := initial_parseConfigfile h
  obtain ⟨entries, d, hentries, hd, hdev⟩ := mem_parseConfigfile h
  obtain ⟨driver, members, numbers, st, hacc, hreg, hbuilt⟩ := accepted_of_parseDevice hdev
  obtain ⟨lines, hlines, -, hfields⟩ := hacc.lines
  have hn : dev.nLines = driver.nLines := by rw [hbuilt]; rfl
  refine ⟨⟨entries, d, lines, members, numbers, hentries, hd, hlines, hfields, hacc.assigned,
    by rw [hn]; exact hacc.perm⟩, fun l => ?_, fun es t server hrun ht => ?_⟩
  · have hl := hreg.lines_eq (by rw [hacc.count]; exact hacc.perm) l
    rw [hn, ← hacc.count, hbuilt, builtDevice, hl]
    split_ifs with hlt <;> simp [hlt]
  · obtain ⟨server₀, h₀, hexec⟩ := Site.component hrun ht
    obtain rfl : ⟨dev, []⟩ = server₀ := by
      rw [Site.start, Std.TreeMap.getElem?_map, h] at h₀
      exact Option.some.inj h₀
    let ρ : Run V := ⟨_, _, server, hinit, hexec⟩
    have hw := ρ.wellFormed _ (List.prefix_refl _) server hexec
    constructor
    · intro mask c hmask
      obtain ⟨hsorted, hlt⟩ := Counter.setLines_sorted hmask
      exact Device.noneMissing (hsorted.imp Nat.ne_of_lt) (hw.complete.has hlt)
    · intro k ss hk
      exact Device.noneMissing (hw.sessions k ss hk).nodup (hw.has hk)

/-- The drivers that the default build links in. -/
def deviceRegister (type : Name) : Option Driver :=
  ([("WattsUp", ⟨1, 1⟩), ("LMG450", ⟨20, 4⟩), ("LMG500", ⟨20, 8⟩), ("ArduPower", ⟨1000, 16⟩),
    ("Dummy", ⟨1, 24⟩)] : List (String × Driver)).findSome? fun p =>
      if ascii p.1 = type then some p.2 else none

def anyDisk : DiskCheck := fun _ _ _ => true

def deviceEntry (type : String) (numbers : List (String × ℤ)) : Json :=
  .object [(ascii "type", .string (ascii type)), (ascii "url", .string (ascii "/dev/ttyUSB0")),
    (ascii "lines", .object (numbers.map fun p =>
      (ascii p.1, .object [(ascii "number", .int p.2)])))]

def oneLineEntry (type : String) : Json := deviceEntry type [("outlet", 0)]

def devicesOnly (devices : List (Name × Json)) : Json :=
  .object [(ascii "devices", .object devices)]

def meterAndOutlet : Json :=
  devicesOnly [(ascii "meter", deviceEntry "LMG450" [("a", 2), ("b", 0), ("c", 3), ("d", 1)]),
    (ascii "outlet", oneLineEntry "WattsUp")]

def twoCounters : List (Name × Event ℤ) :=
  [(ascii "meter", .connection 0 (some ⟨ascii "meter", 0, false, [5#8]⟩)),
    (ascii "meter", .connection 0 (some ⟨ascii "meter", 10, true, [14#8]⟩)),
    (ascii "meter", .send 0 true), (ascii "meter", .receive 0 (some 1))]

theorem parseConfigfile_complete_meter : ∃ (dev : Device ℤ) (t : Site ℤ) (server : Server ℤ),
    (parseConfigfile deviceRegister (fun _ => []) anyDisk
      meterAndOutlet)[ascii "meter"]? = some dev ∧ (∃ ln, dev.lines[3]? = some ln) ∧
    Trace.exec Site.next (Site.start (parseConfigfile deviceRegister (fun _ => [])
      anyDisk meterAndOutlet)) twoCounters = .done t ∧
    t[ascii "meter"]? = some server ∧ server.sessions.length = 2 ∧
    ∀ (k : ℕ) ss, server.sessions[k]? = some ss → server.dev.NoneMissing ss.counter := by
  have hsome : ((parseConfigfile (V := ℤ) deviceRegister (fun _ => []) anyDisk
      meterAndOutlet)[ascii "meter"]?.any fun dev => dev.nLines == 4) = true := by decide +kernel
  have hrun : (Trace.exec Site.next (Site.start (parseConfigfile (V := ℤ) deviceRegister
      (fun _ => []) anyDisk meterAndOutlet)) twoCounters).check (fun t =>
        t[ascii "meter"]?.any fun server => server.sessions.length == 2) = true := by
    decide +kernel
  obtain ⟨dev, hdev, hn⟩ := (Option.any_eq_true _ _).mp hsome
  obtain ⟨t, ht, hserver⟩ := Outcome.check_eq_true.mp hrun
  obtain ⟨server, hserver, hlen⟩ := (Option.any_eq_true _ _).mp hserver
  obtain ⟨-, hlines, hsafe⟩ := parseConfigfile_complete hdev
  have hthree := (hlines 3).mpr (by rw [beq_iff_eq.mp hn]; decide)
  exact ⟨dev, t, server, hdev, hthree, ht, hserver, beq_iff_eq.mp hlen,
    (hsafe _ t server ht hserver).2⟩

end PMLib
