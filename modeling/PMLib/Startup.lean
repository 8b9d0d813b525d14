import PMLib.Configuration

/-! # Configurations with an error

The exception that a wrong entry raises leaves the loop over the devices, and is caught. What
is in the map by then are the devices before that entry, and the server starts with them. -/
namespace PMLib

variable {V : Type} {register : Name → Option Driver} {text : Json → List Byte}
  {takesDisk : DiskCheck} {conf d : Json} {dn : Name}

def ValidEntry (register : Name → Option Driver) (text : Json → List Byte) (d : Json) : Prop :=
  ∃ driver members numbers, Accepted register text d driver members numbers

variable (V) in
theorem validEntry_iff (dn : Name) : ValidEntry register text d ↔
    ∃ dev : Device V, parseDevice register text dn d = .done dev := by
  constructor
  · rintro ⟨driver, members, numbers, h⟩
    obtain ⟨st, hst⟩ := h.parseDevice (V := V) dn
    exact ⟨_, hst⟩
  · rintro ⟨dev, h⟩
    obtain ⟨driver, members, numbers, -, hacc, -⟩ := accepted_of_parseDevice h
    exact ⟨driver, members, numbers, hacc⟩

def configuredEntries (conf : Json) : List (Name × Json) :=
  match deviceEntries conf with
  | .done entries => entries
  | _ => []

/-- No device, and none started, if an entry is wrong; otherwise exactly the devices of the
document. -/
structure AllOrNothing (register : Name → Option Driver) (text : Json → List Byte) (conf : Json)
    (deviceMap : Std.TreeMap Name (Device V)) : Prop where
  nothing : (∃ p ∈ configuredEntries conf, ¬ ValidEntry register text p.2) →
    deviceMap.isEmpty = true ∧ startedDevices deviceMap = []
  all : (∀ p ∈ configuredEntries conf, ValidEntry register text p.2) → ∀ dn dev,
    deviceMap[dn]? = some dev ↔
      ∃ d, (dn, d) ∈ configuredEntries conf ∧ parseDevice register text dn d = .done dev

theorem configuredEntries_distinct (conf : Json) :
    (configuredEntries conf).Pairwise fun p q => p.1 ≠ q.1 := by
  unfold configuredEntries
  split
  · next entries h =>
    obtain ⟨devices, _, h⟩ := Outcome.bind_eq_done.mp h
    obtain ⟨fields, _, h⟩ := Outcome.bind_eq_done.mp h
    obtain rfl := Outcome.done.inj h
    have := Std.TreeMap.distinct_keys_toList (t := fields)
    simpa using this
  · exact List.Pairwise.nil

theorem isSome_parseDevices {entries : List (Name × Json)}
    {deviceMap : Std.TreeMap Name (Device V)} (h : deviceMap[dn]?.isSome) :
    (parseDevices register text entries deviceMap)[dn]?.isSome := by
  induction entries generalizing deviceMap with
  | nil => exact h
  | cons p entries ih =>
    obtain ⟨name, d⟩ := p
    rw [parseDevices]
    split
    · apply ih
      rw [Std.TreeMap.getElem?_insert]
      split_ifs
      · rfl
      · exact h
    · exact h

theorem getElem?_parseDevices {entries : List (Name × Json)}
    {deviceMap : Std.TreeMap Name (Device V)} (hdistinct : entries.Pairwise fun p q => p.1 ≠ q.1)
    (hvalid : ∀ p ∈ entries, ValidEntry register text p.2) (dn : Name) (dev : Device V) :
    (parseDevices register text entries deviceMap)[dn]? = some dev ↔
      (∃ d, (dn, d) ∈ entries ∧ parseDevice register text dn d = .done dev) ∨
        (∀ d, (dn, d) ∉ entries) ∧ deviceMap[dn]? = some dev := by
  induction entries generalizing deviceMap with
  | nil => simp [parseDevices]
  | cons p entries ih =>
    obtain ⟨name, d⟩ := p
    obtain ⟨dev', hdev'⟩ := (validEntry_iff V name).mp (hvalid (name, d) (by simp))
    obtain ⟨hnew, hdistinct⟩ := List.pairwise_cons.mp hdistinct
    rw [parseDevices, hdev']
    dsimp only
    rw [ih hdistinct (fun q hq => hvalid q (by simp [hq])), Std.TreeMap.getElem?_insert]
    by_cases hname : name = dn
    · subst hname
      have hnone : ∀ d, (name, d) ∉ entries := fun d hd => hnew (name, d) hd rfl
      simp [hnone, hdev']
    · have hc : compare name dn ≠ Ordering.eq := by simpa using hname
      simp [hc, Ne.symm hname]

def SettingsReadable (text : Json → List Byte) (takesDisk : DiskCheck)
    (conf : Json) : Prop :=
  parseSettings text takesDisk conf = .done ()

def FailsFirst (register : Name → Option Driver) (text : Json → List Byte) (conf : Json) : Prop :=
  ∀ p, (configuredEntries conf).head? = some p → ValidEntry register text p.2 →
    ∀ q ∈ configuredEntries conf, ValidEntry register text q.2

theorem parseConfigfile_of_readable (h : SettingsReadable text takesDisk conf) :
    (parseConfigfile register text takesDisk conf : Std.TreeMap Name (Device V)) =
      parseDevices register text (configuredEntries conf) ∅ := by
  unfold parseConfigfile configuredEntries
  rw [h]
  cases deviceEntries conf <;> rfl

theorem parseConfigfile_of_not_readable (h : ¬ SettingsReadable text takesDisk conf) :
    (parseConfigfile register text takesDisk conf : Std.TreeMap Name (Device V)) = ∅ := by
  unfold parseConfigfile
  unfold SettingsReadable at h
  cases hs : parseSettings text takesDisk conf with
  | done u => exact absurd hs h
  | failed => rfl
  | undefined => rfl

theorem AllOrNothing.of_empty
    (h : configuredEntries conf = [] ∨
      ∃ p ∈ configuredEntries conf, ¬ ValidEntry register text p.2) :
    AllOrNothing register text conf (∅ : Std.TreeMap Name (Device V)) where
  nothing _ := ⟨rfl, rfl⟩
  all := by
    intro hvalid dn dev
    rcases h with h | ⟨p, hp, hwrong⟩
    · simp [h]
    · exact absurd (hvalid p hp) hwrong

theorem parseDevices_of_invalid {p : Name × Json} {rest : List (Name × Json)}
    (h : ¬ ValidEntry register text p.2) :
    (parseDevices register text (p :: rest) ∅ : Std.TreeMap Name (Device V)) = ∅ := by
  obtain ⟨name, d⟩ := p
  rw [parseDevices]
  split
  · next dev hdev => exact absurd ((validEntry_iff V name).mpr ⟨dev, hdev⟩) h
  · rfl

/-- With readable settings, a wrong entry behind the first one leaves part of the devices. -/
theorem failsFirst_iff (h : SettingsReadable text takesDisk conf) :
    AllOrNothing register text conf
      (parseConfigfile register text takesDisk conf : Std.TreeMap Name (Device V)) ↔
        FailsFirst register text conf := by
  rw [parseConfigfile_of_readable h]
  constructor
  · intro hall p hp hfirst
    by_contra hwrong
    push Not at hwrong
    obtain ⟨hempty, -⟩ := hall.nothing hwrong
    obtain ⟨rest, hrest⟩ := List.head?_eq_some_iff.mp hp
    obtain ⟨dev, hdev⟩ := (validEntry_iff V p.1).mp hfirst
    rw [hrest, parseDevices, hdev] at hempty
    -- the first device is in the map, and stays in it
    have hkept : (parseDevices register text rest
        ((∅ : Std.TreeMap Name (Device V)).insert p.1 dev))[p.1]?.isSome := by
      apply isSome_parseDevices
      rw [Std.TreeMap.getElem?_insert_self]
      rfl
    dsimp only at hempty
    rw [Std.TreeMap.getElem?_of_isEmpty hempty] at hkept
    cases hkept
  · intro hfirst
    cases hc : configuredEntries conf with
    | nil => exact AllOrNothing.of_empty (Or.inl hc)
    | cons p rest =>
      by_cases hp : ValidEntry register text p.2
      · have hvalid := hfirst p (by rw [hc]; rfl) hp
        constructor
        · rintro ⟨q, hq, hwrong⟩
          exact absurd (hvalid q hq) hwrong
        · intro _ dn dev
          rw [← hc, getElem?_parseDevices (configuredEntries_distinct conf) hvalid]
          simp
      · rw [parseDevices_of_invalid hp]
        exact AllOrNothing.of_empty (Or.inr ⟨p, by rw [hc]; exact List.mem_cons_self, hp⟩)

/-- What a document must be like for the map to hold all of its devices or none of them. -/
theorem allOrNothing_iff {register : Name → Option Driver} {text : Json → List Byte}
    {takesDisk : DiskCheck} {conf : Json} :
    AllOrNothing register text conf
      (parseConfigfile register text takesDisk conf : Std.TreeMap Name (Device V)) ↔
        (SettingsReadable text takesDisk conf → FailsFirst register text conf) ∧
          (¬ SettingsReadable text takesDisk conf → configuredEntries conf = [] ∨
            ∃ p ∈ configuredEntries conf, ¬ ValidEntry register text p.2) := by
  by_cases hs : SettingsReadable text takesDisk conf
  · simp [hs, failsFirst_iff hs]
  · simp only [hs, false_implies, not_false_eq_true, true_implies, true_and]
    constructor
    · intro hall
      by_contra hno
      push Not at hno
      obtain ⟨hsome, hvalid⟩ := hno
      obtain ⟨p, hp⟩ := List.exists_mem_of_ne_nil _ hsome
      obtain ⟨dev, hdev⟩ := (validEntry_iff V p.1).mp (hvalid p hp)
      have hkept := (hall.all hvalid p.1 dev).mpr ⟨p.2, hp, hdev⟩
      rw [parseConfigfile_of_not_readable hs] at hkept
      cases hkept
    · rw [parseConfigfile_of_not_readable hs]
      exact AllOrNothing.of_empty

def secondUnknown : Json :=
  devicesOnly [(ascii "a", oneLineEntry "WattsUp"), (ascii "b", oneLineEntry "Nope")]

theorem allOrNothing_fails : ¬ AllOrNothing deviceRegister (fun _ => []) secondUnknown
    (parseConfigfile deviceRegister (fun _ => []) anyDisk secondUnknown :
      Std.TreeMap Name (Device ℤ)) := by
  have hunknown : parseDevice (V := ℤ) deviceRegister (fun _ => []) (ascii "b")
      (oneLineEntry "Nope") = .failed := by rfl
  have hsecond : (configuredEntries secondUnknown)[1]? =
      some (ascii "b", oneLineEntry "Nope") := by rfl
  have hwrong : ¬ ValidEntry deviceRegister (fun _ => []) (oneLineEntry "Nope") := by
    intro hvalid
    obtain ⟨dev, hdev⟩ := (validEntry_iff ℤ (ascii "b")).mp hvalid
    rw [hunknown] at hdev
    cases hdev
  intro hall
  obtain ⟨hempty, -⟩ := hall.nothing ⟨_, List.mem_of_getElem? hsecond, hwrong⟩
  have hsome : (parseConfigfile (V := ℤ) deviceRegister (fun _ => [])
      anyDisk secondUnknown).isEmpty
      = false := by decide +kernel
  rw [hsome] at hempty
  cases hempty

end PMLib
