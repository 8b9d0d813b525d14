import PMLib.LegacySessions

/-! # The books of the legacy server

A session that is not removed from its device stays in the books for good. A lock that is left
behind closes them. -/
namespace PMLib.Legacy

open RefCount

variable {V : Type}

namespace Line

@[simp] theorem enable_enabled (l : Line V) : l.enable.enabled = l.enabled + 1 := rfl
@[simp] theorem enable_active (l : Line V) : l.enable.active = l.active := rfl
@[simp] theorem enable_powerData (l : Line V) : l.enable.powerData = l.powerData := rfl
@[simp] theorem activate_enabled (l : Line V) : l.activate.enabled = l.enabled := rfl
@[simp] theorem activate_active (l : Line V) : l.activate.active = l.active + 1 := rfl
@[simp] theorem activate_powerData (l : Line V) : l.activate.powerData = l.powerData := rfl
@[simp] theorem inactivate_enabled (l : Line V) : l.inactivate.enabled = l.enabled := rfl
@[simp] theorem inactivate_powerData (l : Line V) : l.inactivate.powerData = l.powerData := rfl

theorem inactivate_active (l : Line V) (h : 0 < l.active) :
    l.inactivate.active = l.active - 1 := by
  rw [inactivate, if_neg (by omega)]

theorem leave_enabled (l : Line V) (h : 0 < l.enabled) : l.leave.enabled = l.enabled - 1 := by
  unfold leave disable
  split_ifs <;> first | rfl | omega

@[simp] theorem leave_active (l : Line V) : l.leave.active = l.active := by
  unfold leave disable
  split_ifs <;> rfl

theorem leave_samples (l : Line V) :
    l.leave.powerData.samples = if 1 < l.enabled then l.powerData.samples else [] := by
  by_cases h : 1 < l.enabled
  · have hleft : l.disable.isEnabled = true := by
      unfold disable isEnabled
      split_ifs <;> simp <;> omega
    rw [leave, if_pos hleft, if_pos h]
    rfl
  · have hleft : ¬ l.disable.isEnabled = true := by
      unfold disable isEnabled
      split_ifs <;> simp; omega
    rw [leave, if_neg hleft, if_neg h]
    rfl

@[simp] theorem appendData_enabled (l : Line V) (v : V) :
    (l.appendData v).enabled = l.enabled := by
  unfold appendData
  split_ifs <;> rfl

@[simp] theorem appendData_active (l : Line V) (v : V) : (l.appendData v).active = l.active := by
  unfold appendData
  split_ifs <;> rfl

end Line

namespace Counter

variable (c : Counter) {ln : Line V}

theorem leaves_enabled (h : 0 < ln.enabled) : (c.leaves ln).enabled = ln.enabled - 1 := by
  unfold leaves
  split_ifs
  · rw [Line.leave_enabled _ (by simpa using h), Line.inactivate_enabled]
  · exact Line.leave_enabled _ h

theorem leaves_active (h : c.status = .active → 0 < ln.active) :
    (c.leaves ln).active = if c.status = .active then ln.active - 1 else ln.active := by
  unfold leaves
  split_ifs with hst
  · rw [Line.leave_active, Line.inactivate_active _ (h hst)]
  · exact Line.leave_active ln

theorem leaves_samples : (c.leaves ln).powerData.samples =
    if 1 < ln.enabled then ln.powerData.samples else [] := by
  by_cases hst : c.status = .active
  · rw [leaves, if_pos hst, Line.leave_samples, Line.inactivate_enabled,
      Line.inactivate_powerData]
  · rw [leaves, if_neg hst, Line.leave_samples]

end Counter

theorem Device.lineAppendData_mapped (d : Device V) (x : ℕ → V) :
    Device.Mapped d (d.lineAppendData x) (fun l ln => ln.appendData (x l)) :=
  ⟨rfl, rfl, Std.TreeMap.size_map, fun l => by simp [Device.lineAppendData]⟩

namespace Server

variable {s u : Server V}

theorem WellFormed.update (hw : s.WellFormed) {k : ℕ} {ss ss' : Session V} {dev : Device V}
    {g : ℕ → Line V → Line V} {main : Main} (hk : s.sessions[k]? = some ss)
    (hm : Device.Mapped s.dev dev g) (hok : ss'.Ok s.dev.lines.size)
    (hcounters : ∀ i : ℕ, i ∈ dev.counters ↔
      if i = k then ss'.running = true else i ∈ s.dev.counters)
    (he : ∀ l ln, s.dev.lines[l]? = some ln →
      (g l ln).enabled + (ss.enables l).toNat = ln.enabled + (ss'.enables l).toNat)
    (ha : ∀ l ln, s.dev.lines[l]? = some ln →
      (g l ln).active + (ss.activates l).toNat = ln.active + (ss'.activates l).toNat)
    (hd : ∀ l ln, s.dev.lines[l]? = some ln → (g l ln).enabled = 0 →
      (g l ln).powerData.samples = [])
    (hlock : dev.counterLock = true → main = .ended)
    (hcreated : ss'.phase ≠ .created ∧ (main = s.main ∨ ss.phase = .created)) :
    WellFormed ⟨dev, s.sessions.set k ss', main⟩ where
  complete := hm.complete hw.complete
  sessions j x hj := by
    rw [hm.size]
    rcases getElem?_set_cases hj with ⟨rfl, rfl⟩ | ⟨_, hj⟩
    · exact hok
    · exact hw.sessions j x hj
  counters i := by
    rw [hcounters]
    split_ifs with hi
    · subst hi
      rw [List.getElem?_set_self', hk]
      simp
    · rw [hw.counters, List.getElem?_set_ne (Ne.symm hi)]
  enabled l ln hl := by
    obtain ⟨ln₀, h₀, rfl⟩ := hm.line hl
    have hset := holders_set Session.enables l hk ss'
    have hnow := hw.enabled l ln₀ h₀
    have hmove := he l ln₀ h₀
    change (g l ln₀).enabled = holders Session.enables (s.sessions.set k ss') l
    omega
  active l ln hl := by
    obtain ⟨ln₀, h₀, rfl⟩ := hm.line hl
    have hset := holders_set Session.activates l hk ss'
    have hnow := hw.active l ln₀ h₀
    have hmove := ha l ln₀ h₀
    change (g l ln₀).active = holders Session.activates (s.sessions.set k ss') l
    omega
  empty l ln hl := by
    obtain ⟨ln₀, h₀, rfl⟩ := hm.line hl
    exact hd l ln₀ h₀
  lock := hlock
  created j x hj hx := by
    rw [List.length_set]
    rcases getElem?_set_cases hj with ⟨rfl, rfl⟩ | ⟨hne, hj⟩
    · exact absurd hx hcreated.1
    · obtain ⟨hmain, hlast⟩ := hw.created j x hj hx
      rcases hcreated.2 with hsame | hmade
      · exact ⟨hsame.trans hmain, hlast⟩
      · obtain ⟨-, hlast'⟩ := hw.created k ss hk hmade
        omega

theorem counters_kept (hw : s.WellFormed) {k : ℕ} {ss ss' : Session V}
    (hk : s.sessions[k]? = some ss) (h : ss'.running = ss.running) (i : ℕ) :
    i ∈ s.dev.counters ↔ if i = k then ss'.running = true else i ∈ s.dev.counters := by
  by_cases hi : i = k
  · subst hi
    rw [if_pos rfl, h, hw.counters, hk]
    simp
  · rw [if_neg hi]

theorem WellFormed.active_le (hw : s.WellFormed) {l : ℕ} {ln : Line V}
    (hl : s.dev.lines[l]? = some ln) : ln.active ≤ ln.enabled := by
  rw [hw.active l ln hl, hw.enabled l ln hl]
  have hle : holders Session.activates s.sessions l ≤ holders Session.enables s.sessions l := by
    refine List.countP_mono_left fun ss _ hss => ?_
    simp only [Session.activates, Bool.and_eq_true] at hss
    simp only [Session.enables, hss, Bool.and_true]
  exact_mod_cast hle

theorem WellFormed.enabled_pos (hw : s.WellFormed) {k : ℕ} {c : Counter} {ph : Phase V}
    (hk : s.sessions[k]? = some ⟨c, true, ph⟩) {l : ℕ} {ln : Line V}
    (hl : s.dev.lines[l]? = some ln) (hsel : l ∈ c.lines) : 0 < ln.enabled := by
  rw [hw.enabled l ln hl]
  have hpos := holders_pos (r := l) hk (show Session.enables _ l = true by
    simp [Session.enables, hsel])
  exact_mod_cast hpos

theorem WellFormed.active_pos (hw : s.WellFormed) {k : ℕ} {c : Counter} {ph : Phase V}
    (hk : s.sessions[k]? = some ⟨c, true, ph⟩) (hst : c.status = .active) {l : ℕ} {ln : Line V}
    (hl : s.dev.lines[l]? = some ln) (hsel : l ∈ c.lines) : 0 < ln.active := by
  rw [hw.active l ln hl]
  have hpos := holders_pos (r := l) hk (show Session.activates _ l = true by
    simp [Session.activates, hsel, hst])
  exact_mod_cast hpos

theorem WellFormed.not_created (hw : s.WellFormed) (hmain : s.main ≠ .answering) {k : ℕ}
    {ss : Session V} (hk : s.sessions[k]? = some ss) : ss.phase ≠ .created :=
  fun h => hmain (hw.created k ss hk h).1

theorem WellFormed.sample (hw : s.WellFormed) (x : ℕ → V) :
    WellFormed { s with dev := s.dev.lineAppendData x } where
  complete := (s.dev.lineAppendData_mapped x).complete hw.complete
  sessions k ss hk := by
    rw [(s.dev.lineAppendData_mapped x).size]
    exact hw.sessions k ss hk
  counters := hw.counters
  enabled l ln hl := by
    obtain ⟨ln₀, h₀, rfl⟩ := (s.dev.lineAppendData_mapped x).line hl
    rw [Line.appendData_enabled]
    exact hw.enabled l ln₀ h₀
  active l ln hl := by
    obtain ⟨ln₀, h₀, rfl⟩ := (s.dev.lineAppendData_mapped x).line hl
    rw [Line.appendData_active]
    exact hw.active l ln₀ h₀
  empty l ln hl := by
    obtain ⟨ln₀, h₀, rfl⟩ := (s.dev.lineAppendData_mapped x).line hl
    rw [Line.appendData_enabled]
    intro hzero
    have hle := hw.active_le h₀
    have hidle : ¬ ln₀.isActive = true := by simp [Line.isActive]; omega
    rw [Line.appendData, if_neg hidle]
    exact hw.empty l ln₀ h₀ hzero
  lock := hw.lock
  created := hw.created

theorem WellFormed.endMain (hw : s.WellFormed) (hmain : s.main = .accepting) (locked : Bool) :
    WellFormed { s with dev := { s.dev with counterLock := locked }, main := .ended } where
  complete := hw.complete
  sessions := hw.sessions
  counters := hw.counters
  enabled := hw.enabled
  active := hw.active
  empty := hw.empty
  lock _ := rfl
  created k ss hk h := absurd h (hw.not_created (by simp [hmain]) hk)

theorem WellFormed.join (hw : s.WellFormed) (hmain : s.main = .accepting) {c : Counter}
    {dev : Device V} (h : Counter.Built s.sessions.length s.dev dev c) :
    WellFormed ⟨dev, s.sessions ++ [⟨c, true, .created⟩], .answering⟩ where
  complete := h.mapped.complete hw.complete
  sessions k ss hk := by
    rw [h.mapped.size]
    rcases getElem?_snoc_cases hk with ⟨rfl, rfl⟩ | hk
    · refine ⟨h.nodup, h.lines_lt, ?_, fun _ => rfl⟩
      simp [Counter.lastSetCompleted, h.sets, h.status]
    · exact hw.sessions k ss hk
  counters i := by
    rw [h.counters, Std.TreeSet.mem_insert, hw.counters, Std.LawfulEqCmp.compare_eq_iff_eq]
    constructor
    · rintro (rfl | ⟨ss, hss, hrun⟩)
      · exact ⟨⟨c, true, .created⟩, by simp, rfl⟩
      · refine ⟨ss, ?_, hrun⟩
        rwa [List.getElem?_append_left (List.getElem?_eq_some_iff.mp hss).1]
    · rintro ⟨ss, hss, hrun⟩
      rcases getElem?_snoc_cases hss with ⟨rfl, rfl⟩ | hss
      · exact .inl rfl
      · exact .inr ⟨ss, hss, hrun⟩
  enabled l ln hl := by
    obtain ⟨ln₀, h₀, rfl⟩ := h.mapped.line hl
    rw [holders_snoc]
    have hnow := hw.enabled l ln₀ h₀
    by_cases hsel : l ∈ c.lines <;> simp [hsel, Session.enables, hnow]
  active l ln hl := by
    obtain ⟨ln₀, h₀, rfl⟩ := h.mapped.line hl
    rw [holders_snoc]
    have hnow := hw.active l ln₀ h₀
    by_cases hsel : l ∈ c.lines <;> simp [hsel, Session.activates, h.status, hnow]
  empty l ln hl := by
    obtain ⟨ln₀, h₀, rfl⟩ := h.mapped.line hl
    have hempty := hw.empty l ln₀ h₀
    have hnonneg : 0 ≤ ln₀.enabled := by rw [hw.enabled l ln₀ h₀]; omega
    by_cases hsel : l ∈ c.lines
    · simp only [hsel, if_true, Line.enable_enabled]
      omega
    · simpa only [hsel, if_false] using hempty
  lock hlock := by simp [h.free] at hlock
  created k ss hk hss := by
    refine ⟨rfl, ?_⟩
    rcases getElem?_snoc_cases hk with ⟨rfl, -⟩ | hk
    · simp
    · exact absurd hss (hw.not_created (by simp [hmain]) hk)

end Server

variable {s u : Server V} {e : Event V}

theorem Change.wellFormed (hw : s.WellFormed) (h : Change s e u) : u.WellFormed := by
  cases h with
  | sampled x hroom => exact hw.sample x
  | ignored op incoming hmain hno => exact hw
  | lost op incoming hmain hno => exact hw.endMain hmain s.dev.counterLock
  | wedged op incoming hmain hop hyes => exact hw.endMain hmain true
  | joined op incoming c dev hmain hlock hno hbuilt => exact hw.join hmain hbuilt
  | rephased _ k c ph ph' main hk he hph hmain hstay =>
    have hok := hw.sessions k _ hk
    refine hw.update hk (Device.Mapped.refl s.dev) ⟨hok.nodup, hok.lines_lt, hok.completed,
      fun _ => rfl⟩ (Server.counters_kept hw hk rfl) (fun l ln _ => rfl) (fun l ln _ => rfl)
      hw.empty ?_ ⟨hph, ?_⟩
    · intro hlock
      rcases hmain with ⟨hsame, -⟩ | hmade
      · exact hsame.trans (hw.lock hlock)
      · have hended := hw.lock hlock
        rw [(hw.created k _ hk hmade).1] at hended
        cases hended
    · exact hmain.imp (fun h => h.1) fun h => h
  | opened op k c earlier m dev hk hlock hop hst hcounters hfree hm =>
    have hok := hw.sessions k _ hk
    refine hw.update hk hm ⟨hok.nodup, hok.lines_lt, ?_, fun _ => rfl⟩ ?_ (fun l ln hl => ?_)
      (fun l ln hl => ?_) (fun l ln hl => ?_) (by simp [hfree]) ⟨by simp, .inl rfl⟩
    · simp [Counter.lastSetCompleted]
    · rw [hcounters]
      exact Server.counters_kept hw hk rfl
    · by_cases hsel : l ∈ c.lines <;> simp [hsel, Session.enables]
    · by_cases hsel : l ∈ c.lines <;> simp [hsel, Session.activates, hst]
    · by_cases hsel : l ∈ c.lines <;> simpa [hsel] using hw.empty l ln hl
  | closed op k c last m dev hk hlock hop hst hcounters hfree hm =>
    have hok := hw.sessions k _ hk
    refine hw.update hk hm ⟨hok.nodup, hok.lines_lt, ?_, fun _ => rfl⟩ ?_ (fun l ln hl => ?_)
      (fun l ln hl => ?_) (fun l ln hl => ?_) (by simp [hfree]) ⟨by simp, .inl rfl⟩
    · simp [Counter.lastSetCompleted]
    · rw [hcounters]
      exact Server.counters_kept hw hk rfl
    · by_cases hsel : l ∈ c.lines <;> simp [hsel, Session.enables]
    · by_cases hsel : l ∈ c.lines
      · have hpos := hw.active_pos hk hst hl hsel
        simp [hsel, Session.activates, hst, Line.inactivate_active _ hpos]
      · simp [hsel, Session.activates, hst]
    · by_cases hsel : l ∈ c.lines <;> simpa [hsel] using hw.empty l ln hl
  | departed m k c ph dev hk hlock hleaves hph hcounters hfree hm =>
    have hok := hw.sessions k _ hk
    have hne : ph ≠ .created := by rcases hph with rfl | rfl <;> simp
    refine hw.update hk hm ⟨hok.nodup, hok.lines_lt, hok.completed, ?_⟩ (fun i => ?_)
      (fun l ln hl => ?_) (fun l ln hl => ?_) (fun l ln hl => ?_) (by simp [hfree]) ⟨hne, .inl rfl⟩
    · rcases hph with rfl | rfl <;> simp
    · rw [hcounters, Std.TreeSet.mem_erase]
      by_cases hi : i = k
      · simp [hi]
      · simp [hi, Ne.symm hi]
    · by_cases hsel : l ∈ c.lines
      · have hleft := c.leaves_enabled (hw.enabled_pos hk hl hsel)
        simp [hsel, Session.enables, hleft]
      · simp [hsel, Session.enables]
    · by_cases hsel : l ∈ c.lines
      · have hleft := c.leaves_active fun hst => hw.active_pos hk hst hl hsel
        by_cases hst : c.status = .active <;> simp [hsel, hst, Session.activates, hleft]
      · simp [hsel, Session.activates]
    · by_cases hsel : l ∈ c.lines
      · simp only [hsel, if_true, c.leaves_enabled (hw.enabled_pos hk hl hsel), c.leaves_samples]
        intro hzero
        rw [if_neg (by omega)]
      · simpa only [hsel, if_false] using hw.empty l ln hl
  | gone k ok c r hk =>
    have hok := hw.sessions k _ hk
    refine hw.update hk (Device.Mapped.refl s.dev) ⟨hok.nodup, hok.lines_lt, hok.completed,
      by simp⟩ (Server.counters_kept hw hk rfl) (fun l ln _ => rfl) (fun l ln _ => rfl)
      hw.empty hw.lock ⟨by simp, .inl rfl⟩

namespace Server

theorem configured_dev (name : Name) (maxFrequency : ℤ) (nLines : ℕ) :
    (configured name maxFrequency nLines : Server V).dev.lines.size = nLines ∧
      ∀ l : ℕ, (configured name maxFrequency nLines : Server V).dev.lines[l]? =
        if l < nLines then some Line.fresh else none := by
  simp only [configured]
  induction nLines with
  | zero => simp
  | succ n ih =>
    obtain ⟨hsize, hlines⟩ := ih
    rw [List.range_succ, List.foldl_append, List.foldl_cons, List.foldl_nil]
    constructor
    · have hnew : ¬ n ∈ (List.range n).foldl (fun m l => m.insert l Line.fresh)
          (∅ : Std.TreeMap ℕ (Line V)) := by
        rw [Std.TreeMap.mem_iff_isSome_getElem?, hlines, if_neg (lt_irrefl n)]
        simp
      rw [Std.TreeMap.size_insert, if_neg (by simpa using hnew), hsize]
    · intro l
      rw [Std.TreeMap.getElem?_insert, hlines]
      by_cases hl : n = l
      · simp [hl]
      · have hc : compare n l ≠ .eq := by simpa using hl
        simp only [hc, if_false]
        split_ifs <;> first | rfl | omega

theorem configured_wellFormed (name : Name) (maxFrequency : ℤ) (nLines : ℕ) :
    (configured name maxFrequency nLines : Server V).WellFormed where
  complete l hl := by
    obtain ⟨hsize, hlines⟩ := configured_dev (V := V) name maxFrequency nLines
    rw [hsize] at hl
    exact ⟨Line.fresh, (hlines l).trans (if_pos hl)⟩
  sessions k ss hk := by simp [configured] at hk
  counters i := by simp [configured]
  enabled l ln hl := by
    rw [(configured_dev name maxFrequency nLines).2] at hl
    split_ifs at hl
    obtain rfl := Option.some.inj hl
    rfl
  active l ln hl := by
    rw [(configured_dev name maxFrequency nLines).2] at hl
    split_ifs at hl
    obtain rfl := Option.some.inj hl
    rfl
  empty l ln hl := by
    rw [(configured_dev name maxFrequency nLines).2] at hl
    split_ifs at hl
    obtain rfl := Option.some.inj hl
    exact fun _ => rfl
  lock h := by simp [configured] at h
  created k ss hk := by simp [configured] at hk

end Server

section steps

private theorem running_set {k j : ℕ} {ss x y : Session V} (hj : s.sessions[j]? = some ss)
    (hx : (s.sessions.set j y)[k]? = some x)
    (hsame : y.running = true ↔ ss.running = true ∧
      ¬ (s.dev.counterLock = false ∧ e.Leaves j))
    (hone : s.dev.counterLock = false → e.Leaves k → k = j) :
    ∃ ss, s.sessions[k]? = some ss ∧ (x.running = true ↔
      ss.running = true ∧ ¬ (s.dev.counterLock = false ∧ e.Leaves k)) := by
  rcases getElem?_set_cases hx with ⟨rfl, rfl⟩ | ⟨hne, hx⟩
  · exact ⟨ss, hj, hsame⟩
  · refine ⟨x, hx, ?_⟩
    rw [and_iff_left fun h => hne (hone h.1 h.2)]

/-- Who is in the books only changes by leaving, and only while the lock is free. -/
theorem Change.running (h : Change s e u) {k : ℕ} {ss' : Session V}
    (hk' : u.sessions[k]? = some ss') :
    (∃ ss, s.sessions[k]? = some ss ∧ (ss'.running = true ↔
      ss.running = true ∧ ¬ (s.dev.counterLock = false ∧ e.Leaves k))) ∨
    (¬ e.Leaves k ∧ k = s.sessions.length ∧ ss'.running = true) := by
  cases h with
  | sampled | ignored | lost | wedged => exact .inl ⟨ss', hk', by simp [Event.Leaves]⟩
  | joined op incoming c dev hmain hlock hno hbuilt =>
    rcases getElem?_snoc_cases hk' with ⟨rfl, rfl⟩ | hk'
    · exact .inr ⟨fun h => h, rfl, rfl⟩
    · exact .inl ⟨ss', hk', by simp [Event.Leaves]⟩
  | rephased _ j c ph ph' main hj he hph hmain hstay =>
    refine .inl (running_set hj hk' ?_ fun hfree h => absurd h (hstay k hfree))
    simpa using hstay j
  | opened op j c earlier m dev hj hlock hop =>
    refine .inl (running_set hj hk' ?_ fun _ h => h.of)
    simpa using fun _ => not_leaves hop
  | closed op j c last m dev hj hlock hop =>
    refine .inl (running_set hj hk' ?_ fun _ h => h.of)
    simpa using fun _ => not_leaves hop
  | departed m j c ph dev hj hlock hleaves =>
    refine .inl (running_set hj hk' ?_ fun _ h => h.of)
    simp [hlock, hleaves]
  | gone j ok c r hj =>
    refine .inl (running_set hj hk' ?_ fun _ h => h.elim)
    simp

theorem Change.leaves_lt (h : Change s e u) (hfree : s.dev.counterLock = false) {k : ℕ}
    (hleaves : e.Leaves k) : k < s.sessions.length := by
  cases h with
  | departed m j c ph dev hj =>
    obtain rfl := hleaves.of
    exact (List.getElem?_eq_some_iff.mp hj).1
  | rephased _ j c ph ph' main hj he hph hmain hstay => exact absurd hleaves (hstay k hfree)
  | opened op j c earlier m dev hj =>
    obtain rfl := hleaves.of
    exact (List.getElem?_eq_some_iff.mp hj).1
  | closed op j c last m dev hj =>
    obtain rfl := hleaves.of
    exact (List.getElem?_eq_some_iff.mp hj).1
  | sampled | ignored | lost | wedged | joined | gone => exact hleaves.elim

theorem Change.maxFrequency (h : Change s e u) : u.dev.maxFrequency = s.dev.maxFrequency := by
  cases h with
  | sampled | ignored | lost | wedged | rephased | gone => rfl
  | joined op incoming c dev hmain hlock hno hbuilt => exact hbuilt.mapped.maxFrequency
  | opened op k c earlier m dev hk hlock hop hst hcounters hfree hm => exact hm.maxFrequency
  | closed op k c last m dev hk hlock hop hst hcounters hfree hm => exact hm.maxFrequency
  | departed m k c ph dev hk hlock hleaves hph hcounters hfree hm => exact hm.maxFrequency

theorem Change.length_le (h : Change s e u) : s.sessions.length ≤ u.sessions.length := by
  cases h <;> simp [Server.withSession]

theorem Change.lock (h : Change s e u) :
    u.dev.counterLock = true ↔ s.dev.counterLock = true ∨ s.Vanishes e := by
  cases h with
  | sampled | gone => exact (or_iff_left fun h => h).symm
  | ignored op incoming hmain hno => exact (or_iff_left fun h => hno h.1 h.2).symm
  | lost op incoming hmain hno => exact (or_iff_left fun h => hno h.2).symm
  | wedged op incoming hmain hop hyes => exact iff_of_true rfl (.inr ⟨hop, hyes⟩)
  | joined op incoming c dev hmain hlock hno hbuilt =>
    exact iff_of_false (by simp [hbuilt.free]) (by simp [hlock, Server.Vanishes, hno])
  | rephased _ j c ph ph' main hj he hph hmain hstay =>
    cases e with
    | connection op incoming => exact absurd rfl (he op incoming)
    | sample | receive | send => exact (or_iff_left fun h => h).symm
  | opened op j c earlier m dev hj hlock hop hst hcounters hfree =>
    exact iff_of_false (by simp [Server.withSession, hfree]) (by simp [hlock, Server.Vanishes])
  | closed op j c last m dev hj hlock hop hst hcounters hfree =>
    exact iff_of_false (by simp [Server.withSession, hfree]) (by simp [hlock, Server.Vanishes])
  | departed m j c ph dev hj hlock hleaves hph hcounters hfree =>
    exact iff_of_false (by simp [Server.withSession, hfree]) (by simp [hlock, Server.Vanishes])

structure Server.SameBooks (s u : Server V) : Prop where
  main : u.main = s.main
  counters : u.dev.counters = s.dev.counters
  sessions : u.sessions.map Session.counter = s.sessions.map Session.counter
  lines : ∀ l : ℕ, u.dev.lines[l]?.map (fun ln => (ln.enabled, ln.active)) =
    s.dev.lines[l]?.map fun ln => (ln.enabled, ln.active)

private theorem map_counter_set {k : ℕ} {ss ss' : Session V} (hk : s.sessions[k]? = some ss)
    (h : ss'.counter = ss.counter) :
    (s.sessions.set k ss').map Session.counter = s.sessions.map Session.counter := by
  obtain ⟨hlt, rfl⟩ := List.getElem?_eq_some_iff.mp hk
  refine List.ext_getElem (by simp) fun j hj _ => ?_
  rw [List.getElem_map, List.getElem_map, List.getElem_set]
  split_ifs with hjk
  · subst hjk
    exact h
  · rfl

theorem Change.sameBooks (hw : s.WellFormed) (hlock : s.dev.counterLock = true)
    (h : Change s e u) : s.SameBooks u := by
  have hended := hw.lock hlock
  cases h with
  | sampled x =>
    refine ⟨rfl, rfl, rfl, fun l => ?_⟩
    rw [(s.dev.lineAppendData_mapped x).lines, Option.map_map]
    congr 1
    funext ln
    simp
  | ignored => exact ⟨rfl, rfl, rfl, fun _ => rfl⟩
  | lost op incoming hmain => simp [hended] at hmain
  | wedged op incoming hmain => simp [hended] at hmain
  | joined op incoming c dev hmain => simp [hended] at hmain
  | rephased _ j c ph ph' main hj he hph hmain hstay =>
    rcases hmain with ⟨rfl, -⟩ | hmade
    · exact ⟨rfl, rfl, map_counter_set hj rfl, fun _ => rfl⟩
    · exact absurd hmade (hw.not_created (by simp [hended]) hj)
  | opened op j c earlier m dev hj hfree => simp [hlock] at hfree
  | closed op j c last m dev hj hfree => simp [hlock] at hfree
  | departed m j c ph dev hj hfree => simp [hlock] at hfree
  | gone j ok c r hj => exact ⟨rfl, rfl, map_counter_set hj rfl, fun _ => rfl⟩

end steps

namespace Server

variable [Zero V] [Add V] {name : Name} {maxFrequency : ℤ} {nLines : ℕ} {es : List (Event V)}

theorem exec_wellFormed (hw : s.WellFormed) (h : Trace.exec next s es = .done u) :
    u.WellFormed :=
  Trace.exec_invariant next (fun _ t => t.WellFormed) hw
    (fun _ _ _ _ _ ht hn => (next_change ht hn).wellFormed ht) h

theorem running_iff (h : Trace.exec next (configured name maxFrequency nLines) es = .done s)
    (k : ℕ) :
    (∀ ss, s.sessions[k]? = some ss → (ss.running = true ↔
      Trace.AlwaysStep next (configured name maxFrequency nLines) es
        fun t e => ¬ (t.dev.counterLock = false ∧ e.Leaves k))) ∧
    (s.sessions.length ≤ k → Trace.AlwaysStep next (configured name maxFrequency nLines) es
      fun t e => ¬ (t.dev.counterLock = false ∧ e.Leaves k)) := by
  refine Trace.exec_invariant next (fun es t => (∀ ss, t.sessions[k]? = some ss →
    (ss.running = true ↔ Trace.AlwaysStep next (configured name maxFrequency nLines) es
      fun t e => ¬ (t.dev.counterLock = false ∧ e.Leaves k))) ∧
    (t.sessions.length ≤ k → Trace.AlwaysStep next (configured name maxFrequency nLines) es
      fun t e => ¬ (t.dev.counterLock = false ∧ e.Leaves k))) ?_ ?_ h
  · exact ⟨fun ss hss => by simp [configured] at hss, fun _ => Trace.alwaysStep_nil next _ _⟩
  · intro pre t e u ht ih hn
    have hw := exec_wellFormed (configured_wellFormed name maxFrequency nLines) ht
    have hchange := next_change hw hn
    rw [Trace.alwaysStep_snoc next ht]
    refine ⟨fun ss' hss' => ?_, fun hlen => ?_⟩
    · rcases hchange.running hss' with ⟨ss, hss, hiff⟩ | ⟨hstay, rfl, hrun⟩
      · rw [hiff, ih.1 ss hss]
      · exact iff_of_true hrun ⟨ih.2 le_rfl, fun h => hstay h.2⟩
    · refine ⟨ih.2 (hchange.length_le.trans hlen), fun h => ?_⟩
      have hlt := hchange.leaves_lt h.1 h.2
      have hle := hchange.length_le
      omega

/-- The lock is left behind by a client that vanishes from the construction of its counter, and
in no other way. -/
theorem lock_free_iff (h : Trace.exec next (configured name maxFrequency nLines) es = .done s) :
    s.dev.counterLock = false ↔ Trace.AlwaysStep next (configured name maxFrequency nLines) es
      fun t e => ¬ t.Vanishes e := by
  refine Trace.exec_invariant next (fun es t => t.dev.counterLock = false ↔
    Trace.AlwaysStep next (configured name maxFrequency nLines) es fun t e => ¬ t.Vanishes e)
    ?_ ?_ h
  · exact iff_of_true rfl (Trace.alwaysStep_nil next _ _)
  · intro pre t e u ht ih hn
    have hw := exec_wellFormed (configured_wellFormed name maxFrequency nLines) ht
    rw [Trace.alwaysStep_snoc next ht, ← ih, ← Bool.not_eq_true, (next_change hw hn).lock,
      not_or, Bool.not_eq_true]

/-- A counter is in the books of its device until its client leaves, if the lock is free then.
Nothing else takes it out: not the end of its thread, nor an error in a message or a reply. The
lock is free unless a client has vanished from the construction of its counter. -/
theorem books_leaked (h : Trace.exec next (configured name maxFrequency nLines) es = .done s) :
    (∀ (k : ℕ) (ss : Session V), s.sessions[k]? = some ss →
      (ss.running = true ↔ Trace.AlwaysStep next (configured name maxFrequency nLines) es
        fun t e => ¬ (t.dev.counterLock = false ∧ e.Leaves k)) ∧
      (k ∈ s.dev.counters ↔ ss.running = true)) ∧
    (∀ (l : ℕ) (ln : Line V), s.dev.lines[l]? = some ln →
      ln.enabled = s.sessions.countP (fun ss => ss.running && l ∈ ss.counter.lines) ∧
      ln.active = s.sessions.countP (fun ss =>
        ss.running && ss.counter.status = .active && l ∈ ss.counter.lines) ∧
      (ln.enabled = 0 → ln.powerData.samples = [])) ∧
    (s.dev.counterLock = true ↔ ∃ pre e t, pre ++ [e] <+: es ∧
      Trace.exec next (configured name maxFrequency nLines) pre = .done t ∧ t.Vanishes e) := by
  have hw := exec_wellFormed (configured_wellFormed name maxFrequency nLines) h
  refine ⟨fun k ss hk => ⟨(running_iff h k).1 ss hk, ?_⟩, fun l ln hl =>
    ⟨hw.enabled l ln hl, hw.active l ln hl, hw.empty l ln hl⟩, ?_⟩
  · rw [hw.counters]
    exact ⟨fun ⟨x, hx, hrun⟩ => by rwa [← Option.some.inj (hx.symm.trans hk)],
      fun hrun => ⟨ss, hk, hrun⟩⟩
  · rw [← Bool.not_eq_false, lock_free_iff h, Trace.AlwaysStep]
    simp only [not_forall, not_not, exists_prop, exists_and_left]

def resetWhileMeasuring : List (Event ℤ) :=
  [.connection 0 (.whole ⟨ascii "d", 0, false, [1#8]⟩), .send 0 true, .receive 0 (.op 1),
    .send 0 true, .receive 0 .reset, .sample fun _ => 7]

theorem books_leaked_reset : ∃ (s : Server ℤ) (ss : Session ℤ),
    Trace.exec next (configured (ascii "d") 1 1) resetWhileMeasuring = .done s ∧
      s.sessions[0]? = some ss ∧ ss.phase = .dead ∧ ss.counter.status = .active ∧
      0 ∈ s.dev.counters := by
  have hrun : (Trace.exec next (configured (ascii "d") 1 1) resetWhileMeasuring).check
      (fun s => s.sessions[0]?.any fun ss =>
        ss.running && ss.phase = .dead && ss.counter.status = .active) = true := by
    decide +kernel
  obtain ⟨s, h, hs⟩ := Outcome.check_eq_true.mp hrun
  obtain ⟨ss, hss, hall⟩ := (Option.any_eq_true _ _).mp hs
  simp only [Bool.and_eq_true, decide_eq_true_eq] at hall
  exact ⟨s, ss, h, hss, hall.1.2, hall.2, ((books_leaked h).1 0 ss hss).2.mpr hall.1.1⟩

theorem exec_sameBooks (hw : s.WellFormed) (hlock : s.dev.counterLock = true)
    (h : Trace.exec next s es = .done u) : s.SameBooks u := by
  have hboth : s.SameBooks u ∧ u.dev.counterLock = true := by
    refine Trace.exec_invariant next (fun _ t => s.SameBooks t ∧ t.dev.counterLock = true)
      ⟨⟨rfl, rfl, rfl, fun _ => rfl⟩, hlock⟩ ?_ h
    rintro pre t e u ht ⟨hsame, hlocked⟩ hn
    have hwt := exec_wellFormed hw ht
    have hchange := next_change hwt hn
    have hstep := hchange.sameBooks hwt hlocked
    exact ⟨⟨hstep.main.trans hsame.main, hstep.counters.trans hsame.counters,
      hstep.sessions.trans hsame.sessions, fun l => (hstep.lines l).trans (hsame.lines l)⟩,
      hchange.lock.mpr (.inl hlocked)⟩
  exact hboth.1

/-- The lock is left behind by a client that vanishes from the construction of its counter, and
in no other way. After that, no counter is opened, closed or removed any more. -/
theorem lock_left (h : Trace.exec next (configured name maxFrequency nLines) es = .done s) :
    (s.dev.counterLock = false ↔ Trace.AlwaysStep next (configured name maxFrequency nLines) es
      fun t e => ¬ t.Vanishes e) ∧
    (s.dev.counterLock = true → ∀ es' u, Trace.exec next s es' = .done u → s.SameBooks u) :=
  ⟨lock_free_iff h, fun hlock _ _ h' => exec_sameBooks
    (exec_wellFormed (configured_wellFormed name maxFrequency nLines) h) hlock h'⟩

def vanishBeside : List (Event ℤ) :=
  [.connection 0 (.whole ⟨ascii "d", 0, false, [1#8]⟩), .send 0 true,
    .connection 0 (.closed (some (ascii "d")))]

theorem lock_left_beside : ∃ s u : Server ℤ,
    Trace.exec next (configured (ascii "d") 1 1) vanishBeside = .done s ∧
      Trace.exec next s [.receive 0 (.op 1)] = .done u ∧ s.SameBooks u := by
  have hrun : (Trace.exec next (configured (ascii "d") 1 1) vanishBeside).check
      (fun s => s.dev.counterLock && (Trace.exec next s [.receive 0 (.op 1)]).check
        fun u => u.sessions.length == 1) = true := by
    decide +kernel
  obtain ⟨s, h, hs⟩ := Outcome.check_eq_true.mp hrun
  rw [Bool.and_eq_true] at hs
  obtain ⟨u, hu, -⟩ := Outcome.check_eq_true.mp hs.2
  exact ⟨s, u, h, hu, (lock_left h).2 hs.1 _ u hu⟩

end Server

end PMLib.Legacy
