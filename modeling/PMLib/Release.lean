import PMLib.Accounting

/-! # What ended sessions leave behind

A handler that returns has to give back the activity and the registration of its counter.
Whether it does is decided by the send it returns with. -/
namespace PMLib

open RefCount

variable {V : Type}

namespace Session

def records (ss : Session V) (l : ℕ) : Bool := ss.phase.live && ss.activates l

def keeps (ss : Session V) (l : ℕ) : Bool :=
  ss.phase.live && (ss.counter.registered && l ∈ ss.counter.lines)

end Session

namespace Server

def ActiveExact (s : Server V) : Prop :=
  ∀ (l : ℕ) (ln : Line V), s.dev.lines[l]? = some ln →
    ln.active = holders Session.records s.sessions l

def Unselected (s : Server V) (l : ℕ) : Prop :=
  ∀ ss ∈ s.sessions, ss.phase.live = true → l ∉ ss.counter.lines

/-- A line that no live counter selects is inactive, with an empty buffer. -/
def Quiet (s : Server V) : Prop :=
  ∀ (l : ℕ) (ln : Line V), s.dev.lines[l]? = some ln → s.Unselected l →
    ln.active = 0 ∧ ln.data = []

/-- A handler returns only with a counter that is not ACTIVE on any line. -/
def KeepsActive (s : Server V) (e : Event V) : Prop :=
  ∀ k ok c, e = .send k ok → s.Ends k ok c → ∀ l, c.activates l = false

/-- When the last live counter on a line with data goes, its error reply is not the send
that failed, and no earlier counter on that line went in that way. -/
def KeepsQuiet (s : Server V) (e : Event V) : Prop :=
  ∀ k ok c, e = .send k ok → s.Ends k ok c → ∀ l ∈ c.lines,
    (∀ (j : ℕ) (ss : Session V), j ≠ k → s.sessions[j]? = some ss → ss.phase.live = true →
      l ∉ ss.counter.lines) →
    (∃ ln, s.dev.lines[l]? = some ln ∧ ln.data = []) ∨
      ok = true ∧ ∀ ss ∈ s.sessions, ss.phase = .escaped → l ∉ ss.counter.lines

/-- Enable counts are those of live registered counters, and the device has no entry for a
counter whose handler has returned. -/
structure Released (s : Server V) : Prop where
  entries : ∀ ss ∈ s.sessions, ss.phase.live = false → ss.counter.id ∉ s.dev.counterMap
  enabled : ∀ (l : ℕ) (ln : Line V), s.dev.lines[l]? = some ln →
    ln.enabled = holders Session.keeps s.sessions l

/-- A handler that returns clears the buffers of its lines that no live registered counter
has any more. -/
def Clears [Zero V] [Add V] (s : Server V) (e : Event V) : Prop :=
  ∀ k ok c u, e = .send k ok → s.Ends k ok c → s.next e = .done u → ∀ l ∈ c.lines,
    (∀ ss ∈ u.sessions, ss.keeps l = false) →
    ∃ ln, u.dev.lines[l]? = some ln ∧ ln.data = []

/-- The error reply of a catch block does not fail once the counter is registered. -/
def Replied (s : Server V) (e : Event V) : Prop :=
  ∀ k c, e = .send k false → s.sessions[k]? = some ⟨c, .catching⟩ → c.registered = false

variable {s u : Server V}

theorem Initial.released (hi : s.Initial) : s.Released where
  entries ss hss := by simp [hi.sessions] at hss
  enabled l ln hl := by
    rw [hi.fresh l ln hl, hi.sessions]
    rfl

theorem Initial.activeExact (hi : s.Initial) : s.ActiveExact := by
  intro l ln hl
  rw [hi.fresh l ln hl, hi.sessions]
  rfl

theorem Initial.quiet (hi : s.Initial) : s.Quiet := by
  intro l ln hl _
  rw [hi.fresh l ln hl]
  exact ⟨rfl, rfl⟩

theorem WellFormed.activeExact_iff (hw : s.WellFormed) :
    s.ActiveExact ↔ ∀ (k : ℕ) (ss : Session V), s.sessions[k]? = some ss →
      ss.phase.live = false → ∀ l, ss.activates l = false := by
  have hsplit : ∀ l, holders Session.activates s.sessions l =
      holders Session.records s.sessions l +
        holders (fun ss l => !ss.phase.live && ss.activates l) s.sessions l :=
    fun l => holders_split fun ss : Session V => ss.phase.live
  constructor
  · intro h k ss hk hlive l
    by_contra hact
    have hmem : l ∈ ss.counter.lines := by
      simp only [Session.activates, Counter.activates, Bool.not_eq_false, Bool.and_eq_true,
        decide_eq_true_eq] at hact
      exact hact.2
    obtain ⟨ln, hl⟩ := hw.has hk l hmem
    have hpos : 0 < holders (fun ss l => !ss.phase.live && ss.activates l) s.sessions l :=
      holders_pos hk (by simpa [hlive] using hact)
    have h₁ := hw.active l ln hl
    have h₂ := h l ln hl
    have h₃ := hsplit l
    omega
  · intro h l ln hl
    have hzero : holders (fun ss l => !ss.phase.live && ss.activates l) s.sessions l = 0 := by
      rw [holders_eq_zero]
      intro ss hss
      obtain ⟨k, hk⟩ := List.getElem?_of_mem hss
      cases hlive : ss.phase.live with
      | true => simp
      | false => simpa using h k ss hk hlive l
    rw [hw.active l ln hl, hsplit, hzero, Nat.add_zero]

theorem WellFormed.released_iff (hw : s.WellFormed) :
    s.Released ↔ ∀ ss ∈ s.sessions, ss.phase.live = false → ss.attached = false := by
  constructor
  · intro h ss hss hlive
    obtain ⟨k, hk⟩ := List.getElem?_of_mem hss
    have hno := h.entries ss hss hlive
    rw [(hw.sessions k ss hk).id, hw.entry hk] at hno
    simpa using hno
  · intro h
    refine ⟨fun ss hss hlive => ?_, fun l ln hl => ?_⟩
    · obtain ⟨k, hk⟩ := List.getElem?_of_mem hss
      rw [(hw.sessions k ss hk).id, hw.entry hk, h ss hss hlive]
      simp
    · rw [hw.enabled l ln hl]
      refine List.countP_congr fun ss hss => ?_
      cases hlive : ss.phase.live with
      | false => simp [Session.enables, Session.keeps, hlive, h ss hss hlive]
      | true =>
        simp [Session.enables, Session.keeps, hlive,
          Session.attached_eq (Phase.ne_destroyed hlive)]

end Server

section steps

variable [Zero V] [Add V] {s u : Server V} {e : Event V}

theorem Change.activeExact (hw : s.WellFormed) (h : Change s e u) (ha : s.ActiveExact)
    (hk : s.KeepsActive e) : u.ActiveExact := by
  rw [(h.wellFormed hw).activeExact_iff]
  intro j ss hj hlive
  rcases h.ended hj hlive with hj | ⟨ok, rfl, hends⟩
  · exact hw.activeExact_iff.mp ha j ss hj hlive
  · exact hk j ok ss.counter rfl hends

theorem Change.not_activeExact (hw : s.WellFormed) (h : Change s e u)
    (hk : ¬ s.KeepsActive e) : ¬ u.ActiveExact := by
  rw [(h.wellFormed hw).activeExact_iff]
  simp only [Server.KeepsActive, not_forall] at hk
  obtain ⟨k, ok, c, rfl, hends, l, hl⟩ := hk
  intro hall
  exact hl (hall k _ (h.returns hends) (by cases ok <;> rfl) l)

private theorem unselected_cases (h : Change s e u) {l : ℕ} (hu : u.Unselected l) :
    s.Unselected l ∨ ∃ k ok c, e = .send k ok ∧ s.Ends k ok c ∧ l ∈ c.lines ∧
      ∀ (j : ℕ) (ss : Session V), j ≠ k → s.sessions[j]? = some ss →
        ss.phase.live = true → l ∉ ss.counter.lines := by
  by_cases hs : s.Unselected l
  · exact .inl hs
  simp only [Server.Unselected, not_forall, not_not] at hs
  obtain ⟨ss, hss, hlive, hl⟩ := hs
  obtain ⟨k, hk⟩ := List.getElem?_of_mem hss
  obtain ⟨ss', hu', hsame⟩ := h.kept hk
  rw [← hsame.lines] at hl
  have hph : ss'.phase.live = false := by
    by_contra hlive'
    exact hu ss' (List.mem_of_getElem? hu') (by simpa using hlive') hl
  rcases h.ended hu' hph with hk' | ⟨ok, rfl, hends⟩
  · obtain rfl := Option.some.inj (hk.symm.trans hk')
    rw [hlive] at hph
    cases hph
  · refine .inr ⟨k, ok, _, rfl, hends, hl, fun j ss' hjk hj hlive' hl' => ?_⟩
    rcases h.frame hj with hj' | ⟨hof, _⟩
    · exact hu ss' (List.mem_of_getElem? hj') hlive' hl'
    · exact hjk (by simpa [Event.Of, eq_comm] using hof)

omit [Zero V] [Add V] in
private theorem one_lt_enabled (hw : s.WellFormed) {k : ℕ} {ok : Bool} {c : Counter}
    (hends : s.Ends k ok c) {l : ℕ} {ln : Line V} (hln : s.dev.lines[l]? = some ln)
    (hl : l ∈ c.lines)
    (hothers : ∀ (j : ℕ) (ss : Session V), j ≠ k → s.sessions[j]? = some ss →
      ss.phase.live = true → l ∉ ss.counter.lines) :
    1 < ln.enabled ↔ ∃ ss ∈ s.sessions, ss.phase = .escaped ∧ l ∈ ss.counter.lines := by
  obtain ⟨ph, hk, hlive⟩ := hends.live
  have hatt : ∀ {j : ℕ} {ss : Session V}, s.sessions[j]? = some ss → l ∈ ss.counter.lines →
      ss.phase ≠ .destroyed → ss.enables l = true := by
    intro j ss hj hmem hd
    simp [Session.enables, Session.attached_eq hd, hw.registered_of_mem hj hmem, hmem]
  rw [hw.enabled l ln hln, one_lt_holders hk (hatt hk hl (Phase.ne_destroyed hlive))]
  constructor
  · rintro ⟨j, ss, hjk, hj, hen⟩
    simp only [Session.enables, Bool.and_eq_true, decide_eq_true_eq] at hen
    refine ⟨ss, List.mem_of_getElem? hj, ?_, hen.2⟩
    cases hph : ss.phase with
    | escaped => rfl
    | destroyed => simp [Session.attached, hph] at hen
    | _ => exact absurd hen.2 (hothers j ss hjk hj (by simp [hph, Phase.live]))
  · rintro ⟨ss, hss, hph, hmem⟩
    obtain ⟨j, hj⟩ := List.getElem?_of_mem hss
    refine ⟨j, ss, ?_, hj, hatt hj hmem (by simp [hph])⟩
    rintro rfl
    obtain rfl := Option.some.inj (hk.symm.trans hj)
    simp only at hph
    simp [hph, Phase.live] at hlive

theorem Change.quiet (hw : s.WellFormed) (h : Change s e u) (hq : s.Quiet)
    (ha : u.ActiveExact) (hk : s.KeepsQuiet e) : u.Quiet := by
  intro l ln' hln' hu
  have hact : ln'.active = 0 := by
    rw [ha l ln' hln', holders_eq_zero]
    intro ss hss
    cases hlive : ss.phase.live with
    | false => simp [Session.records, hlive]
    | true => simp [Session.records, Session.activates, Counter.activates, hu ss hss hlive]
  refine ⟨hact, ?_⟩
  obtain ⟨ln, hln, hcases⟩ := h.line hln'
  have hkept : ln.active = 0 ∧ ln.data = [] → ln'.data = [] := by
    rintro ⟨h₀, hd⟩
    rcases hcases with ⟨x, _, rfl⟩ | ⟨_, rfl⟩ | ⟨_, _, hsame⟩
    · rw [Line.consume_data, if_neg (by omega), hd]
    · rw [Line.release_data, hd, ite_self]
    · rw [hsame, hd]
  rcases unselected_cases h hu with hs | ⟨k, ok, c, rfl, hends, hl, hothers⟩
  · exact hkept (hq l ln hln hs)
  · rcases hk k ok c rfl hends l hl hothers with ⟨ln₀, hln₀, hd⟩ | ⟨rfl, hesc⟩
    · obtain rfl := Option.some.inj (hln.symm.trans hln₀)
      rcases hcases with ⟨x, hx, _⟩ | ⟨_, rfl⟩ | ⟨_, _, hsame⟩
      · cases hx
      · rw [Line.release_data, hd, ite_self]
      · rw [hsame, hd]
    · have hone : ¬ 1 < ln.enabled := by
        rw [one_lt_enabled hw hends hln hl hothers]
        rintro ⟨ss, hss, hph, hmem⟩
        exact hesc ss hss hph hmem
      obtain ⟨ph, hk', _⟩ := hends.live
      rcases hcases with ⟨x, hx, _⟩ | ⟨_, rfl⟩ | ⟨_, hno, _⟩
      · cases hx
      · rw [Line.release_data, if_neg hone]
      · exact absurd ⟨k, c, rfl, hends, hl, hw.registered_of_mem hk' hl⟩ hno

theorem Change.not_quiet (hw : s.WellFormed) (h : Change s e u) (hk : ¬ s.KeepsQuiet e) :
    ¬ u.Quiet := by
  simp only [Server.KeepsQuiet, not_forall, not_or] at hk
  obtain ⟨k, ok, c, rfl, hends, l, hl, hothers, hdata, hesc⟩ := hk
  obtain ⟨ph, hk', _⟩ := hends.live
  have hret := h.returns hends
  have hu : u.Unselected l := by
    intro ss hss hlive hmem
    obtain ⟨j, hj⟩ := List.getElem?_of_mem hss
    by_cases hjk : j = k
    · subst hjk
      obtain rfl := Option.some.inj (hret.symm.trans hj)
      cases ok <;> simp [Phase.live] at hlive
    · rcases h.origin hj with ⟨ss₀, h₀⟩ | ⟨⟨op, req, hop⟩, _⟩
      · have hof : ¬ (Event.send k ok : Event V).Of j := fun hof => hjk hof.symm
        have hsame := (h.frame h₀).resolve_right fun hof' => hof hof'.1
        obtain rfl := Option.some.inj (hj.symm.trans hsame)
        exact hothers j ss hjk h₀ hlive hmem
      · cases hop
  obtain ⟨ln', hln'⟩ := (h.wellFormed hw).has hret l hl
  obtain ⟨ln, hln, hcases⟩ := h.line hln'
  have hne : ln.data ≠ [] := fun hd => hdata ⟨ln, hln, hd⟩
  intro hq
  have hempty := (hq l ln' hln' hu).2
  rcases hcases with ⟨x, hx, _⟩ | ⟨⟨k', c', he, _⟩, rfl⟩ | ⟨_, _, hsame⟩
  · cases hx
  · obtain ⟨_, rfl⟩ := Event.send.inj he
    have hone : 1 < ln.enabled := by
      rw [one_lt_enabled hw hends hln hl hothers]
      by_contra hno
      exact hesc ⟨rfl, fun ss hss hph hmem => hno ⟨ss, hss, hph, hmem⟩⟩
    rw [Line.release_data, if_pos hone] at hempty
    exact hne hempty
  · exact hne (hsame ▸ hempty)

theorem Change.released (hw : s.WellFormed) (h : Change s e u) (hr : s.Released)
    (hk : s.Replied e) : u.Released := by
  rw [(h.wellFormed hw).released_iff]
  intro ss hss hlive
  obtain ⟨j, hj⟩ := List.getElem?_of_mem hss
  rcases h.ended hj hlive with hj' | ⟨ok, rfl, hends⟩
  · exact hw.released_iff.mp hr ss (List.mem_of_getElem? hj') hlive
  · rw [Option.some.inj (hj.symm.trans (h.returns hends))]
    cases ok with
    | true => simp [Session.attached]
    | false =>
      rcases hends with hc | ⟨hok, _⟩
      · simpa [Session.attached] using hk j ss.counter rfl hc
      · cases hok

theorem Change.not_released (hw : s.WellFormed) (h : Change s e u) (hk : ¬ s.Replied e) :
    ¬ u.Released := by
  rw [(h.wellFormed hw).released_iff]
  simp only [Server.Replied, not_forall] at hk
  obtain ⟨k, c, rfl, hc, hreg⟩ := hk
  intro hall
  have hret := h.returns (.inl hc)
  have := hall _ (List.mem_of_getElem? hret) rfl
  simp [Session.attached] at this
  exact hreg this

theorem Server.WellFormed.clears (hw : s.WellFormed) (hr : ∀ u, s.next e = .done u → u.Released) :
    s.Clears e := by
  rintro k ok c u rfl hends hn l hl hnone
  have h := next_change hw hn
  have hw' := h.wellFormed hw
  obtain ⟨ph, hk, _⟩ := hends.live
  have hreg := hw.registered_of_mem hk hl
  have hret := h.returns hends
  obtain ⟨ln', hln'⟩ := hw'.has hret l hl
  refine ⟨ln', hln', ?_⟩
  have hzero : ln'.enabled = 0 := by
    rw [(hr u hn).enabled l ln' hln', holders_eq_zero]
    exact hnone
  obtain ⟨ln, hln, ⟨x, hx, _⟩ | ⟨_, rfl⟩ | ⟨_, hno, _⟩⟩ := h.line hln'
  · cases hx
  · rw [Line.release_enabled] at hzero
    rw [Line.release_data, if_neg (by omega)]
  · cases ok with
    | true => exact absurd ⟨k, c, rfl, hends, hl, hreg⟩ hno
    | false =>
      have := hw'.released_iff.mp (hr u hn) _ (List.mem_of_getElem? hret) rfl
      simp only [Session.attached, Bool.and_eq_false_iff] at this
      simp_all

end steps

section runs

variable [Zero V] [Add V]

/-- Activity counts are exact, and lines without a live counter quiet, in every state of a
run exactly when every handler of the run returns in order. -/
theorem Run.active_exact_iff (ρ : Run V) :
    ρ.Always (fun s => s.ActiveExact ∧ s.Quiet) ↔
      ρ.AlwaysStep fun s e => s.KeepsActive e ∧ s.KeepsQuiet e := by
  refine Trace.always_iff_alwaysStep Server.next ρ.exec ρ.wellFormed
    ⟨ρ.initial.activeExact, ρ.initial.quiet⟩ ?_ ?_
  · rintro s e u hw ⟨ha, hq⟩ ⟨hka, hkq⟩ hn
    have h := next_change hw hn
    have ha' := h.activeExact hw ha hka
    exact ⟨ha', h.quiet hw hq ha' hkq⟩
  · rintro s e u hw _ hno hn ⟨ha, hq⟩
    have h := next_change hw hn
    by_cases hka : s.KeepsActive e
    · exact h.not_quiet hw (fun hkq => hno ⟨hka, hkq⟩) hq
    · exact h.not_activeExact hw hka ha

def startThenLost : List (Event ℤ) :=
  [.connection 0 (some ⟨[], 0, false, [1#8]⟩), .send 0 true, .receive 0 (some 1), .send 0 true,
    .receive 0 none, .send 0 true, .sample fun _ => 7]

theorem active_exact_fails : ∃ ρ : Run ℤ, ρ.start = .configured [] 1 1 ∧
    ρ.events = startThenLost ∧ ¬ ρ.Always (fun s => s.ActiveExact ∧ s.Quiet) := by
  have hrun : (Trace.exec Server.next (.configured [] 1 1) startThenLost).check (fun s =>
      s.dev.lines[0]?.map Line.active == some 1 && holders Session.records s.sessions 0 == 0) =
      true := by decide +kernel
  obtain ⟨t, ht, hp⟩ := Outcome.check_eq_true.mp hrun
  refine ⟨⟨_, _, t, Server.configured_initial [] 1 1, ht⟩, rfl, rfl, fun h => ?_⟩
  obtain ⟨hexact, _⟩ := h startThenLost (List.prefix_refl _) t ht
  simp only [Bool.and_eq_true, beq_iff_eq, Option.map_eq_some_iff] at hp
  obtain ⟨⟨ln, hln, hact⟩, hzero⟩ := hp
  have := hexact 0 ln hln
  omega

/-- Registration is undone behind every handler of a run exactly when no error reply of a
registered counter fails. -/
theorem Run.registration_undone_iff (ρ : Run V) :
    ρ.Always Server.Released ∧ ρ.AlwaysStep Server.Clears ↔ ρ.AlwaysStep Server.Replied := by
  have hiff : ρ.Always Server.Released ↔ ρ.AlwaysStep Server.Replied := by
    refine Trace.always_iff_alwaysStep Server.next ρ.exec ρ.wellFormed ρ.initial.released
      ?_ ?_
    · exact fun s e u hw hr hk hn => (next_change hw hn).released hw hr hk
    · exact fun s e u hw _ hk hn => (next_change hw hn).not_released hw hk
  refine ⟨fun h => hiff.mp h.1, fun h => ⟨hiff.mpr h, fun pre e hp t ht => ?_⟩⟩
  have hw := ρ.wellFormed pre ((List.prefix_append pre [e]).trans hp) t ht
  exact hw.clears fun u hn => hiff.mpr h _ hp u ((Trace.exec_snoc Server.next).mpr ⟨t, ht, hn⟩)

def createThenLost : List (Event ℤ) :=
  [.connection 0 (some ⟨[], 0, false, [1#8]⟩), .send 0 true, .receive 0 none, .send 0 false]

theorem registration_undone_fails : ∃ ρ : Run ℤ, ρ.start = .configured [] 1 1 ∧
    ρ.events = createThenLost ∧ ¬ ρ.Always Server.Released := by
  have hrun : (Trace.exec Server.next (.configured [] 1 1) createThenLost).check (fun s =>
      s.sessions.any fun ss => !ss.phase.live && s.dev.counterMap.contains ss.counter.id) =
      true := by decide +kernel
  obtain ⟨t, ht, hp⟩ := Outcome.check_eq_true.mp hrun
  refine ⟨⟨_, _, t, Server.configured_initial [] 1 1, ht⟩, rfl, rfl, fun h => ?_⟩
  have hrel := h createThenLost (List.prefix_refl _) t ht
  simp only [List.any_eq_true, Bool.and_eq_true, Bool.not_eq_true'] at hp
  obtain ⟨ss, hss, hlive, hmem⟩ := hp
  exact hrel.entries ss hss hlive hmem

end runs

end PMLib
