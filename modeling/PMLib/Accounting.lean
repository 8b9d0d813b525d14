import PMLib.Sessions

/-! # Reference counts over whole runs

Every event keeps the server well formed. The counts it keeps are over all sessions, so a
count is off by what ended sessions never gave back, and by nothing else. -/
namespace PMLib

open RefCount

variable {V : Type}

namespace Server

theorem WellFormed.update {s : Server V} (hw : s.WellFormed) {k : ℕ} {ss ss' : Session V}
    {dev : Device V} {g : ℕ → Line V → Line V} (hk : s.sessions[k]? = some ss)
    (hm : Device.Mapped s.dev dev g) (hok : Session.Ok s.dev.nLines k ss')
    (hmap : ∀ i : ℕ, i ∈ dev.counterMap ↔
      if i = k + 1 then ss'.attached = true else i ∈ s.dev.counterMap)
    (he : ∀ l ln, s.dev.lines[l]? = some ln →
      (g l ln).enabled + (ss.enables l).toNat = ln.enabled + (ss'.enables l).toNat)
    (ha : ∀ l ln, s.dev.lines[l]? = some ln →
      (g l ln).active + (ss.activates l).toNat = ln.active + (ss'.activates l).toNat)
    (hd : ∀ l ln, s.dev.lines[l]? = some ln → (g l ln).enabled = 0 → (g l ln).active = 0 →
      (g l ln).data = []) :
    WellFormed ⟨dev, s.sessions.set k ss'⟩ where
  complete := hm.complete hw.complete
  sessions j x hj := by
    rw [hm.nLines]
    rcases getElem?_set_cases hj with ⟨rfl, rfl⟩ | ⟨_, hj⟩
    · exact hok
    · exact hw.sessions j x hj
  counterMap i := by
    rw [hmap]
    split_ifs with hi
    · constructor
      · intro h
        refine ⟨k, ss', hi, ?_, h⟩
        simp [List.getElem?_set_self', hk]
      · rintro ⟨j, x, hj, hx, h⟩
        obtain rfl : j = k := by omega
        rcases getElem?_set_cases hx with ⟨_, rfl⟩ | ⟨hne, _⟩
        · exact h
        · exact absurd rfl hne
    · rw [hw.counterMap]
      constructor
      · rintro ⟨j, x, hj, hx, h⟩
        exact ⟨j, x, hj, by rwa [List.getElem?_set_ne (by omega)], h⟩
      · rintro ⟨j, x, hj, hx, h⟩
        exact ⟨j, x, hj, by rwa [List.getElem?_set_ne (by omega)] at hx, h⟩
  enabled l ln hl := by
    obtain ⟨ln₀, h₀, rfl⟩ := hm.line hl
    have hset := holders_set Session.enables l hk ss'
    have := hw.enabled l ln₀ h₀
    have := he l ln₀ h₀
    change (g l ln₀).enabled = holders Session.enables (s.sessions.set k ss') l
    omega
  active l ln hl := by
    obtain ⟨ln₀, h₀, rfl⟩ := hm.line hl
    have hset := holders_set Session.activates l hk ss'
    have := hw.active l ln₀ h₀
    have := ha l ln₀ h₀
    change (g l ln₀).active = holders Session.activates (s.sessions.set k ss') l
    omega
  empty l ln hl := by
    obtain ⟨ln₀, h₀, rfl⟩ := hm.line hl
    exact hd l ln₀ h₀

theorem WellFormed.join {s : Server V} (hw : s.WellFormed) {ss' : Session V}
    {dev : Device V} {g : ℕ → Line V → Line V} (hm : Device.Mapped s.dev dev g)
    (hok : Session.Ok s.dev.nLines s.sessions.length ss')
    (hmap : ∀ i : ℕ, i ∈ dev.counterMap ↔
      (i = s.sessions.length + 1 ∧ ss'.attached = true) ∨ i ∈ s.dev.counterMap)
    (he : ∀ l ln, (g l ln).enabled = ln.enabled + (ss'.enables l).toNat)
    (ha : ∀ l ln, (g l ln).active = ln.active) (hs : ss'.counter.status = .inactive)
    (hd : ∀ l ln, (g l ln).data = ln.data) :
    WellFormed ⟨dev, s.sessions ++ [ss']⟩ where
  complete := hm.complete hw.complete
  sessions j x hj := by
    rw [hm.nLines]
    rcases getElem?_snoc_cases hj with ⟨rfl, rfl⟩ | hj
    · exact hok
    · exact hw.sessions j x hj
  counterMap i := by
    rw [hmap, hw.counterMap]
    constructor
    · rintro (⟨hi, h⟩ | ⟨j, x, hj, hx, h⟩)
      · exact ⟨_, ss', hi, by simp, h⟩
      · refine ⟨j, x, hj, ?_, h⟩
        rwa [List.getElem?_append_left (List.getElem?_eq_some_iff.mp hx).1]
    · rintro ⟨j, x, hj, hx, h⟩
      rcases getElem?_snoc_cases hx with ⟨rfl, rfl⟩ | hx
      · exact .inl ⟨hj, h⟩
      · exact .inr ⟨j, x, hj, hx, h⟩
  enabled l ln hl := by
    obtain ⟨ln₀, h₀, rfl⟩ := hm.line hl
    rw [holders_snoc, he, hw.enabled l ln₀ h₀]
  active l ln hl := by
    obtain ⟨ln₀, h₀, rfl⟩ := hm.line hl
    rw [holders_snoc, ha, hw.active l ln₀ h₀]
    simp [Session.activates, Counter.activates, hs]
  empty l ln hl := by
    obtain ⟨ln₀, h₀, rfl⟩ := hm.line hl
    intro h₁ h₂
    rw [hd]
    exact hw.empty l ln₀ h₀ (by have := he l ln₀; omega) (by rw [← ha l ln₀, h₂])

theorem Initial.wellFormed {s : Server V} (hi : s.Initial) : s.WellFormed where
  complete := hi.complete
  sessions k ss hk := by simp [hi.sessions] at hk
  counterMap i := by simp [hi.sessions, hi.counterMap]
  enabled l ln hl := by rw [hi.fresh l ln hl, hi.sessions]; rfl
  active l ln hl := by rw [hi.fresh l ln hl, hi.sessions]; rfl
  empty l ln hl _ _ := by rw [hi.fresh l ln hl]; rfl

end Server

section steps

variable {s u : Server V}

theorem Server.WellFormed.entry (hw : s.WellFormed) {k : ℕ} {ss : Session V}
    (hk : s.sessions[k]? = some ss) : k + 1 ∈ s.dev.counterMap ↔ ss.attached = true := by
  rw [hw.counterMap]
  constructor
  · rintro ⟨j, x, hj, hx, h⟩
    obtain rfl : k = j := by omega
    rw [hk] at hx
    obtain rfl := Option.some.inj hx
    exact h
  · exact fun h => ⟨k, ss, rfl, hk, h⟩

/-- While the destructor has not run, changes of a session that keep its lines and its
registration leave the device's entries as they are. -/
private theorem entries_kept (hw : s.WellFormed) {k : ℕ} {ss ss' : Session V}
    (hk : s.sessions[k]? = some ss) (h : ss'.attached = ss.attached) (i : ℕ) :
    i ∈ s.dev.counterMap ↔ if i = k + 1 then ss'.attached = true else i ∈ s.dev.counterMap := by
  split_ifs with hi
  · rw [hi, h, hw.entry hk]
  · rfl

private theorem rephase_wellFormed (hw : s.WellFormed) {k : ℕ} {c : Counter}
    {ph ph' : Phase V} (hk : s.sessions[k]? = some ⟨c, ph⟩)
    (hatt : (⟨c, ph'⟩ : Session V).attached = (⟨c, ph⟩ : Session V).attached)
    (hreg : ∀ r, ph' = .serving ∨ ph' = .replying r → c.registered = true)
    (hrun : ph' = .serving → c.running = true) : (s.setSession k ⟨c, ph'⟩).WellFormed := by
  have hok := hw.sessions k _ hk
  refine hw.update hk (.refl _)
    ⟨hok.id, hok.sorted, hok.lines_lt, hok.unregistered, hreg, hrun, hok.finalized⟩
    (entries_kept hw hk hatt) (fun l ln _ => ?_) (fun l ln _ => rfl) hw.empty
  simp [Session.enables, hatt]

section change

variable [Zero V] [Add V]

/-- Every event keeps the server well formed. -/
theorem Change.wellFormed {e : Event V} (hw : s.WellFormed) (h : Change s e u) :
    u.WellFormed := by
  cases h with
  | sampled x =>
    have hm := Device.pushBackData_mapped s.dev x
    refine ⟨hm.complete hw.complete, hw.sessions, hw.counterMap, ?_, ?_, ?_⟩
    · intro l ln hl
      obtain ⟨ln₀, h₀, rfl⟩ := hm.line hl
      simpa using hw.enabled l ln₀ h₀
    · intro l ln hl
      obtain ⟨ln₀, h₀, rfl⟩ := hm.line hl
      simpa using hw.active l ln₀ h₀
    · intro l ln hl
      obtain ⟨ln₀, h₀, rfl⟩ := hm.line hl
      intro h₁ h₂
      rw [Line.consume_enabled] at h₁
      rw [Line.consume_active] at h₂
      rw [Line.consume_data, if_neg (by omega), hw.empty l ln₀ h₀ h₁ h₂]
  | ignored op req => exact hw
  | rejected op req =>
    refine hw.join (.refl _) ⟨rfl, .nil, by simp [Counter.unregistered], fun _ => rfl, ?_, ?_, ?_⟩
      (fun i => ?_) (fun l ln => ?_) (fun l ln => rfl) rfl (fun l ln => rfl)
    · simp
    · simp
    · simp [Counter.unregistered]
    · simp [Session.attached, Counter.unregistered]
    · simp [Session.enables, Counter.unregistered]
  | registered op req c dev hc hf hs hlt hmap hm =>
    have hreg : c.registered = true := congrArg Counter.registered hc
    have hst : c.status = .inactive := congrArg Counter.status hc
    have hatt : (⟨c, .replying (.retval .success)⟩ : Session V).attached = true := by
      simp [Session.attached, hreg]
    refine hw.join hm ⟨congrArg Counter.id hc, hs, hlt, by simp [hreg], fun _ _ => hreg,
      by simp, fun _ => hst⟩ (fun i => ?_) (fun l ln => ?_) (fun l ln => ?_) hst
      (fun l ln => ?_)
    · rw [hmap, hatt]
      simp
    · by_cases hl : l ∈ c.lines <;> simp [Session.enables, hatt, hl]
    · split_ifs <;> rfl
    · split_ifs <;> rfl
  | rephased _ k c ph ph' hk hl hp _ _ hreg hrun _ _ _ =>
    refine rephase_wellFormed hw hk ?_ hreg hrun
    have hd : ph' ≠ .destroyed := by rintro rfl; exact hp
    rw [Session.attached_eq hd, Session.attached_eq (Phase.ne_destroyed hl)]
  | answered _ k c r hk _ _ _ =>
    have hreg := (hw.sessions k _ hk).live_registered (.data r) (.inl rfl)
    exact rephase_wellFormed hw hk rfl (fun _ _ => hreg) (by simp)
  | finalized _ k c hk _ hst =>
    have hok := hw.sessions k _ hk
    have hreg : c.registered = true := hok.live_registered (.retval .success) (.inl rfl)
    exact hw.update hk (.refl _) ⟨hok.id, hok.sorted, hok.lines_lt, by simp [hreg],
      fun _ _ => hreg, by simp, fun _ => hst⟩ (entries_kept hw hk rfl) (fun l ln _ => rfl)
      (fun l ln _ => rfl) hw.empty
  | opened _ k c dev sizes earlier hk hst _ hmap hm _ =>
    have hok := hw.sessions k _ hk
    have hreg : c.registered = true := hok.live_registered (.retval .success) (.inl rfl)
    refine hw.update hk hm ⟨hok.id, hok.sorted, hok.lines_lt, by simp [hreg],
      fun _ _ => hreg, by simp, ?_⟩ ?_ (fun l ln _ => ?_) (fun l ln _ => ?_)
      (fun l ln hln h₁ h₂ => ?_)
    · intro h
      exact absurd (hok.serving_running rfl) (by simp_all)
    · rw [hmap]
      exact entries_kept hw hk rfl
    · split_ifs <;> rfl
    · by_cases hl : l ∈ c.lines <;> simp [Session.activates, Counter.activates, hst, hl]
    · split_ifs at h₁ h₂ ⊢
      · simp at h₂
      · exact hw.empty l ln hln h₁ h₂
  | closed _ k c dev sizes last hk hst _ _ hmap hm _ =>
    have hok := hw.sessions k _ hk
    have hreg : c.registered = true := hok.live_registered (.retval .success) (.inl rfl)
    have hatt : (⟨c, .serving⟩ : Session V).attached = true := by
      simp [Session.attached, hreg]
    refine hw.update hk hm ⟨hok.id, hok.sorted, hok.lines_lt, by simp [hreg],
      fun _ _ => hreg, by simp, fun _ => rfl⟩ ?_ (fun l ln _ => ?_) (fun l ln hln => ?_)
      (fun l ln hln h₁ h₂ => ?_)
    · rw [hmap]
      exact entries_kept hw hk rfl
    · split_ifs
      · rw [Line.deactivate_enabled]; rfl
      · rfl
    · have hact := hw.active l ln hln
      by_cases hl : l ∈ c.lines
      · have hpos : 0 < holders Session.activates s.sessions l :=
          holders_pos hk (by simp [Session.activates, Counter.activates, hst, hl])
        simp [Session.activates, Counter.activates, hst, hl]
        omega
      · simp [Session.activates, Counter.activates, hl]
    · split_ifs at h₁ h₂ ⊢ with hl
      · have hpos : 0 < holders Session.enables s.sessions l :=
          holders_pos hk (by simp [Session.enables, hatt, hl])
        rw [Line.deactivate_enabled, hw.enabled l ln hln] at h₁
        omega
      · exact hw.empty l ln hln h₁ h₂
  | destroyed k c ph dev hk hlive _ hreg hmap hm =>
    have hok := hw.sessions k _ hk
    have hatt : (⟨c, ph⟩ : Session V).attached = true := by
      rw [Session.attached_eq (Phase.ne_destroyed hlive), hreg]
    refine hw.update hk hm ⟨hok.id, hok.sorted, hok.lines_lt, hok.unregistered, by simp,
      by simp, hok.finalized⟩ (fun i => ?_) (fun l ln hln => ?_) (fun l ln _ => ?_)
      (fun l ln hln h₁ h₂ => ?_)
    · rw [hmap, hok.id]
      by_cases hi : i = k + 1 <;> simp [hi, Session.attached]
    · by_cases hl : l ∈ c.lines
      · have hpos : 0 < holders Session.enables s.sessions l :=
          holders_pos hk (by simp [Session.enables, hatt, hl])
        have := hw.enabled l ln hln
        have h₀ : (⟨c, ph⟩ : Session V).enables l = true := by simp [Session.enables, hatt, hl]
        have h₁ : (⟨c, .destroyed⟩ : Session V).enables l = false := by
          simp [Session.enables, Session.attached]
        rw [if_pos hl, Line.release_enabled, h₀, h₁]
        simp only [Bool.toNat_true, Bool.toNat_false]
        omega
      · simp [Session.enables, hl]
    · split_ifs
      · rw [Line.release_active]; rfl
      · rfl
    · split_ifs at h₁ h₂ ⊢
      · rw [Line.release_enabled] at h₁
        rw [Line.release_data, if_neg (by omega)]
      · exact hw.empty l ln hln h₁ h₂
  | dropped k c hk hreg =>
    refine rephase_wellFormed hw hk ?_ (by simp) (by simp)
    simp [Session.attached, hreg]
  | escaped k c hk =>
    exact rephase_wellFormed hw hk rfl (by simp) (by simp)

theorem Change.line {e : Event V} (h : Change s e u) {l : ℕ} {ln' : Line V}
    (hl : u.dev.lines[l]? = some ln') :
    ∃ ln, s.dev.lines[l]? = some ln ∧
      ((∃ x, e = .sample x ∧ ln' = ln.consume (x l)) ∨
        (s.Releases e l ∧ ln' = ln.release) ∨
        (∀ x, e ≠ .sample x) ∧ ¬ s.Releases e l ∧ ln'.data = ln.data) := by
  have hdel : ∀ {k o}, e.Delivers k o → (∀ x, e ≠ .sample x) ∧ ¬ s.Releases e l := by
    intro k o hd
    constructor
    · rintro x rfl; exact hd
    · rintro ⟨k, c, rfl, _⟩; exact hd
  cases h with
  | sampled x =>
    obtain ⟨ln, h₀, rfl⟩ := (Device.pushBackData_mapped s.dev x).line hl
    exact ⟨ln, h₀, .inl ⟨x, rfl, rfl⟩⟩
  | ignored op req =>
    exact ⟨ln', hl, .inr (.inr ⟨by simp, by simp [Server.Releases], rfl⟩)⟩
  | rejected op req =>
    exact ⟨ln', hl, .inr (.inr ⟨by simp, by simp [Server.Releases], rfl⟩)⟩
  | registered op req c dev hc hf hs hlt hmap hm =>
    obtain ⟨ln, h₀, rfl⟩ := hm.line hl
    exact ⟨ln, h₀, .inr (.inr ⟨by simp, by simp [Server.Releases], by split_ifs <;> rfl⟩)⟩
  | rephased _ k c ph ph' hk _ _ hof hno =>
    refine ⟨ln', hl, .inr (.inr ⟨by rintro x rfl; exact hof, ?_, rfl⟩)⟩
    rintro ⟨k', c', rfl, hends, _⟩
    obtain rfl : k' = k := hof
    obtain rfl : c = c' := hends.counter_eq hk
    exact hno true rfl hends
  | answered _ k c r hk hd =>
    exact ⟨ln', hl, .inr (.inr ⟨(hdel hd).1, (hdel hd).2, rfl⟩)⟩
  | finalized _ k c hk hd =>
    exact ⟨ln', hl, .inr (.inr ⟨(hdel hd).1, (hdel hd).2, rfl⟩)⟩
  | opened _ k c dev sizes earlier hk hst hd hmap hm =>
    obtain ⟨ln, h₀, rfl⟩ := hm.line hl
    have hno := hd.elim (fun h => hdel h.1) fun h => hdel h.1
    exact ⟨ln, h₀, .inr (.inr ⟨hno.1, hno.2, by split_ifs <;> rfl⟩)⟩
  | closed _ k c dev sizes last hk hst hd _ hmap hm =>
    obtain ⟨ln, h₀, rfl⟩ := hm.line hl
    refine ⟨ln, h₀, .inr (.inr ⟨(hdel hd).1, (hdel hd).2, ?_⟩)⟩
    split_ifs
    · exact Line.deactivate_data ln
    · rfl
  | destroyed k c ph dev hk hlive hends hreg hmap hm =>
    obtain ⟨ln, h₀, rfl⟩ := hm.line hl
    refine ⟨ln, h₀, .inr ?_⟩
    split_ifs with hmem
    · exact .inl ⟨⟨k, c, rfl, hends, hmem, hreg⟩, rfl⟩
    · refine .inr ⟨by simp, ?_, rfl⟩
      rintro ⟨k', c', he, hends', hmem', _⟩
      obtain ⟨rfl, _⟩ := Event.send.inj he
      obtain rfl : c = c' := hends'.counter_eq hk
      exact hmem hmem'
  | dropped k c hk hreg =>
    refine ⟨ln', hl, .inr (.inr ⟨by simp, ?_, rfl⟩)⟩
    rintro ⟨k', c', he, hends', _, hreg'⟩
    obtain ⟨rfl, _⟩ := Event.send.inj he
    obtain rfl : c = c' := hends'.counter_eq hk
    simp [hreg] at hreg'
  | escaped k c hk =>
    exact ⟨ln', hl, .inr (.inr ⟨by simp, by simp [Server.Releases], rfl⟩)⟩

/-- An event touches no session but the one it belongs to, and that one only while it lives. -/
theorem Change.frame {e : Event V} (h : Change s e u) {j : ℕ} {ss : Session V}
    (hj : s.sessions[j]? = some ss) :
    u.sessions[j]? = some ss ∨ e.Of j ∧ ss.phase.live = true := by
  have hset : ∀ {k c ph} (ss' : Session V), s.sessions[k]? = some ⟨c, ph⟩ →
      ph.live = true → e.Of k →
      (s.sessions.set k ss')[j]? = some ss ∨ e.Of j ∧ ss.phase.live = true := by
    intro k c ph ss' hk hlive hof
    by_cases hkj : k = j
    · subst hkj
      obtain rfl := Option.some.inj (hj.symm.trans hk)
      exact .inr ⟨hof, hlive⟩
    · exact .inl ((List.getElem?_set_ne hkj).trans hj)
  have hlt := (List.getElem?_eq_some_iff.mp hj).1
  cases h with
  | sampled x => exact .inl hj
  | ignored op req => exact .inl hj
  | rejected op req => exact .inl ((List.getElem?_append_left hlt).trans hj)
  | registered op req c dev => exact .inl ((List.getElem?_append_left hlt).trans hj)
  | rephased _ k c ph ph' hk hlive _ hof => exact hset _ hk hlive hof
  | answered _ k c r hk hd => exact hset _ hk rfl (hd.of)
  | finalized _ k c hk hd => exact hset _ hk rfl hd.of
  | opened _ k c dev sizes earlier hk _ hd =>
    exact hset _ hk rfl (hd.elim (·.1.of) (·.1.of))
  | closed _ k c dev sizes last hk _ hd => exact hset _ hk rfl hd.of
  | destroyed k c ph dev hk hlive => exact hset _ hk hlive rfl
  | dropped k c hk => exact hset _ hk rfl rfl
  | escaped k c hk => exact hset _ hk rfl rfl

theorem Change.subject {e : Event V} (h : Change s e u) {k : ℕ} (hof : e.Of k) :
    ∃ ss, s.sessions[k]? = some ss ∧ ss.phase.live = true := by
  cases h with
  | sampled x => exact hof.elim
  | ignored op req => exact hof.elim
  | rejected op req => exact hof.elim
  | registered op req => exact hof.elim
  | rephased _ j c ph ph' hj hlive _ hofj => obtain rfl := hof.unique hofj; exact ⟨_, hj, hlive⟩
  | answered _ j c r hj hd => obtain rfl := hof.unique hd.of; exact ⟨_, hj, rfl⟩
  | finalized _ j c hj hd => obtain rfl := hof.unique hd.of; exact ⟨_, hj, rfl⟩
  | opened _ j c dev sizes earlier hj _ hd =>
    obtain rfl := hof.unique (hd.elim (·.1.of) (·.1.of))
    exact ⟨_, hj, rfl⟩
  | closed _ j c dev sizes last hj _ hd => obtain rfl := hof.unique hd.of; exact ⟨_, hj, rfl⟩
  | destroyed j c ph dev hj hlive => obtain rfl : j = k := hof; exact ⟨_, hj, hlive⟩
  | dropped j c hj => obtain rfl : j = k := hof; exact ⟨_, hj, rfl⟩
  | escaped j c hj => obtain rfl : j = k := hof; exact ⟨_, hj, rfl⟩

theorem Change.maxFrequency {e : Event V} (h : Change s e u) :
    u.dev.maxFrequency = s.dev.maxFrequency := by
  cases h with
  | registered op req c dev hc hf hs hlt hmap hm => exact hm.maxFrequency
  | opened _ k c dev sizes earlier hk hst hd hmap hm => exact hm.maxFrequency
  | closed _ k c dev sizes last hk hst hd hlast hmap hm => exact hm.maxFrequency
  | destroyed k c ph dev hk hlive hends hreg hmap hm => exact hm.maxFrequency
  | _ => rfl

theorem Change.kept {e : Event V} (h : Change s e u) {j : ℕ} {ss : Session V}
    (hj : s.sessions[j]? = some ss) :
    ∃ ss', u.sessions[j]? = some ss' ∧ ss'.counter.SameRequest ss.counter := by
  have hsame : u.sessions[j]? = some ss →
      ∃ ss', u.sessions[j]? = some ss' ∧ ss'.counter.SameRequest ss.counter :=
    fun hu => ⟨ss, hu, rfl⟩
  have hset : ∀ {k c ph} {ss' : Session V}, s.sessions[k]? = some ⟨c, ph⟩ →
      ss'.counter.SameRequest c → ∃ ss'', (s.sessions.set k ss')[j]? = some ss'' ∧
        ss''.counter.SameRequest ss.counter := by
    intro k c ph ss' hk hc
    by_cases hkj : k = j
    · subst hkj
      obtain rfl := Option.some.inj (hj.symm.trans hk)
      exact ⟨ss', List.getElem?_set_self (List.getElem?_eq_some_iff.mp hj).1, hc⟩
    · exact ⟨ss, (List.getElem?_set_ne hkj).trans hj, rfl⟩
  have hlt := (List.getElem?_eq_some_iff.mp hj).1
  cases h with
  | sampled x => exact hsame hj
  | ignored op req => exact hsame hj
  | rejected op req => exact hsame ((List.getElem?_append_left hlt).trans hj)
  | registered op req c dev => exact hsame ((List.getElem?_append_left hlt).trans hj)
  | rephased _ k c ph ph' hk => exact hset hk rfl
  | answered _ k c r hk => exact hset hk rfl
  | finalized _ k c hk => exact hset hk rfl
  | opened _ k c dev sizes earlier hk => exact hset hk rfl
  | closed _ k c dev sizes last hk => exact hset hk rfl
  | destroyed k c ph dev hk => exact hset hk rfl
  | dropped k c hk => exact hset hk rfl
  | escaped k c hk => exact hset hk rfl

theorem Change.origin {e : Event V} (h : Change s e u) {j : ℕ} {ss : Session V}
    (hj : u.sessions[j]? = some ss) :
    (∃ ss₀, s.sessions[j]? = some ss₀) ∨
      (∃ op req, e = .connection op req) ∧ j = s.sessions.length ∧
        ss.counter.status = .inactive ∧ ss.counter.sets = [] ∧ ss.phase.Plain ∧
        (ss.counter.registered = true →
          Counter.setFrequency s.dev.maxFrequency ss.counter.frequency =
            .done ss.counter.interval) := by
  have hset : ∀ {k} {ss' : Session V}, (s.sessions.set k ss')[j]? = some ss →
      ∃ ss₀, s.sessions[j]? = some ss₀ := by
    intro k ss' hx
    have hlt := (List.getElem?_eq_some_iff.mp hx).1
    rw [List.length_set] at hlt
    exact ⟨_, List.getElem?_eq_getElem hlt⟩
  cases h with
  | sampled x => exact .inl ⟨ss, hj⟩
  | ignored op req => exact .inl ⟨ss, hj⟩
  | rejected op req =>
    rcases getElem?_snoc_cases hj with ⟨rfl, rfl⟩ | hj
    · exact .inr ⟨⟨op, req, rfl⟩, rfl, rfl, rfl, trivial, by simp [Counter.unregistered]⟩
    · exact .inl ⟨ss, hj⟩
  | registered op req c dev hc hf =>
    rcases getElem?_snoc_cases hj with ⟨rfl, rfl⟩ | hj
    · exact .inr ⟨⟨op, req, rfl⟩, rfl, congrArg Counter.status hc, congrArg Counter.sets hc,
        trivial, fun _ => hf⟩
    · exact .inl ⟨ss, hj⟩
  | rephased => exact .inl (hset hj)
  | answered => exact .inl (hset hj)
  | finalized => exact .inl (hset hj)
  | opened => exact .inl (hset hj)
  | closed => exact .inl (hset hj)
  | destroyed => exact .inl (hset hj)
  | dropped => exact .inl (hset hj)
  | escaped => exact .inl (hset hj)

theorem Change.stops {e : Event V} (h : Change s e u) {j : ℕ} {ss : Session V}
    (hj : u.sessions[j]? = some ss) (hrun : ss.counter.running = false) :
    (∃ ss₀, s.sessions[j]? = some ss₀ ∧ ss₀.counter.running = false) ∨
      e.Delivers j .finalize := by
  have hset : ∀ {k c ph} {ss' : Session V}, s.sessions[k]? = some ⟨c, ph⟩ →
      ss'.counter.running = c.running → (s.sessions.set k ss')[j]? = some ss →
        ∃ ss₀, s.sessions[j]? = some ss₀ ∧ ss₀.counter.running = false := by
    intro k c ph ss' hk hc hx
    rcases getElem?_set_cases hx with ⟨rfl, rfl⟩ | ⟨_, hj⟩
    · exact ⟨_, hk, hc ▸ hrun⟩
    · exact ⟨ss, hj, hrun⟩
  cases h with
  | sampled x => exact .inl ⟨ss, hj, hrun⟩
  | ignored op req => exact .inl ⟨ss, hj, hrun⟩
  | rejected op req =>
    rcases getElem?_snoc_cases hj with ⟨_, rfl⟩ | hj
    · cases hrun
    · exact .inl ⟨ss, hj, hrun⟩
  | registered op req c dev hc =>
    rcases getElem?_snoc_cases hj with ⟨_, rfl⟩ | hj
    · rw [show c.running = true from congrArg Counter.running hc] at hrun
      cases hrun
    · exact .inl ⟨ss, hj, hrun⟩
  | rephased _ k c ph ph' hk => exact .inl (hset hk rfl hj)
  | answered _ k c r hk => exact .inl (hset hk rfl hj)
  | finalized _ k c hk hd =>
    rcases getElem?_set_cases hj with ⟨rfl, rfl⟩ | ⟨_, hj⟩
    · exact .inr hd
    · exact .inl ⟨ss, hj, hrun⟩
  | opened _ k c dev sizes earlier hk => exact .inl (hset hk rfl hj)
  | closed _ k c dev sizes last hk => exact .inl (hset hk rfl hj)
  | destroyed k c ph dev hk => exact .inl (hset hk rfl hj)
  | dropped k c hk => exact .inl (hset hk rfl hj)
  | escaped k c hk => exact .inl (hset hk rfl hj)

theorem Change.returns {k : ℕ} {ok : Bool} {c : Counter} (h : Change s (.send k ok) u)
    (he : s.Ends k ok c) :
    u.sessions[k]? = some ⟨c, if ok then .destroyed else .escaped⟩ := by
  obtain ⟨ph₀, h₀, hl₀⟩ := he.live
  generalize hev : Event.send k ok = e at h
  have hself : ∀ {ss' : Session V}, (s.sessions.set k ss')[k]? = some ss' := by
    intro ss'
    rw [List.getElem?_set_self (List.getElem?_eq_some_iff.mp h₀).1]
  cases h with
  | sampled x => cases hev
  | ignored op req => cases hev
  | rejected op req => cases hev
  | registered op req => cases hev
  | rephased _ k' c' ph ph' hk _ _ hof hno =>
    subst hev
    obtain rfl : k = k' := hof
    obtain ⟨rfl, rfl⟩ := Session.mk.inj (Option.some.inj (h₀.symm.trans hk))
    exact absurd he (hno ok rfl)
  | answered _ k' c' r hk hd => subst hev; exact hd.elim
  | finalized _ k' c' hk hd => subst hev; exact hd.elim
  | opened _ k' c' dev sizes earlier hk _ hd =>
    subst hev
    rcases hd with ⟨hd, _⟩ | ⟨hd, _⟩ <;> exact hd.elim
  | closed _ k' c' dev sizes last hk _ hd => subst hev; exact hd.elim
  | destroyed k' c' ph dev hk =>
    obtain ⟨rfl, rfl⟩ := Event.send.inj hev
    obtain ⟨rfl, rfl⟩ := Session.mk.inj (Option.some.inj (h₀.symm.trans hk))
    exact hself
  | dropped k' c' hk =>
    obtain ⟨rfl, rfl⟩ := Event.send.inj hev
    obtain ⟨rfl, rfl⟩ := Session.mk.inj (Option.some.inj (h₀.symm.trans hk))
    exact hself
  | escaped k' c' hk =>
    obtain ⟨rfl, rfl⟩ := Event.send.inj hev
    obtain ⟨rfl, rfl⟩ := Session.mk.inj (Option.some.inj (h₀.symm.trans hk))
    exact hself

theorem Change.ended {e : Event V} (h : Change s e u) {j : ℕ} {ss : Session V}
    (hj : u.sessions[j]? = some ss) (hl : ss.phase.live = false) :
    s.sessions[j]? = some ss ∨
      ∃ ok, e = .send j ok ∧ s.Ends j ok ss.counter := by
  have hlive : ∀ {c : Counter} {ph : Phase V}, ss = ⟨c, ph⟩ → ph.live = true → False := by
    rintro c ph rfl hp
    simp_all
  cases h with
  | sampled x => exact .inl hj
  | ignored op req => exact .inl hj
  | rejected op req =>
    rcases getElem?_snoc_cases hj with ⟨_, hx⟩ | hj
    · exact (hlive hx rfl).elim
    · exact .inl hj
  | registered op req c dev =>
    rcases getElem?_snoc_cases hj with ⟨_, hx⟩ | hj
    · exact (hlive hx rfl).elim
    · exact .inl hj
  | rephased _ k c ph ph' hk _ hp =>
    rcases getElem?_set_cases hj with ⟨_, rfl⟩ | ⟨_, hj⟩
    · cases ph' <;> first | exact hp.elim | exact (hlive rfl rfl).elim
    · exact .inl hj
  | answered _ k c r hk =>
    rcases getElem?_set_cases hj with ⟨_, hx⟩ | ⟨_, hj⟩
    · exact (hlive hx rfl).elim
    · exact .inl hj
  | finalized _ k c hk =>
    rcases getElem?_set_cases hj with ⟨_, hx⟩ | ⟨_, hj⟩
    · exact (hlive hx rfl).elim
    · exact .inl hj
  | opened _ k c dev sizes earlier hk =>
    rcases getElem?_set_cases hj with ⟨_, hx⟩ | ⟨_, hj⟩
    · exact (hlive hx rfl).elim
    · exact .inl hj
  | closed _ k c dev sizes last hk =>
    rcases getElem?_set_cases hj with ⟨_, hx⟩ | ⟨_, hj⟩
    · exact (hlive hx rfl).elim
    · exact .inl hj
  | destroyed k c ph dev hk _ hends =>
    rcases getElem?_set_cases hj with ⟨rfl, rfl⟩ | ⟨_, hj⟩
    · exact .inr ⟨true, rfl, hends⟩
    · exact .inl hj
  | dropped k c hk =>
    rcases getElem?_set_cases hj with ⟨rfl, rfl⟩ | ⟨_, hj⟩
    · exact .inr ⟨true, rfl, .inl hk⟩
    · exact .inl hj
  | escaped k c hk =>
    rcases getElem?_set_cases hj with ⟨rfl, rfl⟩ | ⟨_, hj⟩
    · exact .inr ⟨false, rfl, .inl hk⟩
    · exact .inl hj

end change

end steps

namespace Run

variable [Zero V] [Add V]

def Always (ρ : Run V) (P : Server V → Prop) : Prop :=
  Trace.Always Server.next ρ.start ρ.events P

def AlwaysStep (ρ : Run V) (Q : Server V → Event V → Prop) : Prop :=
  Trace.AlwaysStep Server.next ρ.start ρ.events Q

theorem wellFormed (ρ : Run V) : ρ.Always Server.WellFormed := by
  intro pre _ t ht
  refine Trace.exec_invariant Server.next (fun _ => Server.WellFormed)
    ρ.initial.wellFormed ?_ ht
  intro _ t e u _ hw hu
  exact (next_change hw hu).wellFormed hw

end Run

end PMLib
