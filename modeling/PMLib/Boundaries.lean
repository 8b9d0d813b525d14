import PMLib.TimingBuffer

/-! # The boundaries of a set

An offset is kept in 64 bits, but it comes out of `get_size` as an `int`. What a step stores
is therefore the length of the buffer exactly while that length is an `int`. -/
namespace PMLib

open Int32Conv

variable {V : Type}

def Counter.lastSizes (c : Counter) : Option SetT := c.sets.getLast?.map fun se => se.2.getD se.1

def Session.Measures (ss : Session V) (k : ℕ) (e : Event V) : Prop :=
  (e.Delivers k .start ∨ e.Delivers k .continue_) ∧ ss.counter.status = .inactive ∨
    e.Delivers k .stop ∧ ss.counter.status = .active

section properties

variable [Zero V] [Add V]

/-- The offsets that the event stores are the numbers of samples in the buffers. -/
def OffsetsExact (s : Server V) (e : Event V) : Prop :=
  ∀ (k : ℕ) (ss : Session V) (u : Server V) (ss' : Session V), s.sessions[k]? = some ss →
    ss.Measures k e → s.next e = .done u → u.sessions[k]? = some ss' →
      ∃ sizes : SetT, ss'.counter.lastSizes = some sizes ∧ ∀ l ∈ ss.counter.lines,
        ∀ ln : Line V, u.dev.lines[l]? = some ln → sizes.getD l 0 = ln.data.length

end properties

def SizesFit (s : Server V) (e : Event V) : Prop :=
  ∀ (k : ℕ) (ss : Session V), s.sessions[k]? = some ss → ss.Measures k e →
    ∀ l ∈ ss.counter.lines, ∀ ln : Line V, s.dev.lines[l]? = some ln → ln.data.length < 2 ^ 31

def SetsOrdered (s : Server V) : Prop :=
  ∀ (k : ℕ) (ss : Session V), s.sessions[k]? = some ss →
    ∀ first last : SetT, (first, some last) ∈ ss.counter.sets →
      ∀ l ∈ ss.counter.lines, first.getD l 0 ≤ last.getD l 0

theorem Session.Measures.delivers {ss : Session V} {k : ℕ} {e : Event V}
    (h : ss.Measures k e) : ∃ op, e.Delivers k op := by
  rcases h with ⟨h | h, _⟩ | ⟨h, _⟩
  · exact ⟨_, h⟩
  · exact ⟨_, h⟩
  · exact ⟨_, h⟩

theorem wrap32_eq_length_iff (n : ℕ) : wrap32 n = n ↔ n < 2 ^ 31 := by
  rw [wrap32_eq_self_iff, FitsInt]
  omega

section steps

variable [Zero V] [Add V] {s u : Server V} {e : Event V} {k : ℕ} {ss ss' : Session V}

theorem Change.delivered_data (h : Change s e u) {op : Operation} (hd : e.Delivers k op) {l : ℕ}
    {ln' : Line V} (hln' : u.dev.lines[l]? = some ln') :
    ∃ ln, s.dev.lines[l]? = some ln ∧ ln'.data = ln.data := by
  obtain ⟨o, rfl, _⟩ := hd.exists_receive
  obtain ⟨ln, hln, ⟨x, hx, _⟩ | ⟨⟨j, c, hx, _⟩, _⟩ | ⟨_, _, hsame⟩⟩ := h.line hln'
  · cases hx
  · cases hx
  · exact ⟨ln, hln, hsame⟩

theorem Change.measured (h : Change s e u) (hk : s.sessions[k]? = some ss)
    (hk' : u.sessions[k]? = some ss') (hm : ss.Measures k e) :
    ∃ sizes : SetT, ss'.counter.lastSizes = some sizes ∧
      ∀ l ∈ ss.counter.lines, ∀ ln : Line V, u.dev.lines[l]? = some ln →
        sizes.getD l 0 = wrap32 ln.data.length := by
  obtain hkept | ⟨sizes, earlier, _, _, hsets, _, _, hget⟩ |
    ⟨sizes, last, _, _, _, _, hsets, _, hget⟩ := h.sets hk hk'
  · rcases hm with ⟨hd, hst⟩ | ⟨hd, hst⟩
    · cases hst.symm.trans (hkept.opens hd)
    · cases hst.symm.trans (hkept.closes hd)
  · exact ⟨sizes, by rw [Counter.lastSizes, hsets]; simp, hget⟩
  · exact ⟨sizes, by rw [Counter.lastSizes, hsets]; simp, hget⟩

theorem offsetsExact_iff (hw : s.WellFormed) (hn : s.next e = .done u) :
    OffsetsExact s e ↔ SizesFit s e := by
  have h := next_change hw hn
  constructor
  · intro hexact k ss hk hm l hl ln hln
    obtain ⟨op, hd⟩ := hm.delivers
    obtain ⟨ss', hk', hreq⟩ := h.kept hk
    obtain ⟨ln', hln'⟩ := (h.wellFormed hw).has hk' l (hreq.lines ▸ hl)
    obtain ⟨ln₀, hln₀, hsame⟩ := h.delivered_data hd hln'
    obtain rfl := Option.some.inj (hln.symm.trans hln₀)
    obtain ⟨sizes, hlast, hsizes⟩ := hexact k ss u ss' hk hm hn hk'
    obtain ⟨sizes', hlast', hsizes'⟩ := h.measured hk hk' hm
    obtain rfl := Option.some.inj (hlast.symm.trans hlast')
    rw [← hsame, ← wrap32_eq_length_iff]
    exact (hsizes' l hl ln' hln').symm.trans (hsizes l hl ln' hln')
  · intro hfit k ss u' ss' hk hm hn' hk'
    obtain rfl := Outcome.done.inj (hn.symm.trans hn')
    obtain ⟨op, hd⟩ := hm.delivers
    obtain ⟨sizes, hlast, hsizes⟩ := h.measured hk hk' hm
    refine ⟨sizes, hlast, fun l hl ln' hln' => ?_⟩
    obtain ⟨ln, hln, hsame⟩ := h.delivered_data hd hln'
    rw [hsizes l hl ln' hln', wrap32_eq_length_iff, hsame]
    exact hfit k ss hk hm l hl ln hln

/-- The closed sets are ordered, and an open one begins inside the buffers. -/
structure Session.Within (ss : Session V) (dev : Device V) : Prop where
  closed : ∀ first last : SetT, (first, some last) ∈ ss.counter.sets →
    ∀ l ∈ ss.counter.lines, first.getD l 0 ≤ last.getD l 0
  opened : ss.phase.live = true → ss.counter.status = .active →
    ∀ se : CounterSet, ss.counter.sets.getLast? = some se → ∀ l ∈ ss.counter.lines, ∀ ln : Line V,
      dev.lines[l]? = some ln → se.1.getD l 0 ≤ ln.data.length

theorem Change.length_le (hw : s.WellFormed) (h : Change s e u) (hk : s.sessions[k]? = some ss)
    (hlive : ss.phase.live = true) (hk' : u.sessions[k]? = some ss')
    (hlive' : ss'.phase.live = true) {l : ℕ} (hl : l ∈ ss.counter.lines) {ln' : Line V}
    (hln' : u.dev.lines[l]? = some ln') :
    ∃ ln, s.dev.lines[l]? = some ln ∧ ln.data.length ≤ ln'.data.length := by
  by_cases hx : ∃ x, e = .sample x
  · obtain ⟨x, rfl⟩ := hx
    obtain ⟨ln, hln, ⟨y, _, rfl⟩ | ⟨⟨j, c, hx, _⟩, _⟩ | ⟨hx, _⟩⟩ := h.line hln'
    · refine ⟨ln, hln, ?_⟩
      rw [Line.consume_data]
      split_ifs
      · rw [List.length_append]; omega
      · exact Nat.le_refl _
    · cases hx
    · exact absurd rfl (hx x)
  · obtain ⟨ln, hln, hsame⟩ :=
      h.data_kept hw (fun x hx' => hx ⟨x, hx'⟩) hk hlive hk' hlive' hl hln'
    exact ⟨ln, hln, hsame ▸ Nat.le_refl _⟩

theorem Change.live (h : Change s e u) (hk : s.sessions[k]? = some ss)
    (hk' : u.sessions[k]? = some ss') (hlive' : ss'.phase.live = true) :
    ss.phase.live = true := by
  by_cases hof : e.Of k
  · obtain ⟨ss₀, h₀, hlive⟩ := h.subject hof
    obtain rfl := Option.some.inj (hk.symm.trans h₀)
    exact hlive
  · have hsame := (h.frame hk).resolve_right fun h => hof h.1
    obtain rfl := Option.some.inj (hk'.symm.trans hsame)
    exact hlive'

theorem Session.Within.step (hw : s.WellFormed) (h : Change s e u) (hfit : SizesFit s e)
    (hk : s.sessions[k]? = some ss) (hk' : u.sessions[k]? = some ss') (hin : ss.Within s.dev) :
    ss'.Within u.dev := by
  have hlines : ss'.counter.lines = ss.counter.lines := by
    obtain ⟨ss₀, h₀, hreq⟩ := h.kept hk
    obtain rfl := Option.some.inj (hk'.symm.trans h₀)
    exact hreq.lines
  -- what an operation takes is the length of a buffer that fits
  have htaken : ss.Measures k e → ∀ l ∈ ss.counter.lines, ∀ ln' : Line V,
      u.dev.lines[l]? = some ln' →
      wrap32 ln'.data.length = ln'.data.length := by
    intro hm l hl ln' hln'
    obtain ⟨op, hd⟩ := hm.delivers
    obtain ⟨ln, hln, hsame⟩ := h.delivered_data hd hln'
    rw [wrap32_eq_length_iff, hsame]
    exact hfit k ss hk hm l hl ln hln
  obtain hkept | ⟨sizes, earlier, hst, _, hsets, _, hd, hget⟩ |
    ⟨sizes, last, hst, hst', hd, hlast, hsets, _, hget⟩ := h.sets hk hk'
  · refine ⟨?_, ?_⟩
    · rw [hkept.sets, hlines]
      exact hin.closed
    · rw [hkept.sets, hkept.status, hlines]
      intro hlive' hst se hse l hl ln' hln'
      have hlive := h.live hk hk' hlive'
      obtain ⟨ln, hln, hle⟩ := h.length_le hw hk hlive hk' hlive' hl hln'
      exact (hin.opened hlive hst se hse l hl ln hln).trans (Int.ofNat_le.mpr hle)
  · have hm : ss.Measures k e := .inl ⟨hd.imp (·.1) (·.1), hst⟩
    refine ⟨?_, ?_⟩
    · rw [hsets, hlines]
      intro first fin hmem
      rcases List.mem_append.mp hmem with hmem | hmem
      · rcases hd with ⟨_, rfl⟩ | ⟨_, rfl⟩
        · cases hmem
        · exact hin.closed first fin hmem
      · simp at hmem
    · rw [hsets, hlines]
      intro _ _ se hse l hl ln' hln'
      obtain rfl : (sizes, none) = se := by simpa using hse
      exact ((hget l hl ln' hln').trans (htaken hm l hl ln' hln')).le
  · have hm : ss.Measures k e := .inr ⟨hd, hst⟩
    refine ⟨?_, fun _ hact => by cases hst'.symm.trans hact⟩
    rw [hsets, hlines]
    intro first fin hmem l hl
    rcases List.mem_append.mp hmem with hmem | hmem
    · exact hin.closed first fin (List.mem_of_mem_dropLast hmem) l hl
    · obtain ⟨rfl, rfl⟩ : first = last.1 ∧ fin = sizes := by simpa using hmem
      obtain ⟨ss₀, h₀, hlive⟩ := h.subject hd.of
      obtain rfl := Option.some.inj (hk.symm.trans h₀)
      obtain ⟨ln', hln'⟩ := (h.wellFormed hw).has hk' l (hlines ▸ hl)
      obtain ⟨ln, hln, hsame⟩ := h.delivered_data hd hln'
      rw [hget l hl ln' hln', Line.getSize, htaken hm l hl ln' hln', hsame]
      exact hin.opened hlive hst last hlast l hl ln hln

end steps

namespace Run

variable [Zero V] [Add V] (ρ : Run V)

theorem setsOrdered_of_sizesFit (hfit : ρ.AlwaysStep SizesFit) : ρ.Always SetsOrdered := by
  have hall : ρ.Always fun s => ∀ (k : ℕ) (ss : Session V), s.sessions[k]? = some ss →
      ss.Within s.dev := by
    refine Trace.always_of_alwaysStep Server.next ρ.wellFormed ?_ ?_ hfit
    · intro k ss hk
      rw [ρ.initial.sessions] at hk
      cases hk
    · intro s e u hw hin hfit hn k ss' hk'
      have h := next_change hw hn
      rcases h.origin hk' with ⟨ss, hk⟩ | ⟨_, _, hst, hsets, _⟩
      · exact (hin k ss hk).step hw h hfit hk hk'
      · refine ⟨?_, fun _ hact => by cases hst.symm.trans hact⟩
        rw [hsets]
        intro first last hmem
        cases hmem
  intro pre hp t ht k ss hk
  exact (hall pre hp t ht k ss hk).closed

/-- In a run of any length, every offset stored is the length of its buffer and no set ends
before it begins, exactly when every length taken is one of an `int`. -/
theorem boundaries_exact_iff :
    ρ.AlwaysStep OffsetsExact ∧ ρ.Always SetsOrdered ↔ ρ.AlwaysStep SizesFit := by
  have hstep : ∀ pre e, pre ++ [e] <+: ρ.events → ∀ t,
      Trace.exec Server.next ρ.start pre = .done t → (OffsetsExact t e ↔ SizesFit t e) := by
    intro pre e hp t ht
    obtain ⟨u, hu⟩ := Trace.exec_of_isPrefix Server.next ρ.exec hp
    obtain ⟨t', ht', hn⟩ := (Trace.exec_snoc Server.next).mp hu
    obtain rfl := Outcome.done.inj (ht.symm.trans ht')
    exact offsetsExact_iff (ρ.wellFormed pre ((List.prefix_append pre [e]).trans hp) t ht) hn
  constructor
  · rintro ⟨hexact, _⟩ pre e hp t ht
    exact (hstep pre e hp t ht).mp (hexact pre e hp t ht)
  · intro hfit
    exact ⟨fun pre e hp t ht => (hstep pre e hp t ht).mpr (hfit pre e hp t ht),
      ρ.setsOrdered_of_sizesFit hfit⟩

end Run

/-! ## A recording that is too long -/

theorem Server.exec_samples [Zero V] [Add V] {s : Server V} {l : ℕ} {ln : Line V}
    (hln : s.dev.lines[l]? = some ln) (ha : 0 < ln.active) (x : ℕ → V) (n : ℕ) :
    ∃ u, Trace.exec Server.next s (List.replicate n (.sample x)) = .done u ∧
      u.sessions = s.sessions ∧
      u.dev.lines[l]? = some { ln with data := ln.data ++ List.replicate n (x l) } := by
  induction n with
  | zero => exact ⟨s, rfl, rfl, by simpa using hln⟩
  | succ n ih =>
    obtain ⟨u, hu, hsess, hlen⟩ := ih
    refine ⟨{ u with dev := u.dev.pushBackData x }, ?_, hsess, ?_⟩
    · rw [List.replicate_succ', Trace.exec_snoc]
      exact ⟨u, hu, rfl⟩
    · rw [(Device.pushBackData_mapped u.dev x).lines, hlen, Option.map_some, Line.consume,
        if_pos (by simpa [Line.isActive] using ha), Line.pushBackData, List.replicate_succ',
        List.append_assoc]

/-- A counter is created and started, `n` samples are consumed, and it is stopped. -/
def recordLong (n : ℕ) : List (Event ℤ) :=
  [.connection 0 (some ⟨[], 0, false, [1#8]⟩), .send 0 true, .receive 0 (some 1),
    .send 0 true] ++ List.replicate n (.sample fun _ => 7) ++ [.receive 0 (some 3)]

theorem recordLong_boundary (n : ℕ) : ∃ u ss first last,
    Trace.exec Server.next (.configured [] 1 1) (recordLong n) = .done u ∧
      u.sessions[0]? = some ss ∧ (first, some last) ∈ ss.counter.sets ∧ 0 ∈ ss.counter.lines ∧
      first.getD 0 0 = 0 ∧ last.getD 0 0 = wrap32 n := by
  have hrun : (Trace.exec Server.next (.configured [] 1 1 : Server ℤ)
      [.connection 0 (some ⟨[], 0, false, [1#8]⟩), .send 0 true, .receive 0 (some 1),
        .send 0 true]).check (fun s => (s.waiting 0).any fun c =>
          c.status == .active && c.lines == [0] &&
            c.sets.getLast?.any (fun se => se.1.getD 0 0 == 0) &&
            s.dev.lines[0]?.any fun ln => ln.active == 1 && ln.data == []) = true := by
    decide +kernel
  obtain ⟨s, hs, hp⟩ := Outcome.check_eq_true.mp hrun
  obtain ⟨c, hc, hp⟩ := (Option.any_eq_true _ _).mp hp
  simp only [Bool.and_eq_true, beq_iff_eq] at hp
  obtain ⟨⟨⟨hst, hlines⟩, hsets⟩, hline⟩ := hp
  obtain ⟨⟨first, open_⟩, hlast, hfirst⟩ := (Option.any_eq_true _ _).mp hsets
  obtain ⟨ln, hln, hp⟩ := (Option.any_eq_true _ _).mp hline
  simp only [Bool.and_eq_true, beq_iff_eq] at hp hfirst
  obtain ⟨hactive, hdata⟩ := hp
  obtain ⟨t, ht, hsess, hlong⟩ :=
    Server.exec_samples hln (by omega) (fun _ => (7 : ℤ)) n
  have hk : t.sessions[0]? = some ⟨c, .serving⟩ := hsess ▸ Server.waiting_eq_some.mp hc
  have hrun := (Trace.exec_append_eq_done Server.next).mpr ⟨s, hs, ht⟩
  let ρ : Run ℤ := ⟨_, _, t, Server.configured_initial [] 1 1, hrun⟩
  have hw : t.WellFormed := ρ.wellFormed _ (List.prefix_refl _) t hrun
  obtain ⟨c', dev', hd, _⟩ := Counter.dispatch_due .stop
    (hw.sessions 0 _ hk).nodup (hw.has hk) hst (fun _ hnil => by rw [hnil] at hlast; cases hlast)
  have hn : t.next (.receive 0 (some 3)) = .done
      { dev := dev', sessions := t.sessions.set 0 ⟨c', .replying (.retval .success)⟩ } := by
    have hd : c.dispatch t.dev 3 = .done (c', dev', .retval .success) := hd
    simp [Server.next, hk, Server.serve, hd]
  have h := next_change hw hn
  obtain ⟨ss', hk', hreq⟩ := h.kept hk
  have hdel : (Event.receive 0 (some 3) : Event ℤ).Delivers 0 .stop := ⟨rfl, rfl⟩
  obtain hkept | ⟨_, _, hst', _⟩ | ⟨sizes, last, _, _, _, hlast', hsets', _, hget⟩ :=
    h.sets hk hk'
  · cases hst.symm.trans (hkept.closes hdel)
  · cases hst.symm.trans hst'
  · obtain rfl := Option.some.inj (hlast.symm.trans hlast')
    have hmem : 0 ∈ c.lines := by simp [hlines]
    refine ⟨_, ss', first, sizes, (Trace.exec_snoc Server.next).mpr ⟨t, hrun, hn⟩, hk', ?_,
      hreq.lines ▸ hmem, hfirst, ?_⟩
    · rw [hsets']
      exact List.mem_append_right _ (List.mem_singleton.mpr rfl)
    · obtain ⟨ln', hln'⟩ := (h.wellFormed hw).has hk' 0 (hreq.lines ▸ hmem)
      obtain ⟨ln₀, hln₀, hsame⟩ := h.delivered_data hdel hln'
      obtain rfl := Option.some.inj (hlong.symm.trans hln₀)
      rw [hget 0 hmem ln' hln', Line.getSize, hsame, hdata, List.nil_append,
        List.length_replicate]

/-- After `2 ^ 31` samples the end of the set is `-2 ^ 31`. -/
theorem boundaries_exact_fails : ∃ ρ : Run ℤ, ρ.start = .configured [] 1 1 ∧
    ρ.events = recordLong (2 ^ 31) ∧
      ¬ (ρ.AlwaysStep OffsetsExact ∧ ρ.Always SetsOrdered) := by
  obtain ⟨u, ss, first, last, hrun, hk, hmem, hl, hfirst, hlast⟩ := recordLong_boundary (2 ^ 31)
  refine ⟨⟨_, _, u, Server.configured_initial [] 1 1, hrun⟩, rfl, rfl, ?_⟩
  rintro ⟨_, hordered⟩
  have hle := hordered _ (List.prefix_refl _) u hrun 0 ss hk first last hmem 0 hl
  have hwrap : wrap32 ((2 ^ 31 : ℕ) : ℤ) = -2 ^ 31 := by decide +kernel
  rw [hfirst, hlast, hwrap] at hle
  exact absurd hle (by decide +kernel)

end PMLib
