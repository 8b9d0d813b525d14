import PMLib.Replies

/-! # Measurements over whole runs

A data reply is computed from the windows that its own session has recorded. What other
sessions do, and what the buffers hold besides, does not show in it. -/
namespace PMLib

open Int32Conv

variable {V : Type}

def Server.BuffersFit (s : Server V) : Prop :=
  ∀ (l : ℕ) (ln : Line V), s.dev.lines[l]? = some ln → ln.data.length < 2 ^ 31

def Event.isSample : Event V → Bool
  | .sample _ => true
  | _ => false

def Server.Accepts (s : Server V) (k : ℕ) (op : Operation) (e : Event V) : Prop :=
  e.Delivers k op ∧ ∃ ss, s.sessions[k]? = some ss ∧ ss.counter.status = .inactive

section steps

variable [Zero V] [Add V] {s u : Server V} {e : Event V} {k : ℕ}

theorem Change.data_reply (h : Change s e u) {c : Counter} {r : GetReply V}
    (hk : u.sessions[k]? = some ⟨c, .replying (.data r)⟩) :
    (s.sessions[k]? = some ⟨c, .replying (.data r)⟩ ∧ ¬ e.Of k) ∨
      s.sessions[k]? = some ⟨c, .serving⟩ ∧ e.Delivers k .get ∧ c.status = .inactive ∧
        c.getData Counter.plain s.dev = .done r := by
  by_cases hof : e.Of k
  · obtain ⟨ss, hss, hlive⟩ := h.subject hof
    have hself : ∀ {ss₁ : Session V}, (s.sessions.set k ss₁)[k]? = some ⟨c, .replying (.data r)⟩ →
        ss₁ = ⟨c, .replying (.data r)⟩ := by
      intro ss₁ hset
      rw [List.getElem?_set_self (List.getElem?_eq_some_iff.mp hss).1] at hset
      exact Option.some.inj hset
    cases h with
    | sampled x => exact hof.elim
    | ignored op req => exact hof.elim
    | rejected op req => exact hof.elim
    | registered op req => exact hof.elim
    | rephased _ j c' ph ph' hj _ hp hofj =>
      obtain rfl := hof.unique hofj
      cases hself hk
      exact hp.elim
    | answered _ j c' r' hj hd hst hget =>
      obtain rfl := hof.unique hd.of
      cases hself hk
      exact .inr ⟨hj, hd, hst, hget⟩
    | finalized _ j c' hj hd => obtain rfl := hof.unique hd.of; cases hself hk
    | opened _ j c' dev sizes earlier hj _ hd =>
      obtain rfl := hof.unique (hd.elim (·.1.of) (·.1.of))
      cases hself hk
    | closed _ j c' dev sizes last hj _ hd => obtain rfl := hof.unique hd.of; cases hself hk
    | destroyed j c' ph dev hj => obtain rfl : j = k := hof; cases hself hk
    | dropped j c' hj => obtain rfl : j = k := hof; cases hself hk
    | escaped j c' hj => obtain rfl : j = k := hof; cases hself hk
  · rcases h.origin hk with ⟨ss₀, h₀⟩ | ⟨_, _, _, _, hp, _⟩
    · have hsame := (h.frame h₀).resolve_right fun h => hof h.1
      obtain rfl := Option.some.inj (hk.symm.trans hsame)
      exact .inl ⟨h₀, hof⟩
    · exact hp.elim

end steps

namespace Run

variable [Zero V] [Add V] (ρ : Run V) {es : List (Event V)} {t : Server V} {k : ℕ}

theorem data_length_le (ht : Trace.exec Server.next ρ.start es = .done t) (l : ℕ) (ln : Line V)
    (hln : t.dev.lines[l]? = some ln) : ln.data.length ≤ es.countP Event.isSample := by
  refine (Trace.exec_invariant Server.next (fun es t => t.WellFormed ∧ ∀ (l : ℕ) (ln : Line V),
    t.dev.lines[l]? = some ln → ln.data.length ≤ es.countP Event.isSample)
    ⟨ρ.initial.wellFormed, ?_⟩ ?_ ht).2 l ln hln
  · intro l ln hl
    rw [ρ.initial.fresh l ln hl]
    exact Nat.zero_le _
  · rintro es s e u _ ⟨hw, hle⟩ hn
    have h := next_change hw hn
    refine ⟨h.wellFormed hw, fun l ln' hln' => ?_⟩
    rw [List.countP_append]
    obtain ⟨ln, hln, hcases⟩ := h.line hln'
    have := hle l ln hln
    rcases hcases with ⟨x, rfl, rfl⟩ | ⟨_, rfl⟩ | ⟨_, _, hsame⟩
    · have hone : [Event.sample x].countP Event.isSample = 1 := rfl
      rw [Line.consume_data, hone]
      split_ifs
      · rw [List.length_append, List.length_singleton]; omega
      · omega
    · rw [Line.release_data]
      split_ifs
      · omega
      · exact Nat.zero_le _
    · rw [hsame]; omega

theorem buffersFit_of_samples (h : ρ.events.countP Event.isSample < 2 ^ 31) :
    ρ.Always Server.BuffersFit :=
  fun _ hp _ ht l ln hln =>
    ((ρ.data_length_le ht l ln hln).trans (hp.sublist.countP_le)).trans_lt h

theorem buffersFit_of_length (h : ρ.events.length < 2 ^ 31) : ρ.Always Server.BuffersFit :=
  ρ.buffersFit_of_samples (List.countP_le_length.trans_lt h)

theorem tracks_of_serving (ht : Trace.exec Server.next ρ.start es = .done t) {c : Counter}
    (hk : t.sessions[k]? = some ⟨c, .serving⟩) (hst : c.status = .inactive) :
    ∃ ended, Tracks c t.dev (recording k es) ended none := by
  obtain ⟨hw, hf⟩ := ρ.follows ht
  have hreg := (hw.sessions k _ hk).live_registered (.retval .error) (.inl rfl)
  obtain ⟨ended, pending, htr⟩ := hf.tracked k _ hk rfl hreg
  obtain rfl := htr.status_inactive.mp hst
  exact ⟨ended, htr⟩

theorem reply_eq (ht : Trace.exec Server.next ρ.start es = .done t)
    (hb : Trace.Always Server.next ρ.start es Server.BuffersFit) {c : Counter} {r : GetReply V}
    (hk : t.sessions[k]? = some ⟨c, .replying (.data r)⟩) (hi : 1 ≤ c.interval) :
    r = c.windowReply (recording k es).closed ∧ (recording k es).opened = none := by
  induction es using List.reverseRecOn generalizing t with
  | nil =>
    obtain rfl := Outcome.done.inj ht
    simp [ρ.initial.sessions] at hk
  | append_singleton es e ih =>
    obtain ⟨s, hs, hn⟩ := (Trace.exec_snoc Server.next).mp ht
    have hp : es <+: es ++ [e] := List.prefix_append es [e]
    obtain ⟨hw, _⟩ := ρ.follows hs
    rw [recording_snoc]
    rcases (next_change hw hn).data_reply hk with ⟨hk', hof⟩ | ⟨hk', hd, hst, hget⟩
    · obtain ⟨hr, ho⟩ := ih hs (hb.of_isPrefix _ hp) hk'
      rw [Recorder.record_idle ho hof]
      exact ⟨hr, ho⟩
    · obtain ⟨ended, htr⟩ := ρ.tracks_of_serving hs hk' hst
      have ho : (recording k es).opened = none := by simpa using htr.opened
      have hrec : (recording k es).record k e = recording k es := by
        refine Recorder.record_refused (by rintro x rfl; exact hd) ?_ (fun _ => by rw [ho]; rfl)
        rintro (h | h) <;> cases hd.unique h
      rw [hrec]
      have hr := Counter.getData_eq Counter.plain_reads (hw.sessions k _ hk').nodup hi htr
        (hw.has hk') (hb es hp s hs)
      exact ⟨Outcome.done.inj (hget.symm.trans hr), ho⟩

end Run

/-- The readings of a window in the order of the reply. There is nothing to sum without
lines. -/
def windowReadings [Zero V] [Add V] (aggregate : Bool) (lines : List ℕ) (w : List (ℕ → V)) :
    List V :=
  if aggregate then
    if lines = [] then [] else w.map fun x => lines.foldl (fun sum l => sum + x l) 0
  else lines.flatMap fun l => readings l w

def windowSize (lines : List ℕ) (w : List (ℕ → V)) : ℕ := if lines = [] then 0 else w.length

theorem Counter.setSize_native {c : Counter} (hi : c.interval = 1) (w : List (ℕ → V)) :
    c.setSize w = windowSize c.lines w := by
  simp [setSize, windowSize, hi]

section native

variable [Zero V] [Add V] {c : Counter}

omit [Add V] in
theorem Counter.column_eq {w : List (ℕ → V)} {x : ℕ} (hx : x < w.length) (l : ℕ) :
    column l w x = w[x] l := by
  simp [column, readings, hx]

theorem Counter.windowBlock_native (hi : c.interval = 1) (w : List (ℕ → V)) :
    c.windowBlock w = windowReadings c.aggregate c.lines w := by
  by_cases hl : c.lines = []
  · simp [windowBlock, windowReadings, setSize, hl]
  have hn : c.setSize w = w.length := by simp [setSize, hl, hi]
  have hs : summed 1 w.length = w.length := by simp [summed, Nat.mod_one]
  unfold windowBlock windowReadings
  rw [hn, hi]
  split_ifs with hagg
  · refine List.ext_getElem (by simp) fun x h₁ h₂ => ?_
    have hx : x < w.length := by simpa using h₂
    simp only [Int.toNat_one, hs, List.getElem_map, List.getElem_range, if_pos hx, Nat.mul_one,
      column_eq hx]
  · congr 1
    funext l
    refine List.ext_getElem (by simp [readings, Nat.mod_one]) fun x h₁ h₂ => ?_
    have hx : x < w.length := by simpa [readings] using h₂
    simp [Nat.mod_one, column_eq hx, readings]

theorem windowSize_le (aggregate : Bool) (lines : List ℕ) (w : List (ℕ → V)) :
    windowSize lines w ≤ (windowReadings aggregate lines w).length := by
  by_cases hl : lines = []
  · simp [windowSize, hl]
  · obtain ⟨l, rest, rfl⟩ := List.exists_cons_of_ne_nil hl
    cases aggregate <;> simp [windowSize, windowReadings, readings]

theorem sum_windowSize_le (aggregate : Bool) (lines : List ℕ) (ws : List (List (ℕ → V))) :
    (ws.map (windowSize lines)).sum ≤ (ws.flatMap (windowReadings aggregate lines)).length := by
  induction ws with
  | nil => simp
  | cons w ws ih =>
    have := windowSize_le aggregate lines w
    simp only [List.map_cons, List.sum_cons, List.flatMap_cons, List.length_append]
    omega

theorem Counter.windowReply_watts (hi : c.interval = 1) (ws : List (List (ℕ → V))) :
    (c.windowReply ws).watts = ws.flatMap (windowReadings c.aggregate c.lines) := by
  simp only [windowReply, funext (windowBlock_native hi)]

theorem Counter.windowReply_wattsSets (hi : c.interval = 1) {ws : List (List (ℕ → V))}
    (hfit : (c.windowReply ws).watts.length < 2 ^ 31) :
    (c.windowReply ws).wattsSets =
      ((ws.map (windowSize c.lines)).scanl (· + ·) 0).map fun n : ℕ => (n : ℤ) := by
  have hsum := sum_windowSize_le c.aggregate c.lines ws
  rw [← windowReply_watts hi] at hsum
  have hscan := scanl_wrap32 (ws.map (windowSize c.lines)) 0 (by omega)
  rw [← hscan]
  simp only [windowReply, setSize_native hi, List.map_map, Function.comp_def, Nat.cast_zero]

/-- A data reply at native frequency: for each set, in order, the readings of the counter's
lines in the samples between the opening and the closing of that set, and nothing else. -/
theorem Run.get_exact (ρ : Run V) (hb : ρ.Always Server.BuffersFit) {pre : List (Event V)}
    (hp : pre <+: ρ.events) {t : Server V} (ht : Trace.exec Server.next ρ.start pre = .done t)
    {k : ℕ} {r : GetReply V} (hk : t.sessions[k]? = some ⟨c, .replying (.data r)⟩)
    (hi : c.interval = 1) (hr : r.watts.length < 2 ^ 31) :
    c.lines.Pairwise (· < ·) ∧
      r.watts = (recording k pre).closed.flatMap (windowReadings c.aggregate c.lines) ∧
      r.wattsSets = (((recording k pre).closed.map (windowSize c.lines)).scanl (· + ·) 0).map
        fun n : ℕ => (n : ℤ) := by
  obtain ⟨rfl, _⟩ := ρ.reply_eq ht (hb.of_isPrefix _ hp) hk (by omega)
  exact ⟨((ρ.wellFormed pre hp t ht).sessions k _ hk).sorted, Counter.windowReply_watts hi _,
    Counter.windowReply_wattsSets hi hr⟩

end native

def recordTwo : List (Event ℤ) :=
  [.connection 0 (some ⟨[], 0, false, [3#8]⟩), .send 0 true,
    .connection 0 (some ⟨[], 0, true, [2#8]⟩), .send 1 true, .receive 1 (some 1), .send 1 true,
    .sample fun l => l + 1, .receive 0 (some 1), .send 0 true, .sample fun l => l + 5,
    .receive 0 (some 3), .send 0 true, .sample fun l => l + 20, .receive 0 (some 2), .send 0 true,
    .sample fun l => l + 7, .sample fun l => l + 9, .receive 0 (some 3), .send 0 true,
    .receive 0 (some 4)]

def Server.dataReply (s : Server V) (k : ℕ) : Option (Counter × GetReply V) :=
  match s.sessions[k]? with
  | some ⟨c, .replying (.data r)⟩ => some (c, r)
  | _ => none

theorem Server.dataReply_eq_some {s : Server V} {k : ℕ} {c : Counter} {r : GetReply V} :
    s.dataReply k = some (c, r) ↔ s.sessions[k]? = some ⟨c, .replying (.data r)⟩ := by
  unfold dataReply
  split
  · simp_all
  · constructor
    · simp
    · intro h
      simp_all

theorem get_exact_recordTwo : ∃ t c r,
    Trace.exec Server.next (.configured [] 1 2) recordTwo = .done t ∧
      t.dataReply 0 = some (c, r) ∧ r.watts = [5, 6, 7, 9, 8, 10] ∧ r.wattsSets = [0, 1, 3] := by
  have hrun : (Trace.exec Server.next (.configured [] 1 2) recordTwo).check (fun s =>
      (s.dataReply 0).any fun p => p.1.interval == 1 && p.1.lines == [0, 1] && !p.1.aggregate &&
        p.2.watts.length == 6) = true := by decide +kernel
  obtain ⟨t, ht, hp⟩ := Outcome.check_eq_true.mp hrun
  obtain ⟨⟨c, r⟩, hcr, hp⟩ := (Option.any_eq_true _ _).mp hp
  simp only [Bool.and_eq_true, beq_iff_eq, Bool.not_eq_true'] at hp
  obtain ⟨⟨⟨hi, hl⟩, ha⟩, hlen⟩ := hp
  let ρ : Run ℤ := ⟨_, _, t, Server.configured_initial [] 1 2, ht⟩
  have hfit := ρ.buffersFit_of_length (show recordTwo.length < 2 ^ 31 by decide)
  obtain ⟨_, hw, hs⟩ := ρ.get_exact hfit (List.prefix_refl _) ht
    (Server.dataReply_eq_some.mp hcr) hi (by omega)
  refine ⟨t, c, r, ht, hcr, ?_, ?_⟩
  · rw [hw, hl, ha]
    rfl
  · rw [hs, hl]
    rfl

theorem Counter.one_le_interval {maxFrequency frequency interval : ℤ}
    (h : setFrequency maxFrequency frequency = .done interval) (h₀ : 0 ≤ frequency)
    (hm : frequency ≤ maxFrequency) : 1 ≤ interval := by
  unfold setFrequency at h
  rw [if_neg (by omega)] at h
  dsimp only at h
  generalize hf : (if frequency = 0 then maxFrequency else frequency) = f at h
  have hf₀ : 0 ≤ f := by rw [← hf]; split_ifs <;> omega
  have hfm : f ≤ maxFrequency := by rw [← hf]; split_ifs <;> omega
  split_ifs at h with hz
  obtain rfl := Outcome.done.inj h
  have hpos : 0 < f := by omega
  exact Binary32.one_le_roundAway
    (Binary32.one_le_ofRat_div (by exact_mod_cast hpos) (by exact_mod_cast hfm))

def CounterSet.bounds (l : ℕ) (se : CounterSet) : ℤ × ℤ :=
  (se.1.getD l 0, (se.2.getD ∅).getD l 0)

/-- Ordered, disjoint, and inside a buffer of the given size. -/
structure Separated (bounds : List (ℤ × ℤ)) (size : ℕ) : Prop where
  ordered : bounds.Pairwise fun x y => x.2 ≤ y.1
  inside : ∀ x ∈ bounds, 0 ≤ x.1 ∧ x.1 ≤ x.2 ∧ x.2 ≤ (size : ℤ)

theorem Tracks.ends {c : Counter} {dev : Device V} {r : Recorder (ℕ → V)}
    {ended : List (SetT × SetT)} (h : Tracks c dev r ended none) :
    ∀ se ∈ c.sets, se.2.isSome = true := by
  intro se hse
  rw [h.sets] at hse
  simp only [setsOf, Option.toList_none, List.map_nil, List.append_nil, List.mem_map] at hse
  obtain ⟨p, _, rfl⟩ := hse
  rfl

theorem Tracks.separated {c : Counter} {dev : Device V} {r : Recorder (ℕ → V)}
    {ended : List (SetT × SetT)} (h : Tracks c dev r ended none) {l : ℕ} {ln : Line V}
    (hl : l ∈ c.lines) (hln : dev.lines[l]? = some ln) (hfit : ln.data.length < 2 ^ 31) :
    Separated (c.sets.map (CounterSet.bounds l)) ln.data.length := by
  obtain ⟨spans, hspans⟩ := h.lines l hl ln hln
  have hexact : c.sets.map (CounterSet.bounds l) =
      spans.map fun w : ℕ × ℕ => ((w.1 : ℤ), (w.2 : ℤ)) := by
    rw [h.sets]
    simp only [setsOf, Option.toList_none, List.map_nil, List.append_nil, List.map_map]
    refine hspans.offsets.trans (List.map_congr_left fun w hw => ?_)
    have := hspans.recorded.inside w hw
    rw [wrap32_natCast (by omega), wrap32_natCast (by omega)]
  rw [hexact]
  refine ⟨?_, fun x hx => ?_⟩
  · rw [List.pairwise_map]
    exact hspans.recorded.ordered.imp fun h => Int.ofNat_le.mpr h
  · obtain ⟨w, hw, rfl⟩ := List.mem_map.mp hx
    have := hspans.recorded.inside w hw
    simp only
    omega

theorem Run.interval_eq [Zero V] [Add V] (ρ : Run V) {es : List (Event V)} {t : Server V}
    (ht : Trace.exec Server.next ρ.start es = .done t) {k : ℕ} {ss : Session V}
    (hk : t.sessions[k]? = some ss) (hreg : ss.counter.registered = true) :
    Counter.setFrequency t.dev.maxFrequency ss.counter.frequency =
      .done ss.counter.interval := by
  refine (Trace.exec_invariant Server.next (fun _ t => t.WellFormed ∧
    ∀ (k : ℕ) (ss : Session V), t.sessions[k]? = some ss → ss.counter.registered = true →
      Counter.setFrequency t.dev.maxFrequency ss.counter.frequency = .done ss.counter.interval)
    ⟨ρ.initial.wellFormed, fun k ss hk => ?_⟩ ?_ ht).2 k ss hk hreg
  · simp [ρ.initial.sessions] at hk
  · rintro es s e u _ ⟨hw, hint⟩ hn
    have h := next_change hw hn
    refine ⟨h.wellFormed hw, fun k ss hk hreg => ?_⟩
    rw [h.maxFrequency]
    rcases h.origin hk with ⟨ss₀, h₀⟩ | ⟨_, _, _, _, _, hnew⟩
    · obtain ⟨x, hx, hsame⟩ := h.kept h₀
      obtain rfl := Option.some.inj (hk.symm.trans hx)
      rw [hsame.frequency, hsame.interval]
      exact hint k ss₀ h₀ (hsame.registered ▸ hreg)
    · exact hnew hreg

/-- A GET that an INACTIVE counter receives is safe: all sets are closed and lie apart in
the buffers, and the loops end without a read outside the set they work on. -/
theorem Run.get_safe [Zero V] [Add V] (ρ : Run V) (hb : ρ.Always Server.BuffersFit)
    {pre : List (Event V)} (hp : pre <+: ρ.events) {t : Server V}
    (ht : Trace.exec Server.next ρ.start pre = .done t) {k : ℕ} {c : Counter}
    (hk : t.sessions[k]? = some ⟨c, .serving⟩) (hst : c.status = .inactive)
    (hf₀ : 0 ≤ c.frequency) (hfm : c.frequency ≤ t.dev.maxFrequency) :
    1 ≤ c.interval ∧ (∀ se ∈ c.sets, se.2.isSome = true) ∧
      (∀ l ∈ c.lines, ∃ ln, t.dev.lines[l]? = some ln ∧
        Separated (c.sets.map (CounterSet.bounds l)) ln.data.length) ∧
      ∃ r, c.getData Counter.fence t.dev = .done r ∧ c.getData Counter.plain t.dev = .done r := by
  have hw := ρ.wellFormed pre hp t ht
  have hreg := (hw.sessions k _ hk).live_registered (.retval .error) (.inl rfl)
  have hn := (hw.sessions k _ hk).nodup
  have hi := Counter.one_le_interval (ρ.interval_eq ht hk hreg) hf₀ hfm
  obtain ⟨ended, htr⟩ := ρ.tracks_of_serving ht hk hst
  have hfit := hb pre hp t ht
  refine ⟨hi, htr.ends, fun l hl => ?_, _, Counter.getData_eq Counter.fence_reads hn hi htr
    (hw.has hk) hfit, Counter.getData_eq Counter.plain_reads hn hi htr (hw.has hk) hfit⟩
  obtain ⟨ln, hln⟩ := hw.has hk l hl
  exact ⟨ln, hln, htr.separated hl hln (hfit l ln hln)⟩

def Server.waiting (s : Server V) (k : ℕ) : Option Counter :=
  match s.sessions[k]? with
  | some ⟨c, .serving⟩ => some c
  | _ => none

theorem Server.waiting_eq_some {s : Server V} {k : ℕ} {c : Counter} :
    s.waiting k = some c ↔ s.sessions[k]? = some ⟨c, .serving⟩ := by
  unfold waiting
  split
  · simp_all
  · constructor
    · simp
    · intro h
      simp_all

theorem get_safe_recordTwo : ∃ t c,
    Trace.exec Server.next (.configured [] 1 2) recordTwo.dropLast = .done t ∧
      t.waiting 0 = some c ∧ c.sets.length = 2 ∧
      ∃ r, c.getData Counter.fence t.dev = .done r ∧ c.getData Counter.plain t.dev = .done r := by
  have hrun : (Trace.exec Server.next (.configured [] 1 2) recordTwo.dropLast).check (fun s =>
      (s.waiting 0).any fun c => c.status == .inactive && c.frequency == 0 &&
        s.dev.maxFrequency == 1 && c.sets.length == 2) = true := by decide +kernel
  obtain ⟨t, ht, hp⟩ := Outcome.check_eq_true.mp hrun
  obtain ⟨c, hc, hp⟩ := (Option.any_eq_true _ _).mp hp
  simp only [Bool.and_eq_true, beq_iff_eq] at hp
  obtain ⟨⟨⟨hst, hf⟩, hm⟩, hlen⟩ := hp
  let ρ : Run ℤ := ⟨_, _, t, Server.configured_initial [] 1 2, ht⟩
  obtain ⟨_, _, _, hsafe⟩ := ρ.get_safe
    (ρ.buffersFit_of_length (show recordTwo.dropLast.length < 2 ^ 31 by decide))
    (List.prefix_refl _) ht (Server.waiting_eq_some.mp hc) hst (by omega) (by omega)
  exact ⟨t, c, ht, hc, hlen, hsafe⟩

section stable

variable [Zero V] [Add V]

theorem Counter.windowReply_congr {c c' : Counter} (h : c'.SameRequest c)
    (ws : List (List (ℕ → V))) : c'.windowReply ws = c.windowReply ws := by
  rw [h]
  rfl

theorem Counter.wattsSets_isPrefix (c : Counter) {ws ws' : List (List (ℕ → V))}
    (h : ws <+: ws') : (c.windowReply ws).wattsSets <+: (c.windowReply ws').wattsSets := by
  obtain ⟨more, rfl⟩ := h
  simp only [windowReply, List.map_append, List.scanl_append]
  exact List.prefix_append _ _

theorem Counter.watts_isPrefix (c : Counter) {ws ws' : List (List (ℕ → V))}
    (h : ws <+: ws') : (c.windowReply ws).watts <+: (c.windowReply ws').watts := by
  obtain ⟨more, rfl⟩ := h
  simp only [windowReply, List.flatMap_append]
  exact List.prefix_append _ _

variable (ρ : Run V) {pre mid : List (Event V)} {t₁ t₂ : Server V} {k : ℕ}

private theorem opened_of_refused (ρ : Run V) {es : List (Event V)} {s u : Server V}
    {e : Event V} {op : Operation} (hs : Trace.exec Server.next ρ.start es = .done s)
    (hn : s.next e = .done u) (hd : e.Delivers k op) (hno : ¬ s.Accepts k op e) :
    (recording k es).opened.isSome = true := by
  obtain ⟨c, hc⟩ := next_delivers hn hd
  have hst : c.status = .active := by
    cases hst : c.status with
    | active => rfl
    | inactive => exact absurd ⟨hd, _, hc, hst⟩ hno
  obtain ⟨hw, hf⟩ := ρ.follows hs
  have hreg := (hw.sessions k _ hc).live_registered (.retval .error) (.inl rfl)
  obtain ⟨ended, pending, htr⟩ := hf.tracked k _ hc rfl hreg
  rw [htr.opened, ← htr.status_active, hst]

theorem Run.closed_isPrefix (ht₁ : Trace.exec Server.next ρ.start pre = .done t₁)
    (ht₂ : Trace.exec Server.next t₁ mid = .done t₂)
    (hno : Trace.AlwaysStep Server.next t₁ mid fun s e => ¬ s.Accepts k .start e) :
    (recording k pre).closed <+: (recording k (pre ++ mid)).closed := by
  refine Trace.exec_invariant_of_alwaysStep Server.next
    (fun es _ => (recording k pre).closed <+: (recording k (pre ++ es)).closed) ?_ ?_ hno ht₂
  · rw [List.append_nil]
  · intro es s e u hs ih hna hn
    rw [← List.append_assoc, recording_snoc]
    have hs' := (Trace.exec_append_eq_done Server.next).mpr ⟨t₁, ht₁, hs⟩
    exact ih.trans (Recorder.closed_isPrefix_record fun hd => opened_of_refused ρ hs' hn hd hna)

theorem Run.recording_eq (ht₁ : Trace.exec Server.next ρ.start pre = .done t₁)
    (ht₂ : Trace.exec Server.next t₁ mid = .done t₂) (ho : (recording k pre).opened = none)
    (hno : Trace.AlwaysStep Server.next t₁ mid fun s e =>
      ¬ s.Accepts k .start e ∧ ¬ s.Accepts k .continue_ e) :
    recording k (pre ++ mid) = recording k pre := by
  refine Trace.exec_invariant_of_alwaysStep Server.next
    (fun es _ => recording k (pre ++ es) = recording k pre) ?_ ?_ hno ht₂
  · rw [List.append_nil]
  · rintro es s e u hs ih ⟨hna, hnc⟩ hn
    have hs' := (Trace.exec_append_eq_done Server.next).mpr ⟨t₁, ht₁, hs⟩
    rw [← List.append_assoc, recording_snoc, ih]
    by_cases hx : ∃ x, e = .sample x
    · obtain ⟨x, rfl⟩ := hx
      exact Recorder.record_idle ho fun hof => hof
    · refine Recorder.record_refused (fun x hx' => hx ⟨x, hx'⟩) ?_ (fun _ => by rw [ho]; rfl)
      rw [← ih]
      rintro (hd | hd)
      · exact opened_of_refused ρ hs' hn hd hna
      · exact opened_of_refused ρ hs' hn hd hnc

theorem Run.sameRequest (ht₁ : Trace.exec Server.next ρ.start pre = .done t₁)
    (ht₂ : Trace.exec Server.next t₁ mid = .done t₂) {ss₁ ss₂ : Session V}
    (h₁ : t₁.sessions[k]? = some ss₁) (h₂ : t₂.sessions[k]? = some ss₂) :
    ss₂.counter.SameRequest ss₁.counter := by
  have hall : ∃ ss, t₂.sessions[k]? = some ss ∧ ss.counter.SameRequest ss₁.counter := by
    refine Trace.exec_invariant Server.next (fun _ u =>
      ∃ ss, u.sessions[k]? = some ss ∧ ss.counter.SameRequest ss₁.counter) ⟨ss₁, h₁, rfl⟩ ?_ ht₂
    rintro es s e u hs ⟨ss, hss, hsame⟩ hn
    obtain ⟨hw, _⟩ := ρ.follows ((Trace.exec_append_eq_done Server.next).mpr ⟨t₁, ht₁, hs⟩)
    obtain ⟨ss', hss', hsame'⟩ := (next_change hw hn).kept hss
    refine ⟨ss', hss', ?_⟩
    unfold Counter.SameRequest at hsame hsame' ⊢
    rw [hsame', hsame]
  obtain ⟨ss, hss, hsame⟩ := hall
  obtain rfl := Option.some.inj (h₂.symm.trans hss)
  exact hsame

/-- Two data replies of one counter with no accepted START between them: the first is a
part of the second, and is the second when no CONTINUE was accepted either. -/
theorem Run.get_stable (hb : ρ.Always Server.BuffersFit) (hp : pre ++ mid <+: ρ.events)
    (ht₁ : Trace.exec Server.next ρ.start pre = .done t₁)
    (ht₂ : Trace.exec Server.next t₁ mid = .done t₂) {c₁ c₂ : Counter} {r₁ r₂ : GetReply V}
    (h₁ : t₁.sessions[k]? = some ⟨c₁, .replying (.data r₁)⟩)
    (h₂ : t₂.sessions[k]? = some ⟨c₂, .replying (.data r₂)⟩) (hi : 1 ≤ c₁.interval)
    (hno : Trace.AlwaysStep Server.next t₁ mid fun s e => ¬ s.Accepts k .start e) :
    r₁.wattsSets <+: r₂.wattsSets ∧ r₁.watts <+: r₂.watts ∧
      ((Trace.AlwaysStep Server.next t₁ mid fun s e => ¬ s.Accepts k .continue_ e) →
        r₁ = r₂) := by
  have hsame : c₂.SameRequest c₁ := ρ.sameRequest ht₁ ht₂ h₁ h₂
  have ht₂' := (Trace.exec_append_eq_done Server.next).mpr ⟨t₁, ht₁, ht₂⟩
  obtain ⟨rfl, ho⟩ := ρ.reply_eq ht₁ (hb.of_isPrefix _ ((List.prefix_append _ _).trans hp)) h₁ hi
  obtain ⟨rfl, _⟩ := ρ.reply_eq ht₂' (hb.of_isPrefix _ hp) h₂ (hsame.interval ▸ hi)
  rw [Counter.windowReply_congr hsame]
  have hclosed := ρ.closed_isPrefix ht₁ ht₂ hno
  refine ⟨c₁.wattsSets_isPrefix hclosed, c₁.watts_isPrefix hclosed, fun hnc => ?_⟩
  rw [ρ.recording_eq ht₁ ht₂ ho fun p e hpe t ht => ⟨hno p e hpe t ht, hnc p e hpe t ht⟩]

end stable

def recordMore : List (Event ℤ) :=
  [.send 0 true, .receive 0 (some 2), .send 0 true, .sample fun _ => 8, .receive 0 (some 3),
    .send 0 true, .receive 0 (some 4)]

theorem get_stable_recordMore : ∃ t₁ t₂ c₁ c₂ r₁ r₂,
    Trace.exec Server.next (.configured [] 1 2) recordTwo = .done t₁ ∧
      Trace.exec Server.next t₁ recordMore = .done t₂ ∧ t₁.dataReply 0 = some (c₁, r₁) ∧
      t₂.dataReply 0 = some (c₂, r₂) ∧ r₁.watts <+: r₂.watts ∧ r₂.watts.length = 8 := by
  have hrun : (Trace.exec Server.next (.configured [] 1 2) recordTwo).check (fun s =>
      (s.dataReply 0).any (fun p => p.1.interval == 1) &&
        (Trace.exec Server.next s recordMore).check fun u =>
          (u.dataReply 0).any fun p => p.2.watts.length == 8) = true := by decide +kernel
  obtain ⟨t₁, ht₁, hp⟩ := Outcome.check_eq_true.mp hrun
  obtain ⟨hp₁, hrun₂⟩ := Bool.and_eq_true_iff.mp hp
  obtain ⟨t₂, ht₂, hp₂⟩ := Outcome.check_eq_true.mp hrun₂
  obtain ⟨⟨c₁, r₁⟩, h₁, hi⟩ := (Option.any_eq_true _ _).mp hp₁
  obtain ⟨⟨c₂, r₂⟩, h₂, hlen⟩ := (Option.any_eq_true _ _).mp hp₂
  simp only [beq_iff_eq] at hi hlen
  let ρ : Run ℤ := ⟨_, _, t₂, Server.configured_initial [] 1 2,
    (Trace.exec_append_eq_done Server.next).mpr ⟨t₁, ht₁, ht₂⟩⟩
  obtain ⟨_, hwatts, _⟩ := ρ.get_stable
    (ρ.buffersFit_of_length (show (recordTwo ++ recordMore).length < 2 ^ 31 by decide))
    (List.prefix_refl _) ht₁ ht₂ (Server.dataReply_eq_some.mp h₁) (Server.dataReply_eq_some.mp h₂)
    (by omega)
    (Trace.alwaysStep_of_forall_mem _ (by
      intro e he t ⟨hd, _⟩
      simp only [recordMore, List.mem_cons, List.not_mem_nil, or_false] at he
      rcases he with rfl | rfl | rfl | rfl | rfl | rfl | rfl <;>
        simp [Event.Delivers, Operation.ofInt] at hd))
  exact ⟨t₁, t₂, c₁, c₂, r₁, r₂, ht₁, ht₂, h₁, h₂, hwatts, hlen⟩

end PMLib
