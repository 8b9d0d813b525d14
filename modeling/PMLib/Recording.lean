import PMLib.Accounting
import PMLib.Lib.Windows

/-! # What a counter records

`Recorder` says what a counter is for: it collects the samples that come between a START or
a CONTINUE and the next STOP. The server keeps none of these windows, only shared line
buffers and offsets into them; `Tracks` says how the two go together. -/
namespace PMLib

open Int32Conv RefCount

variable {V : Type}

structure Recorder (α : Type) where
  closed : List (List α)
  opened : Option (List α)

namespace Recorder

variable {α : Type}

def empty : Recorder α := ⟨[], none⟩

def start : Recorder α → Recorder α
  | ⟨_, none⟩ => ⟨[], some []⟩
  | r => r

def resume : Recorder α → Recorder α
  | ⟨closed, none⟩ => ⟨closed, some []⟩
  | r => r

def stop : Recorder α → Recorder α
  | ⟨closed, some w⟩ => ⟨closed ++ [w], none⟩
  | r => r

def push (r : Recorder α) (x : α) : Recorder α := { r with opened := r.opened.map (· ++ [x]) }

def record (k : ℕ) (r : Recorder (ℕ → V)) : Event V → Recorder (ℕ → V)
  | .sample x => r.push x
  | .receive j (some op) =>
    if j = k then
      match Operation.ofInt op with
      | some .start => r.start
      | some .continue_ => r.resume
      | some .stop => r.stop
      | _ => r
    else r
  | _ => r

end Recorder

def recording (k : ℕ) (es : List (Event V)) : Recorder (ℕ → V) :=
  es.foldl (Recorder.record k) .empty

@[simp] theorem recording_nil (k : ℕ) : recording k ([] : List (Event V)) = .empty := rfl

theorem recording_snoc (k : ℕ) (es : List (Event V)) (e : Event V) :
    recording k (es ++ [e]) = (recording k es).record k e := by
  simp [recording]

namespace Recorder

theorem start_eq {α : Type} {r : Recorder α} (h : r.opened = none) : r.start = ⟨[], some []⟩ := by
  obtain ⟨closed, opened⟩ := r
  obtain rfl : opened = none := h
  rfl

theorem resume_eq {α : Type} {r : Recorder α} (h : r.opened = none) :
    r.resume = ⟨r.closed, some []⟩ := by
  obtain ⟨closed, opened⟩ := r
  obtain rfl : opened = none := h
  rfl

theorem stop_eq {α : Type} {r : Recorder α} {w : List α} (h : r.opened = some w) :
    r.stop = ⟨r.closed ++ [w], none⟩ := by
  obtain ⟨closed, opened⟩ := r
  obtain rfl : opened = some w := h
  rfl

variable {k : ℕ} {r : Recorder (ℕ → V)} {e : Event V}

theorem record_start (h : e.Delivers k .start) : r.record k e = r.start := by
  cases e with
  | receive j op => cases op with
    | some op => simp [record, h.1, h.2]
    | none => exact h.elim
  | _ => exact h.elim

theorem record_continue (h : e.Delivers k .continue_) : r.record k e = r.resume := by
  cases e with
  | receive j op => cases op with
    | some op => simp [record, h.1, h.2]
    | none => exact h.elim
  | _ => exact h.elim

theorem record_stop (h : e.Delivers k .stop) : r.record k e = r.stop := by
  cases e with
  | receive j op => cases op with
    | some op => simp [record, h.1, h.2]
    | none => exact h.elim
  | _ => exact h.elim

theorem record_refused (hx : ∀ x, e ≠ .sample x)
    (ho : e.Delivers k .start ∨ e.Delivers k .continue_ → r.opened.isSome = true)
    (hc : e.Delivers k .stop → r.opened.isSome = false) : r.record k e = r := by
  obtain ⟨closed, opened⟩ := r
  by_cases h₁ : e.Delivers k .start
  · obtain ⟨w, rfl⟩ := Option.isSome_iff_exists.mp (ho (.inl h₁))
    rw [record_start h₁]
    rfl
  by_cases h₂ : e.Delivers k .continue_
  · obtain ⟨w, rfl⟩ := Option.isSome_iff_exists.mp (ho (.inr h₂))
    rw [record_continue h₂]
    rfl
  by_cases h₃ : e.Delivers k .stop
  · obtain rfl : opened = none := by simpa using hc h₃
    rw [record_stop h₃]
    rfl
  cases e with
  | sample x => exact absurd rfl (hx x)
  | receive j op => cases op with
    | some op =>
      simp only [Event.Delivers, not_and] at h₁ h₂ h₃
      simp only [record]
      split_ifs with hj
      · split <;> simp_all
      · rfl
    | none => rfl
  | _ => rfl

/-- While nothing is being recorded, only the session's own operations change the windows. -/
theorem record_idle (h : r.opened = none) (hof : ¬ e.Of k) : r.record k e = r := by
  by_cases hx : ∃ x, e = .sample x
  · obtain ⟨x, rfl⟩ := hx
    obtain ⟨closed, opened⟩ := r
    obtain rfl : opened = none := h
    rfl
  · exact record_refused (fun x hx' => hx ⟨x, hx'⟩)
      (fun hd => absurd (hd.elim (·.of) (·.of)) hof) (fun hd => absurd hd.of hof)

/-- Only a START that opens a window forgets the earlier ones. -/
theorem closed_isPrefix_record (h : e.Delivers k .start → r.opened.isSome = true) :
    r.closed <+: (r.record k e).closed := by
  by_cases h₁ : e.Delivers k .start
  · obtain ⟨w, hw⟩ := Option.isSome_iff_exists.mp (h h₁)
    obtain ⟨closed, opened⟩ := r
    obtain rfl : opened = some w := hw
    rw [record_start h₁]
    exact List.prefix_refl _
  cases e with
  | sample x => exact List.prefix_refl _
  | receive j op => cases op with
    | some op =>
      simp only [Event.Delivers, not_and] at h₁
      simp only [record]
      split_ifs with hj
      · split
        · exact absurd ‹_› (h₁ hj)
        · unfold resume; split <;> exact List.prefix_refl _
        · unfold stop
          split
          · exact List.prefix_append _ _
          · exact List.prefix_refl _
        · exact List.prefix_refl _
      · exact List.prefix_refl _
    | none => exact List.prefix_refl _
  | _ => exact List.prefix_refl _

end Recorder

def readings (l : ℕ) (w : List (ℕ → V)) : List V := w.map (· l)

/-- The sets a counter has recorded, the closed ones and the one that may be open. -/
def setsOf (ended : List (SetT × SetT)) (pending : Option SetT) : List CounterSet :=
  ended.map (fun p => (p.1, some p.2)) ++ pending.toList.map (·, none)

/-- The offsets of one line lie where the windows of the recorder are in its buffer. -/
structure LineTracks (l : ℕ) (data : List V) (ended : List (SetT × SetT))
    (pending : Option SetT) (r : Recorder (ℕ → V)) (spans : List (ℕ × ℕ)) : Prop where
  recorded : Windows.Recorded data spans (r.closed.map (readings l))
  offsets : ended.map (fun p => (p.1.getD l 0, p.2.getD l 0)) =
    spans.map (fun w : ℕ × ℕ => (wrap32 w.1, wrap32 w.2))
  opened : ∀ m w, pending = some m → r.opened = some w →
    ∃ b : ℕ, m.getD l 0 = wrap32 b ∧ Windows.Open data spans b (readings l w)

structure Tracks (c : Counter) (dev : Device V) (r : Recorder (ℕ → V))
    (ended : List (SetT × SetT)) (pending : Option SetT) : Prop where
  sets : c.sets = setsOf ended pending
  status : c.status = if pending.isSome then .active else .inactive
  opened : r.opened.isSome = pending.isSome
  length : ended.length = r.closed.length
  lines : ∀ l ∈ c.lines, ∀ ln, dev.lines[l]? = some ln →
    ∃ spans, LineTracks l ln.data ended pending r spans

def Session.Tracked (ss : Session V) (dev : Device V) (r : Recorder (ℕ → V)) : Prop :=
  ∃ ended pending, Tracks ss.counter dev r ended pending

namespace LineTracks

variable {l : ℕ} {data : List V} {ended : List (SetT × SetT)} {pending : Option SetT}
  {r : Recorder (ℕ → V)} {spans : List (ℕ × ℕ)}

theorem nil (l : ℕ) (data : List V) : LineTracks l data [] none .empty [] :=
  ⟨.nil data, rfl, by simp⟩

/-- A sample that the line buffers extends the open window; so does one that it misses
while no window is open. -/
theorem push (h : LineTracks l data ended pending r spans) (x : ℕ → V) :
    LineTracks l (data ++ [x l]) ended pending (r.push x) spans := by
  refine ⟨h.recorded.append [x l], h.offsets, fun m w hm hw => ?_⟩
  simp only [Recorder.push, Option.map_eq_some_iff] at hw
  obtain ⟨w, hw, rfl⟩ := hw
  obtain ⟨b, hb, ho⟩ := h.opened m w hm hw
  exact ⟨b, hb, by simpa [readings] using ho.append [x l]⟩

theorem idle (h : LineTracks l data ended none r spans) (x : ℕ → V) :
    LineTracks l data ended none (r.push x) spans :=
  ⟨h.recorded, h.offsets, by simp⟩

theorem start (sizes : SetT) (hs : sizes.getD l 0 = wrap32 data.length) (r : Recorder (ℕ → V))
    (hr : r.opened = none) : LineTracks l data [] (some sizes) r.start [] := by
  obtain ⟨closed, opened⟩ := r
  obtain rfl : opened = none := hr
  refine ⟨.nil data, rfl, ?_⟩
  rintro m w ⟨⟩ ⟨⟩
  exact ⟨_, hs, (Windows.Recorded.nil data).start⟩

theorem resume (h : LineTracks l data ended none r spans) (sizes : SetT)
    (hs : sizes.getD l 0 = wrap32 data.length) (hr : r.opened = none) :
    LineTracks l data ended (some sizes) r.resume spans := by
  obtain ⟨closed, opened⟩ := r
  obtain rfl : opened = none := hr
  refine ⟨h.recorded, h.offsets, ?_⟩
  rintro m w ⟨⟩ ⟨⟩
  exact ⟨_, hs, h.recorded.start⟩

theorem stop {m : SetT} (h : LineTracks l data ended (some m) r spans) (sizes : SetT)
    (hs : sizes.getD l 0 = wrap32 data.length) (hr : r.opened.isSome = true) :
    ∃ b, LineTracks l data (ended ++ [(m, sizes)]) none r.stop (spans ++ [(b, data.length)]) := by
  obtain ⟨closed, opened⟩ := r
  obtain ⟨w, rfl⟩ := Option.isSome_iff_exists.mp hr
  obtain ⟨b, hb, ho⟩ := h.opened m w rfl rfl
  refine ⟨b, ?_, ?_, by simp⟩
  · simpa [Recorder.stop] using h.recorded.close ho
  · simp [h.offsets, hb, hs]

end LineTracks

section steps

variable [Zero V] [Add V] {s u : Server V} {e : Event V} {k : ℕ} {ss ss' : Session V}

theorem Change.data_kept (hw : s.WellFormed) (h : Change s e u) (hx : ∀ x, e ≠ .sample x)
    (hk : s.sessions[k]? = some ss) (hlive : ss.phase.live = true)
    (hk' : u.sessions[k]? = some ss') (hlive' : ss'.phase.live = true) {l : ℕ}
    (hl : l ∈ ss.counter.lines) {ln' : Line V} (hln' : u.dev.lines[l]? = some ln') :
    ∃ ln, s.dev.lines[l]? = some ln ∧ ln'.data = ln.data := by
  obtain ⟨ln, hln, ⟨x, rfl, _⟩ | ⟨⟨j, c, rfl, hends, hl', hreg'⟩, rfl⟩ | ⟨_, _, hsame⟩⟩ :=
    h.line hln'
  · exact absurd rfl (hx x)
  · obtain ⟨ph, hj, hjlive⟩ := hends.live
    have hjk : j ≠ k := by
      rintro rfl
      obtain rfl := Option.some.inj (hk'.symm.trans (h.returns hends))
      simp [Phase.live] at hlive'
    have henables : ∀ {i : ℕ} {ss : Session V}, s.sessions[i]? = some ss →
        l ∈ ss.counter.lines → ss.phase.live = true → ss.enables l = true := by
      intro i ss hi hmem hli
      simp [Session.enables, Session.attached_eq (Phase.ne_destroyed hli),
        hw.registered_of_mem hi hmem, hmem]
    have hone : 1 < ln.enabled := by
      rw [hw.enabled l ln hln, one_lt_holders hj (henables hj hl' hjlive)]
      exact ⟨k, ss, hjk.symm, hk, henables hk hl hlive⟩
    exact ⟨ln, hln, by rw [Line.release_data, if_pos hone]⟩
  · exact ⟨ln, hln, hsame⟩

/-- The event leaves the sets of a session alone. An opening or closing operation is then
refused. -/
structure SetsKept (e : Event V) (k : ℕ) (ss ss' : Session V) : Prop where
  sets : ss'.counter.sets = ss.counter.sets
  status : ss'.counter.status = ss.counter.status
  opens : e.Delivers k .start ∨ e.Delivers k .continue_ → ss.counter.status = .active
  closes : e.Delivers k .stop → ss.counter.status = .inactive
  refused : e.Delivers k .start ∨ e.Delivers k .continue_ ∨ e.Delivers k .stop →
    ss'.phase ≠ .replying (.retval .success)

theorem Change.sets (h : Change s e u) (hk : s.sessions[k]? = some ss)
    (hk' : u.sessions[k]? = some ss') :
    SetsKept e k ss ss' ∨
    (∃ sizes earlier, ss.counter.status = .inactive ∧ ss'.counter.status = .active ∧
      ss'.counter.sets = earlier ++ [(sizes, none)] ∧
      ss'.counter.running = ss.counter.running ∧
      (e.Delivers k .start ∧ earlier = [] ∨
        e.Delivers k .continue_ ∧ earlier = ss.counter.sets) ∧
      ∀ l ∈ ss.counter.lines, ∀ ln, u.dev.lines[l]? = some ln →
        sizes.getD l 0 = ln.getSize) ∨
    (∃ sizes last, ss.counter.status = .active ∧ ss'.counter.status = .inactive ∧
      e.Delivers k .stop ∧ ss.counter.sets.getLast? = some last ∧
      ss'.counter.sets = ss.counter.sets.dropLast ++ [(last.1, some sizes)] ∧
      ss'.counter.running = ss.counter.running ∧
      ∀ l ∈ ss.counter.lines, ∀ ln, u.dev.lines[l]? = some ln →
        sizes.getD l 0 = ln.getSize) := by
  by_cases hof : e.Of k
  swap
  · have hsame := (h.frame hk).resolve_right fun h => hof h.1
    obtain rfl := Option.some.inj (hk'.symm.trans hsame)
    exact .inl ⟨rfl, rfl, fun hd => absurd (hd.elim (·.of) (·.of)) hof,
      fun hd => absurd hd.of hof, fun hd => absurd (hd.elim (·.of) (·.elim (·.of) (·.of))) hof⟩
  have hself : ∀ {c : Counter} {ph : Phase V} {ss₁ : Session V},
      s.sessions[k]? = some ⟨c, ph⟩ → (s.sessions.set k ss₁)[k]? = some ss' →
      ss.counter = c ∧ ss' = ss₁ := by
    intro c ph ss₁ hc hset
    rw [List.getElem?_set_self (List.getElem?_eq_some_iff.mp hc).1] at hset
    obtain rfl := Option.some.inj (hk.symm.trans hc)
    exact ⟨rfl, (Option.some.inj hset).symm⟩
  have hother : ∀ {o : Operation}, e.Delivers k o → o ≠ .start → o ≠ .continue_ → o ≠ .stop →
      ¬ (e.Delivers k .start ∨ e.Delivers k .continue_ ∨ e.Delivers k .stop) := by
    rintro o hd h₁ h₂ h₃ (h | h | h)
    · exact h₁ (hd.unique h)
    · exact h₂ (hd.unique h)
    · exact h₃ (hd.unique h)
  cases h with
  | sampled x => exact hof.elim
  | ignored op req => exact hof.elim
  | rejected op req => exact hof.elim
  | registered op req => exact hof.elim
  | rephased _ j c ph ph' hj _ _ hofj _ _ _ hopen hclose hne =>
    obtain rfl := hof.unique hofj
    obtain ⟨rfl, rfl⟩ := hself hj hk'
    exact .inl ⟨rfl, rfl, hopen, hclose, fun _ => hne⟩
  | answered _ j c r hj hd hst =>
    obtain rfl := hof.unique hd.of
    obtain ⟨rfl, rfl⟩ := hself hj hk'
    have hno := hother hd (by simp) (by simp) (by simp)
    exact .inl ⟨rfl, rfl, fun h => absurd (h.imp_right .inl) hno, fun _ => hst, by simp⟩
  | finalized _ j c hj hd hst =>
    obtain rfl := hof.unique hd.of
    obtain ⟨rfl, rfl⟩ := hself hj hk'
    have hno := hother hd (by simp) (by simp) (by simp)
    exact .inl ⟨rfl, rfl, fun h => absurd (h.imp_right .inl) hno, fun _ => hst,
      fun h => absurd h hno⟩
  | opened _ j c dev sizes earlier hj hst hd hmap hm hget =>
    obtain rfl := hof.unique (hd.elim (·.1.of) (·.1.of))
    obtain ⟨rfl, rfl⟩ := hself hj hk'
    exact .inr (.inl ⟨sizes, earlier, hst, rfl, rfl, rfl, hd, hget⟩)
  | closed _ j c dev sizes last hj hst hd hlast hmap hm hget =>
    obtain rfl := hof.unique hd.of
    obtain ⟨rfl, rfl⟩ := hself hj hk'
    exact .inr (.inr ⟨sizes, last, hst, rfl, hd, hlast, rfl, rfl, hget⟩)
  | destroyed j c ph dev hj =>
    obtain rfl : j = k := hof
    obtain ⟨rfl, rfl⟩ := hself hj hk'
    exact .inl ⟨rfl, rfl, by simp [Event.Delivers], by simp [Event.Delivers], by simp⟩
  | dropped j c hj =>
    obtain rfl : j = k := hof
    obtain ⟨rfl, rfl⟩ := hself hj hk'
    exact .inl ⟨rfl, rfl, by simp [Event.Delivers], by simp [Event.Delivers], by simp⟩
  | escaped j c hj =>
    obtain rfl : j = k := hof
    obtain ⟨rfl, rfl⟩ := hself hj hk'
    exact .inl ⟨rfl, rfl, by simp [Event.Delivers], by simp [Event.Delivers], by simp⟩

end steps

namespace Tracks

variable {c c' : Counter} {dev dev' : Device V} {r : Recorder (ℕ → V)}
  {ended : List (SetT × SetT)} {pending : Option SetT}

theorem status_active (h : Tracks c dev r ended pending) :
    c.status = .active ↔ pending.isSome = true := by
  rw [h.status]
  cases pending <;> simp

theorem status_inactive (h : Tracks c dev r ended pending) :
    c.status = .inactive ↔ pending = none := by
  rw [h.status]
  cases pending <;> simp

def SameData (c : Counter) (dev dev' : Device V) : Prop :=
  ∀ l ∈ c.lines, ∀ ln', dev'.lines[l]? = some ln' →
    ∃ ln, dev.lines[l]? = some ln ∧ ln'.data = ln.data

def Sizes (c : Counter) (dev : Device V) (sizes : SetT) : Prop :=
  ∀ l ∈ c.lines, ∀ ln, dev.lines[l]? = some ln → sizes.getD l 0 = ln.getSize

theorem kept (h : Tracks c dev r ended pending) (hs : c'.sets = c.sets)
    (hst : c'.status = c.status) (hl : c'.lines = c.lines) (hd : SameData c dev dev') :
    Tracks c' dev' r ended pending := by
  refine ⟨hs.trans h.sets, hst.trans h.status, h.opened, h.length, fun l hmem ln' hln' => ?_⟩
  rw [hl] at hmem
  obtain ⟨ln, hln, hsame⟩ := hd l hmem ln' hln'
  rw [hsame]
  exact h.lines l hmem ln hln

theorem start (h : Tracks c dev r ended none) {sizes : SetT}
    (hs : c'.sets = [(sizes, none)]) (hst : c'.status = .active) (hl : c'.lines = c.lines)
    (hz : Sizes c dev' sizes) :
    Tracks c' dev' r.start [] (some sizes) := by
  have hr : r.opened = none := by simpa using h.opened
  refine ⟨hs, hst, by rw [Recorder.start_eq hr]; rfl, by rw [Recorder.start_eq hr]; rfl,
    fun l hmem ln' hln' => ?_⟩
  rw [hl] at hmem
  exact ⟨[], .start sizes (hz l hmem ln' hln') r hr⟩

theorem resume (h : Tracks c dev r ended none) {sizes : SetT}
    (hs : c'.sets = c.sets ++ [(sizes, none)]) (hst : c'.status = .active)
    (hl : c'.lines = c.lines) (hd : SameData c dev dev') (hz : Sizes c dev' sizes) :
    Tracks c' dev' r.resume ended (some sizes) := by
  have hr : r.opened = none := by simpa using h.opened
  refine ⟨by rw [hs, h.sets]; simp [setsOf], hst, by rw [Recorder.resume_eq hr]; rfl,
    by rw [Recorder.resume_eq hr, h.length], fun l hmem ln' hln' => ?_⟩
  rw [hl] at hmem
  have hsize := hz l hmem ln' hln'
  obtain ⟨ln, hln, hsame⟩ := hd l hmem ln' hln'
  obtain ⟨spans, hspans⟩ := h.lines l hmem ln hln
  rw [Line.getSize, hsame] at hsize
  rw [hsame]
  exact ⟨spans, hspans.resume sizes hsize hr⟩

theorem stop {m sizes : SetT} (h : Tracks c dev r ended (some m))
    (hs : c'.sets = c.sets.dropLast ++ [(m, some sizes)]) (hst : c'.status = .inactive)
    (hl : c'.lines = c.lines) (hd : SameData c dev dev') (hz : Sizes c dev' sizes) :
    Tracks c' dev' r.stop (ended ++ [(m, sizes)]) none := by
  obtain ⟨w, hr⟩ := Option.isSome_iff_exists.mp h.opened
  refine ⟨by rw [hs, h.sets]; simp [setsOf], hst, by rw [Recorder.stop_eq hr]; rfl,
    by rw [Recorder.stop_eq hr]; simp [h.length], fun l hmem ln' hln' => ?_⟩
  rw [hl] at hmem
  have hsize := hz l hmem ln' hln'
  obtain ⟨ln, hln, hsame⟩ := hd l hmem ln' hln'
  obtain ⟨spans, hspans⟩ := h.lines l hmem ln hln
  rw [Line.getSize, hsame] at hsize
  rw [hsame]
  obtain ⟨b, hb⟩ := hspans.stop sizes hsize h.opened
  exact ⟨_, hb⟩

theorem sampled (h : Tracks c dev r ended pending) (x : ℕ → V)
    (hd : ∀ l ∈ c.lines, ∀ ln', dev'.lines[l]? = some ln' →
      ∃ ln, dev.lines[l]? = some ln ∧ ln' = ln.consume (x l))
    (ha : c.status = .active → ∀ l ∈ c.lines, ∀ ln, dev.lines[l]? = some ln → 0 < ln.active) :
    Tracks c dev' (r.push x) ended pending := by
  refine ⟨h.sets, h.status, by simpa [Recorder.push] using h.opened, h.length,
    fun l hl ln' hln' => ?_⟩
  obtain ⟨ln, hln, rfl⟩ := hd l hl ln' hln'
  obtain ⟨spans, hspans⟩ := h.lines l hl ln hln
  refine ⟨spans, ?_⟩
  rw [Line.consume_data]
  split_ifs with hact
  · exact hspans.push x
  · obtain rfl : pending = none := by
      by_contra hne
      exact hact (ha (h.status_active.mpr (Option.isSome_iff_ne_none.mpr hne)) l hl ln hln)
    exact hspans.idle x

end Tracks

section steps

variable [Zero V] [Add V] {s u : Server V} {e : Event V} {k : ℕ} {ss ss' : Session V}

theorem Session.Tracked.step {r : Recorder (ℕ → V)} (ht : ss.Tracked s.dev r)
    (hw : s.WellFormed) (h : Change s e u) (hk : s.sessions[k]? = some ss)
    (hlive : ss.phase.live = true) (hk' : u.sessions[k]? = some ss')
    (hlive' : ss'.phase.live = true) : ss'.Tracked u.dev (r.record k e) := by
  obtain ⟨ended, pending, ht⟩ := ht
  by_cases hx : ∃ x, e = .sample x
  · obtain ⟨x, rfl⟩ := hx
    obtain rfl : ss' = ss :=
      Option.some.inj (hk'.symm.trans ((h.frame hk).resolve_right fun h => h.1))
    refine ⟨ended, pending, ht.sampled x (fun l _ ln' hln' => ?_) fun hst l hl ln hln => ?_⟩
    · obtain ⟨ln, hln, ⟨y, hy, rfl⟩ | ⟨⟨_, _, hy, _⟩, _⟩ | ⟨hy, _⟩⟩ := h.line hln'
      · obtain rfl := Event.sample.inj hy
        exact ⟨ln, hln, rfl⟩
      · cases hy
      · exact absurd rfl (hy x)
    · rw [hw.active l ln hln]
      exact holders_pos hk (by simp [Session.activates, Counter.activates, hst, hl])
  · have hx : ∀ x, e ≠ .sample x := fun x hx' => hx ⟨x, hx'⟩
    have hlines : ss'.counter.lines = ss.counter.lines := by
      obtain ⟨y, hy, hsame⟩ := h.kept hk
      obtain rfl := Option.some.inj (hk'.symm.trans hy)
      exact hsame.lines
    have hdata : Tracks.SameData ss.counter s.dev u.dev := fun l hl ln' hln' =>
      h.data_kept hw hx hk hlive hk' hlive' hl hln'
    obtain ⟨hsets, hst, hopen, hclose, _⟩ | ⟨sizes, earlier, hst, hst', hsets, _, hd, hz⟩ |
      ⟨sizes, last, hst, hst', hd, hlast, hsets, _, hz⟩ := h.sets hk hk'
    · rw [Recorder.record_refused hx (fun hd => by rw [ht.opened, ← ht.status_active, hopen hd])
        (fun hd => by rw [ht.opened, ht.status_inactive.mp (hclose hd)]; rfl)]
      exact ⟨ended, pending, ht.kept hsets hst hlines hdata⟩
    · obtain rfl := ht.status_inactive.mp hst
      rcases hd with ⟨hd, rfl⟩ | ⟨hd, rfl⟩
      · rw [Recorder.record_start hd]
        exact ⟨[], some sizes, ht.start hsets hst' hlines hz⟩
      · rw [Recorder.record_continue hd]
        exact ⟨ended, some sizes, ht.resume hsets hst' hlines hdata hz⟩
    · obtain ⟨m, rfl⟩ := Option.isSome_iff_exists.mp (ht.status_active.mp hst)
      obtain rfl : (m, none) = last := by
        rw [ht.sets] at hlast
        simpa [setsOf] using hlast
      rw [Recorder.record_stop hd]
      exact ⟨ended ++ [(m, sizes)], none, ht.stop hsets hst' hlines hdata hz⟩

/-- All live registered sessions are in step; sessions to come have recorded nothing. -/
structure Server.Follows (s : Server V) (es : List (Event V)) : Prop where
  later : ∀ k, s.sessions.length ≤ k → recording k es = .empty
  tracked : ∀ (k : ℕ) (ss : Session V), s.sessions[k]? = some ss → ss.phase.live = true →
    ss.counter.registered = true → ss.Tracked s.dev (recording k es)

omit [Zero V] [Add V] in
private theorem Session.Tracked.new (hst : ss.counter.status = .inactive)
    (hs : ss.counter.sets = []) (dev : Device V) : ss.Tracked dev .empty :=
  ⟨[], none, hs, hst, rfl, rfl, fun l _ ln _ => ⟨[], .nil l ln.data⟩⟩

theorem Server.Follows.step {es : List (Event V)} (hf : s.Follows es) (hw : s.WellFormed)
    (h : Change s e u) : u.Follows (es ++ [e]) where
  later k hk := by
    have hlt : s.sessions.length ≤ k := by
      by_contra hlt
      obtain ⟨ss', hk', _⟩ := h.kept (List.getElem?_eq_getElem (Nat.lt_of_not_le hlt))
      have := (List.getElem?_eq_some_iff.mp hk').1
      omega
    have hno : ¬ e.Of k := by
      intro hof
      obtain ⟨ss, hss, _⟩ := h.subject hof
      have := (List.getElem?_eq_some_iff.mp hss).1
      omega
    rw [recording_snoc, hf.later k hlt]
    by_cases hx : ∃ x, e = .sample x
    · obtain ⟨x, rfl⟩ := hx
      rfl
    · exact Recorder.record_refused (fun x hx' => hx ⟨x, hx'⟩)
        (fun hd => absurd (hd.elim (·.of) (·.of)) hno) (fun hd => absurd hd.of hno)
  tracked k ss hk hlive hreg := by
    rw [recording_snoc]
    rcases h.origin hk with ⟨ss₀, h₀⟩ | ⟨⟨op, req, rfl⟩, rfl, hst, hs, _, _⟩
    · obtain ⟨x, hx, hsame⟩ := h.kept h₀
      obtain rfl := Option.some.inj (hk.symm.trans hx)
      have hlive₀ : ss₀.phase.live = true := by
        rcases h.frame h₀ with hu | ⟨_, hl⟩
        · rwa [← Option.some.inj (hk.symm.trans hu)]
        · exact hl
      exact (hf.tracked k ss₀ h₀ hlive₀ (hsame.registered ▸ hreg)).step hw h h₀ hlive₀ hk hlive
    · rw [hf.later _ (Nat.le_refl _)]
      exact .new hst hs u.dev

omit [Zero V] [Add V] in
theorem Server.Initial.follows (hi : s.Initial) : s.Follows [] where
  later k _ := rfl
  tracked k ss hk := by simp [hi.sessions] at hk

theorem Run.follows (ρ : Run V) {es : List (Event V)} {t : Server V}
    (ht : Trace.exec Server.next ρ.start es = .done t) : t.WellFormed ∧ t.Follows es := by
  refine Trace.exec_invariant Server.next (fun es t => t.WellFormed ∧ t.Follows es)
    ⟨ρ.initial.wellFormed, ρ.initial.follows⟩ ?_ ht
  rintro es t e u _ ⟨hw, hf⟩ hn
  have h := next_change hw hn
  exact ⟨h.wellFormed hw, hf.step hw h⟩

end steps

end PMLib
