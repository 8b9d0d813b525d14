import PMLib.Delivery

/-! # Starting and stopping the devices

The server listens when each of its devices has given a sample to its lines. A device that is
stopped leaves its loop after a few steps, however full its queue is. -/
namespace PMLib

variable {V : Type} {Q : Spsc.Queue (ℕ → V)} {items : Q.State → List (ℕ → V)}

namespace Threads

variable {th th' : Threads V Q} {m : Move V} {ms : List (Move V)} {dev : Device V}

theorem Moved.working (h : th.Moved m th') (hw : th.working = true) : th'.working = true := by
  cases h with
  | stepped th' hs =>
    cases hs with
    | works hc => rfl
    | _ => exact hw
  | _ => exact hw

theorem Moved.running (h : th.Moved m th') (hr : th.running = false) : th'.running = false := by
  cases h with
  | stopped => rfl
  | stepped th' hs => cases hs <;> exact hr
  | _ => exact hr

theorem exec_working (h : Trace.exec next th ms = .done th') (hw : th.working = true) :
    th'.working = true :=
  Trace.exec_invariant next (fun _ th => th.working = true) hw
    (fun _ _ _ _ _ hw hn => (next_moved hn).working hw) h

structure Worked (dev : Device V) (ms : List (Move V)) (th : Threads V Q) : Prop where
  pushing : ∀ x rest, th.consumer = .pushing x rest → taken (.boot dev : Threads V Q) ms ≠ []
  works : th.working = true ∨ th.consumer = .announcing →
    taken (.boot dev : Threads V Q) ms ≠ [] ∧ ∀ l : ℕ, dev.lines[l]?.isSome = true →
      visits l (.boot dev : Threads V Q) ms ≠ []

theorem exec_worked (hq : Q.Documented queueCapacity items)
    (h : Trace.exec next (.boot dev : Threads V Q) ms = .done th) : Worked dev ms th := by
  refine Trace.exec_invariant next (fun ms th => Worked dev ms th)
    ⟨by simp [boot], by simp [boot]⟩ ?_ h
  intro ms t m u ht hworked hn
  have hflow := exec_flow hq ht
  have htaken : taken (.boot dev : Threads V Q) (ms ++ [m]) =
      taken (.boot dev : Threads V Q) ms ++ t.takenAt m := taken_snoc ht
  have hvisits : ∀ l, visits l (.boot dev : Threads V Q) (ms ++ [m]) =
      visits l (.boot dev : Threads V Q) ms ++ t.visitsAt l m := fun l => Simulation.viewed_snoc ht
  have hkept : t.working = true ∨ t.consumer = .announcing →
      taken (.boot dev : Threads V Q) (ms ++ [m]) ≠ [] ∧ ∀ l : ℕ, dev.lines[l]?.isSome = true →
        visits l (.boot dev : Threads V Q) (ms ++ [m]) ≠ [] := by
    intro hw
    obtain ⟨hsome, hall⟩ := hworked.works hw
    refine ⟨?_, fun l hl => ?_⟩
    · rw [htaken]
      exact List.append_ne_nil_of_left_ne_nil hsome _
    · rw [hvisits]
      exact List.append_ne_nil_of_left_ne_nil (hall l hl) _
  have hpushing : ∀ x rest, t.consumer = .pushing x rest →
      taken (.boot dev : Threads V Q) (ms ++ [m]) ≠ [] := by
    intro x rest hc
    rw [htaken]
    exact List.append_ne_nil_of_left_ne_nil (hworked.pushing x rest hc) _
  cases next_moved hn with
  | started hc => exact ⟨by simp, fun hw => hkept (.inl (hw.resolve_right (by simp)))⟩
  | stopped | yielded | finished | accessed => exact ⟨hpushing, hkept⟩
  | stepped u hs =>
    cases hs with
    | pops x dataQueue hc hpop =>
      refine ⟨fun y rest heq => ?_, fun hw => hkept (.inl (hw.resolve_right (by simp)))⟩
      rw [htaken]
      refine List.append_ne_nil_of_right_ne_nil _ ?_
      simp [takenAt, queueOpsAt, hc, hpop, Simulation.viewed_singleton, Spsc.takes]
    | waits hc hpop => exact ⟨hpushing, hkept⟩
    | visits x l rest dev' hc hdev =>
      exact ⟨fun _ _ _ => hpushing x _ hc, fun hw => hkept (.inl (hw.resolve_right (by simp)))⟩
    | visited x hc =>
      refine ⟨by simp, fun _ => ⟨hpushing x [] hc, fun l hl => ?_⟩⟩
      have hnone : t.ahead l = [] := by simp [ahead, hc]
      have hsome := hworked.pushing x [] hc
      rw [hflow.flow l hl, hnone, List.append_nil] at hsome
      rw [hvisits]
      exact List.append_ne_nil_of_left_ne_nil hsome _
    | works hc => exact ⟨by simp, fun _ => hkept (.inr hc)⟩
    | leaves hc | reads hc | goesOn hc | stops hc | empties hc | finds hc | confirms hc
    | givesUp hc | ends hc =>
      exact ⟨by simp, fun hw => hkept (.inl (hw.resolve_right (by simp)))⟩

/-- How many steps the thread still has when its device was stopped. -/
def stepsLeft (th : Threads V Q) : ℕ :=
  match th.consumer with
  | .ended => 0
  | .joining => 1
  | .checking => 2
  | .unstarted | .entering | .confirming => 3
  | .draining => 4
  | .announcing => 5
  | .pushing _ rest => 6 + rest.length
  | .popping => 7 + th.dev.lines.size

def samplesLeft (th : Threads V Q) : ℕ :=
  match th.consumer with
  | .popping => 1
  | _ => 0

theorem Stepped.stopped (h : th.Stepped th') (hq : Q.Documented queueCapacity items)
    (hs : th.Sound items) (hr : th.running = false) :
    th'.stepsLeft < th.stepsLeft ∧
      (th.takenAt .step).length + th'.samplesLeft ≤ th.samplesLeft := by
  cases h with
  | goesOn hc hgo | confirms hc hgo => simp [hr] at hgo
  | waits hc hpop => exact absurd (hq.pop_none _ hpop) (hs.pending (.inr hc))
  | pops x dataQueue hc hpop =>
    simp [stepsLeft, samplesLeft, takenAt, queueOpsAt, hc, hpop, Simulation.viewed_singleton,
      Spsc.takes]
  | visits x l rest dev' hc hdev =>
    simp [stepsLeft, samplesLeft, takenAt, queueOpsAt, hc, Simulation.viewed]
  | leaves hc | reads hc | stops hc | empties hc | finds hc | givesUp hc | visited x hc | works hc
  | ends hc => simp [stepsLeft, samplesLeft, takenAt, queueOpsAt, hc, Simulation.viewed]

end Threads

def Move.isStep : Move V → Bool
  | .step => true
  | _ => false

namespace Threads

variable {th th' : Threads V Q} {m : Move V} {ms : List (Move V)} {dev : Device V}

theorem Moved.left (h : th.Moved m th') (hq : Q.Documented queueCapacity items)
    (hs : th.Sound items) (hr : th.running = false) :
    [m].countP Move.isStep + th'.stepsLeft ≤ th.stepsLeft ∧
      (th.takenAt m).length + th'.samplesLeft ≤ th.samplesLeft := by
  cases h with
  | started hc => simp [Move.isStep, stepsLeft, samplesLeft, hc, takenAt, queueOpsAt,
      Simulation.viewed]
  | stopped | finished => exact ⟨(Nat.zero_add _).le, (Nat.zero_add _).le⟩
  | yielded x => simp [Move.isStep, stepsLeft, samplesLeft, takenAt, queueOpsAt,
      Simulation.viewed_singleton, Spsc.takes]
  | accessed l a dev hdev =>
    refine ⟨?_, (Nat.zero_add _).le⟩
    simp [Move.isStep, stepsLeft, withLine_size hdev]
  | stepped th' hstep =>
    obtain ⟨hsteps, hsamples⟩ := hstep.stopped hq hs hr
    refine ⟨?_, hsamples⟩
    simp only [List.countP_singleton, Move.isStep, if_true]
    omega

end Threads

namespace Process

variable {p u : Process V Q} {e : ProcessEvent V} {dn : Name} {es es' : List (ProcessEvent V)}

def Open (p : Process V Q) : Prop := p.main = .listening ∨ 0 < p.accepted

/-- The devices are started in order, and before anything is accepted. -/
structure Ok (p : Process V Q) : Prop where
  early : ∀ i, p.main = .starting i ∨ p.main = .waiting i →
    (∀ (j : ℕ) dn, j < i → p.order[j]? = some dn → p.works dn = true) ∧ p.accepted = 0
  served : p.Open → ∀ dn ∈ p.order, p.works dn = true

theorem works_next (hn : p.next e = .done u) (h : p.works dn = true) : u.works dn = true := by
  obtain ⟨th, hth, hw⟩ := (Option.any_eq_true _ _).mp h
  obtain ⟨th', hth', hexec⟩ := next_devices hn hth
  rw [works_eq hth']
  exact Threads.exec_working hexec hw

theorem Ok.not_open (h : p.Ok) {i : ℕ} (hi : p.main = .starting i ∨ p.main = .waiting i) :
    ¬ p.Open := by
  rintro (hlisten | hpos)
  · rcases hi with hi | hi <;> simp [hi] at hlisten
  · exact absurd (h.early i hi).2 (Nat.pos_iff_ne_zero.mp hpos)

theorem move_kept {m : Move V} (h : p.move dn m = .done u) :
    u.main = p.main ∧ u.order = p.order ∧ u.accepted = p.accepted := by
  obtain ⟨_, _, -, -, rfl⟩ := move_eq_done h
  exact ⟨rfl, rfl, rfl⟩

theorem Ok.main (h : p.Ok) (hn : p.next .main = .done u) : u.Ok ∧ u.order = p.order := by
  have hstep := mainStep_stepped (next_eq_done hn).2
  cases hstep with
  | listens i hm hi =>
    refine ⟨⟨by simp, fun _ dn hdn => ?_⟩, rfl⟩
    obtain ⟨j, hlt, rfl⟩ := List.mem_iff_getElem.mp hdn
    have hlen := List.getElem?_eq_none_iff.mp hi
    exact works_next hn ((h.early i (.inl hm)).1 j _ (hlt.trans_le hlen)
      (List.getElem?_eq_getElem hlt))
  | starts i dn t hm hi hmove =>
    obtain ⟨-, horder, haccepted⟩ := move_kept hmove
    obtain ⟨hworks, hnone⟩ := h.early i (.inl hm)
    refine ⟨⟨fun j hj => ?_, fun hu => ?_⟩, horder⟩
    · obtain rfl : i = j := by simpa using hj
      exact ⟨fun j dn hj hdn => works_next hn (hworks j dn hj (horder ▸ hdn)),
        haccepted.trans hnone⟩
    · have hpos := hu.resolve_left (by simp)
      exact absurd (haccepted.trans hnone) (Nat.pos_iff_ne_zero.mp hpos)
  | works i dn hm hi hw =>
    obtain ⟨hworks, hnone⟩ := h.early i (.inr hm)
    refine ⟨⟨fun j hj => ?_, fun hu => ?_⟩, rfl⟩
    · obtain rfl : i + 1 = j := by simpa using hj
      refine ⟨fun j dn' hj hdn => works_next hn ?_, hnone⟩
      rcases Nat.lt_succ_iff_lt_or_eq.mp hj with hlt | rfl
      · exact hworks j dn' hlt hdn
      · obtain rfl := Option.some.inj (hi.symm.trans hdn)
        exact hw
    · exact absurd (.inr (hu.resolve_left (by simp))) (h.not_open (.inr hm))
  | fails i dn t hm hi hw hmove =>
    obtain ⟨-, horder, haccepted⟩ := move_kept hmove
    refine ⟨⟨by simp, fun hu => ?_⟩, horder⟩
    have hpos := haccepted ▸ hu.resolve_left (by simp)
    exact absurd (.inr hpos) (h.not_open (.inr hm))
  | leaves i hm hi | skips i dn hm hi hw | confirms i hm =>
    refine ⟨⟨by simp, fun hu dn hdn => ?_⟩, rfl⟩
    exact works_next hn (h.served (.inr (hu.resolve_left (by simp))) dn hdn)
  | stops i dn t hm hi hw hmove =>
    obtain ⟨-, horder, haccepted⟩ := move_kept hmove
    refine ⟨⟨by simp, fun hu dn' hdn => ?_⟩, horder⟩
    have hpos := haccepted ▸ hu.resolve_left (by simp)
    exact works_next hn (h.served (.inr hpos) dn' (horder ▸ hdn))

theorem Ok.still {m : Move V} (h : p.Ok) (hn : p.next e = .done u) (hmove : p.move dn m = .done u) :
    u.Ok ∧ u.order = p.order := by
  obtain ⟨hmain, horder, haccepted⟩ := move_kept hmove
  refine ⟨⟨fun i hi => ?_, fun hu dn hdn => ?_⟩, horder⟩
  · rw [hmain] at hi
    obtain ⟨hworks, hnone⟩ := h.early i hi
    exact ⟨fun j dn hj hdn => works_next hn (hworks j dn hj (horder ▸ hdn)),
      haccepted.trans hnone⟩
  · rw [Open, hmain, haccepted] at hu
    exact works_next hn (h.served hu dn (horder ▸ hdn))

theorem Ok.next (h : p.Ok) (hn : p.next e = .done u) : u.Ok ∧ u.order = p.order := by
  have hact := (next_eq_done hn).2
  cases e with
  | main => exact h.main hn
  | refused =>
    simp only [act] at hact
    split_ifs at hact with hm
    obtain rfl := Outcome.done.inj hact
    refine ⟨⟨by simp, fun hu => ?_⟩, rfl⟩
    exact absurd (.inr (hu.resolve_left (by simp))) (h.not_open (.inl hm))
  | interrupt =>
    simp only [act] at hact
    split_ifs at hact with hm
    obtain rfl := Outcome.done.inj hact
    exact ⟨⟨by simp, fun _ dn hdn => works_next hn (h.served (.inl hm) dn hdn)⟩, rfl⟩
  | accept =>
    simp only [act] at hact
    split_ifs at hact with hm
    obtain rfl := Outcome.done.inj hact
    exact ⟨⟨by simp [hm], fun _ dn hdn => works_next hn (h.served (.inl hm) dn hdn)⟩, rfl⟩
  | yield name x | finish name | consumer name => exact h.still hn hact
  | access name l a =>
    simp only [act] at hact
    split_ifs at hact
    exact h.still hn hact

variable {register : Name → Option Driver} {text : Json → List Byte} {takesDisk : DiskCheck}
  {conf : Json} {dev₀ : Device V}

theorem configured_ok : (configured Q register text takesDisk conf).Ok where
  early i hi := by
    refine ⟨fun j dn hj => ?_, rfl⟩
    simp only [configured, boot] at hi
    split_ifs at hi
    · simp at hi
    · obtain rfl : 0 = i := by simpa using hi
      omega
  served hopen := by
    simp only [Open, configured, boot] at hopen
    split_ifs at hopen <;> simp at hopen

theorem mem_order
    (hdev : (parseConfigfile (V := V) register text takesDisk conf)[dn]? = some dev₀) :
    dn ∈ (configured Q register text takesDisk conf).order := by
  have hin : dn ∈ (parseConfigfile (V := V) register text takesDisk conf) := by
    rw [Std.TreeMap.mem_iff_isSome_getElem?, hdev]
    rfl
  have hsome : ¬ (parseConfigfile (V := V) register text takesDisk conf).isEmpty = true :=
    fun hempty => Std.TreeMap.not_mem_of_isEmpty hempty hin
  have hkeys : (configured Q register text takesDisk conf).order =
      (parseConfigfile (V := V) register text takesDisk conf).keys := if_neg hsome
  rw [hkeys]
  exact Std.TreeMap.mem_keys.mpr hin

/-- The server listens, and clients are accepted, when each of the configured devices has taken a
sample of its driver from its queue and given it to all of its lines. -/
theorem served_when_working (hq : Q.Documented queueCapacity items)
    (h : Trace.exec next (configured Q register text takesDisk conf) es = .done p) (hopen : p.Open)
    (hdev : (parseConfigfile register text takesDisk conf)[dn]? = some dev₀) :
    let ms := moves dn (configured Q register text takesDisk conf) es
    let booted : Threads V Q := .boot dev₀
    ∃ x, [x] <+: booted.queued items ms ∧ [x] <+: booted.taken ms ∧
      ∀ l : ℕ, dev₀.lines[l]?.isSome = true → [x] <+: booted.visits l ms := by
  intro ms booted
  have hinv : p.Ok ∧ p.order = (configured Q register text takesDisk conf).order := by
    refine Trace.exec_invariant next (fun _ p => p.Ok ∧
      p.order = (configured Q register text takesDisk conf).order) ⟨configured_ok, rfl⟩ ?_ h
    rintro es t e u - ⟨hok, horder⟩ hn
    obtain ⟨hok', horder'⟩ := hok.next hn
    exact ⟨hok', horder'.trans horder⟩
  obtain ⟨th, hth, hexec, hflow⟩ := exec_device hq hdev h
  have hworks := hinv.1.served hopen dn (hinv.2 ▸ mem_order hdev)
  rw [works_eq hth] at hworks
  obtain ⟨hsome, hall⟩ := (Threads.exec_worked hq hexec).works (.inl hworks)
  obtain ⟨x, more, htaken⟩ := List.exists_cons_of_ne_nil hsome
  have hfirst : [x] <+: booted.taken ms := ⟨more, htaken.symm⟩
  refine ⟨x, ?_, hfirst, fun l hl => ?_⟩
  · rw [Threads.queued_eq hq hexec]
    exact hfirst.trans (List.prefix_append _ _)
  · rw [hflow.flow l hl] at hfirst
    exact List.prefix_of_prefix_length_le hfirst (List.prefix_append _ _)
      (List.length_pos_of_ne_nil (hall l hl))

theorem served_when_working_meter : ∃ (dev₀ : Device ℤ) (p : Process ℤ Queued),
    let ms := moves (ascii "meter") bothDevices comesUp
    let booted : Threads ℤ Queued := .boot dev₀
    Trace.exec next bothDevices comesUp = .done p ∧ p.accepted = 1 ∧
      dev₀.lines[3]?.isSome = true ∧ ∃ x, [x] <+: booted.queued id ms ∧
        [x] <+: booted.visits 3 ms := by
  have hsome : ((parseConfigfile (V := ℤ) deviceRegister (fun _ => []) anyDisk meterAndOutlet)[
    ascii "meter"]?.any fun dev => dev.lines[3]?.isSome) = true := by decide +kernel
  obtain ⟨dev₀, hdev, hl⟩ := (Option.any_eq_true _ _).mp hsome
  have hrun : (Trace.exec next bothDevices comesUp).check (fun p => p.accepted == 1) = true := by
    decide +kernel
  obtain ⟨p, h, hp⟩ := Outcome.check_eq_true.mp hrun
  have hone := eq_of_beq hp
  obtain ⟨x, hqueued, -, hvisits⟩ := served_when_working
    (Spsc.listQueue_documented queueCapacity) h (.inr (by omega)) hdev
  exact ⟨dev₀, p, h, hone, hl, x, hqueued, hvisits 3 hl⟩

end Process

end PMLib
