import PMLib.Process

/-! # From the driver to the lines

A sample goes from the thread of its driver through the queue to the lines of the device. Nobody
waits for anybody on the way, and of what finds room in the queue each line gets everything. -/
namespace PMLib

variable {V : Type} {Q : Spsc.Queue (ℕ → V)}

theorem Access.apply_data {a : Access} (ha : a ≠ .clearData) (ln : Line V) :
    (a.apply ln).data = ln.data := by
  cases a with
  | enable | activate => rfl
  | disable =>
    show ln.disable.data = ln.data
    unfold Line.disable
    split_ifs <;> rfl
  | clearData => exact absurd rfl ha
  | deactivate => exact ln.deactivate_data

namespace Threads

inductive Stepped (th : Threads V Q) : Threads V Q → Prop where
  | leaves : th.consumer = .entering → Stepped th { th with consumer := .ended }
  | reads : th.consumer = .entering →
      Stepped th { th with reader := .reading, consumer := .checking }
  | goesOn : th.consumer = .checking → th.running = true →
      Stepped th { th with consumer := .draining }
  | stops : th.consumer = .checking → th.running = false →
      Stepped th { th with consumer := .joining }
  | empties : th.consumer = .draining → Stepped th { th with consumer := .checking }
  | finds : th.consumer = .draining → Q.isEmpty th.dataQueue = false →
      Stepped th { th with consumer := .confirming }
  | confirms : th.consumer = .confirming → th.running = true →
      Stepped th { th with consumer := .popping }
  | givesUp : th.consumer = .confirming → Stepped th { th with consumer := .checking }
  | pops (x : ℕ → V) (dataQueue : Q.State) : th.consumer = .popping →
      Q.pop th.dataQueue = some (x, dataQueue) →
      Stepped th { th with dataQueue, consumer := .pushing x th.dev.lines.keys }
  | waits : th.consumer = .popping → Q.pop th.dataQueue = none → Stepped th th
  | visits (x : ℕ → V) (l : ℕ) (rest : List ℕ) (dev : Device V) :
      th.consumer = .pushing x (l :: rest) →
      th.dev.withLine l (fun ln => ln.consume (x l)) = .done dev →
      Stepped th { th with dev, consumer := .pushing x rest }
  | visited (x : ℕ → V) : th.consumer = .pushing x [] →
      Stepped th { th with consumer := .announcing }
  | works : th.consumer = .announcing →
      Stepped th { th with working := true, consumer := .draining }
  | ends : th.consumer = .joining → Stepped th { th with consumer := .ended }

variable {th th' : Threads V Q} {m : Move V} {l : ℕ}

theorem step_stepped (h : th.step = .done th') : th.Stepped th' := by
  unfold step at h
  cases hc : th.consumer with
  | unstarted | ended => simp [hc] at h
  | entering =>
    simp only [hc] at h
    split_ifs at h <;> obtain rfl := Outcome.done.inj h
    · exact .leaves hc
    · exact .reads hc
  | checking =>
    simp only [hc] at h
    split_ifs at h with hr <;> obtain rfl := Outcome.done.inj h
    · exact .goesOn hc hr
    · exact .stops hc (by simpa using hr)
  | draining =>
    simp only [hc] at h
    split_ifs at h with he <;> obtain rfl := Outcome.done.inj h
    · exact .empties hc
    · exact .finds hc (by simpa using he)
  | confirming =>
    simp only [hc] at h
    split_ifs at h with hr <;> obtain rfl := Outcome.done.inj h
    · exact .confirms hc hr
    · exact .givesUp hc
  | popping =>
    simp only [hc] at h
    split at h <;> obtain rfl := Outcome.done.inj h
    · next x dataQueue hpop => exact .pops x dataQueue hc hpop
    · next hpop => exact .waits hc hpop
  | pushing x rest =>
    cases rest with
    | nil =>
      simp only [hc] at h
      obtain rfl := Outcome.done.inj h
      exact .visited x hc
    | cons l rest =>
      simp only [hc] at h
      obtain ⟨dev, hdev, h⟩ := Outcome.bind_eq_done.mp h
      obtain rfl := Outcome.done.inj h
      exact .visits x l rest dev hc hdev
  | announcing =>
    simp only [hc] at h
    obtain rfl := Outcome.done.inj h
    exact .works hc
  | joining =>
    simp only [hc] at h
    split_ifs at h
    obtain rfl := Outcome.done.inj h
    exact .ends hc

inductive Moved (th : Threads V Q) : Move V → Threads V Q → Prop where
  | started : th.consumer = .unstarted → Moved th .start { th with consumer := .entering }
  | stopped : Moved th .stop th.stop
  | yielded (x : ℕ → V) : Moved th (.yield x) { th with dataQueue := Q.push th.dataQueue x }
  | finished : Moved th .finish { th with reader := .returned }
  | stepped (th' : Threads V Q) : th.Stepped th' → Moved th .step th'
  | accessed (l : ℕ) (a : Access) (dev : Device V) : th.dev.withLine l a.apply = .done dev →
      Moved th (.access l a) { th with dev }

theorem next_moved (h : th.next m = .done th') : th.Moved m th' := by
  cases m with
  | start =>
    simp only [next, start] at h
    split at h
    · next hc =>
      obtain rfl := Outcome.done.inj h
      exact .started hc
    · cases h
  | stop =>
    obtain rfl := Outcome.done.inj h
    exact .stopped
  | yield x =>
    simp only [next, yield] at h
    split_ifs at h
    obtain rfl := Outcome.done.inj h
    exact .yielded x
  | finish =>
    simp only [next, finish] at h
    split_ifs at h
    obtain rfl := Outcome.done.inj h
    exact .finished
  | step => exact .stepped th' (step_stepped h)
  | access l a =>
    obtain ⟨dev, hdev, h⟩ := Outcome.bind_eq_done.mp h
    obtain rfl := Outcome.done.inj h
    exact .accessed l a dev hdev

/-! ## What is counted -/

def queueOpsAt (th : Threads V Q) : Move V → List (Spsc.Op (ℕ → V))
  | .yield x => [.push x]
  | .step =>
    match th.consumer with
    | .popping => if (Q.pop th.dataQueue).isSome then [.pop] else []
    | _ => []
  | _ => []

def queueOps (th : Threads V Q) (ms : List (Move V)) : List (Spsc.Op (ℕ → V)) :=
  Simulation.viewed next queueOpsAt th ms

/-- What the driver has measured, what of it has found room in the queue, and what was taken from
there. -/
def measured (ms : List (Move V)) : List (ℕ → V) :=
  ms.flatMap fun
    | .yield x => [x]
    | _ => []

def queued (items : Q.State → List (ℕ → V)) (th : Threads V Q) (ms : List (Move V)) :
    List (ℕ → V) :=
  Simulation.viewed (Spsc.next Q) (Spsc.accepts items queueCapacity) th.dataQueue (th.queueOps ms)

def taken (th : Threads V Q) (ms : List (Move V)) : List (ℕ → V) :=
  Simulation.viewed (Spsc.next Q) (Spsc.takes Q) th.dataQueue (th.queueOps ms)

def visitsAt (l : ℕ) (th : Threads V Q) : Move V → List (ℕ → V)
  | .step =>
    match th.consumer with
    | .pushing x (l' :: _) => if l' = l then [x] else []
    | _ => []
  | _ => []

def visits (l : ℕ) (th : Threads V Q) (ms : List (Move V)) : List (ℕ → V) :=
  Simulation.viewed next (visitsAt l) th ms

/-- The sample that was taken from the queue and has still to visit line `l`. -/
def ahead (th : Threads V Q) (l : ℕ) : List (ℕ → V) :=
  match th.consumer with
  | .pushing x rest => if l ∈ rest then [x] else []
  | _ => []

/-! ## One move -/

theorem withLine_isSome {dev dev' : Device V} {j : ℕ} {f : Line V → Line V}
    (h : dev.withLine j f = .done dev') (l : ℕ) :
    dev'.lines[l]?.isSome = dev.lines[l]?.isSome := by
  rw [(Device.withLine_spec h).2, Option.isSome_map]

theorem withLine_size {dev dev' : Device V} {j : ℕ} {f : Line V → Line V}
    (h : dev.withLine j f = .done dev') : dev'.lines.size = dev.lines.size := by
  obtain ⟨ln, -, h⟩ := Outcome.bind_eq_done.mp h
  obtain rfl := Outcome.done.inj h
  exact Std.TreeMap.size_modify

theorem Moved.isSome (h : th.Moved m th') (l : ℕ) :
    th'.dev.lines[l]?.isSome = th.dev.lines[l]?.isSome := by
  cases h with
  | stepped th' hs =>
    cases hs with
    | visits x j rest dev hc hdev => exact withLine_isSome hdev l
    | _ => rfl
  | accessed j a dev hdev => exact withLine_isSome hdev l
  | _ => rfl

theorem Moved.size (h : th.Moved m th') : th'.dev.lines.size = th.dev.lines.size := by
  cases h with
  | stepped th' hs =>
    cases hs with
    | visits x j rest dev hc hdev => exact withLine_size hdev
    | _ => rfl
  | accessed j a dev hdev => exact withLine_size hdev
  | _ => rfl

/-- A queue that was found to have something in it still has it, and a sample visits each line
once. -/
structure Sound (items : Q.State → List (ℕ → V)) (th : Threads V Q) : Prop where
  pending : th.consumer = .confirming ∨ th.consumer = .popping → items th.dataQueue ≠ []
  pass : ∀ x rest, th.consumer = .pushing x rest →
    rest.Nodup ∧ rest.length ≤ th.dev.lines.size

variable {items : Q.State → List (ℕ → V)}

theorem sound_boot (dev : Device V) : (boot dev : Threads V Q).Sound items :=
  ⟨by simp [boot], by simp [boot]⟩

theorem Sound.pop (h : th.Sound items) (hq : Q.Documented queueCapacity items)
    (hc : th.consumer = .popping) : ∃ x dataQueue, Q.pop th.dataQueue = some (x, dataQueue) := by
  cases hpop : Q.pop th.dataQueue with
  | none => exact absurd (hq.pop_none _ hpop) (h.pending (.inr hc))
  | some taken => exact ⟨taken.1, taken.2, rfl⟩

theorem push_ne_nil (hq : Q.Documented queueCapacity items) (q : Q.State) (x : ℕ → V) :
    items (Q.push q x) ≠ [] := by
  rcases Nat.lt_or_ge (items q).length queueCapacity with hroom | hfull
  · rw [hq.push_room q x hroom]
    exact List.concat_ne_nil x _
  · rw [hq.push_full q x hfull]
    intro hnil
    rw [hnil, List.length_nil] at hfull
    exact absurd hfull (by decide)

theorem Sound.stepped (h : th.Sound items) (hq : Q.Documented queueCapacity items)
    (hs : th.Stepped th') : th'.Sound items := by
  cases hs with
  | finds hc he => exact ⟨fun _ => hq.isEmpty_false _ he, by simp⟩
  | confirms hc hr => exact ⟨fun _ => h.pending (.inl hc), by simp⟩
  | pops x dataQueue hc hpop =>
    refine ⟨by simp, fun y rest heq => ?_⟩
    obtain ⟨-, rfl⟩ := Consumer.pushing.inj heq
    exact ⟨Std.TreeMap.nodup_keys, Std.TreeMap.length_keys.le⟩
  | waits hc hpop => exact h
  | visits x l rest dev hc hdev =>
    refine ⟨by simp, fun y rest' heq => ?_⟩
    obtain ⟨-, rfl⟩ := Consumer.pushing.inj heq
    obtain ⟨hnodup, hlen⟩ := h.pass x _ hc
    refine ⟨(List.nodup_cons.mp hnodup).2, ?_⟩
    rw [withLine_size hdev]
    exact (Nat.le_succ _).trans hlen
  | _ => exact ⟨by simp, by simp⟩

theorem Sound.moved (h : th.Sound items) (hq : Q.Documented queueCapacity items)
    (hm : th.Moved m th') : th'.Sound items := by
  have hsize := hm.size
  cases hm with
  | started hc => exact ⟨by simp, by simp⟩
  | stopped | finished => exact ⟨h.pending, h.pass⟩
  | yielded x => exact ⟨fun _ => push_ne_nil hq _ x, h.pass⟩
  | stepped th' hs => exact h.stepped hq hs
  | accessed l a dev hdev =>
    exact ⟨h.pending, fun x rest hc => ⟨(h.pass x rest hc).1, hsize ▸ (h.pass x rest hc).2⟩⟩

theorem Moved.queue (h : th.Moved m th') :
    Trace.exec (Spsc.next Q) th.dataQueue (th.queueOpsAt m) = .done th'.dataQueue := by
  cases h with
  | yielded x => exact Trace.exec_singleton (Spsc.next Q) _ _
  | stepped th' hs =>
    cases hs with
    | pops x dataQueue hc hpop => simp [queueOpsAt, hc, hpop, Spsc.next]
    | waits hc hpop => simp [queueOpsAt, hc, hpop]
    | leaves hc | reads hc | goesOn hc | stops hc | empties hc | finds hc | confirms hc
    | givesUp hc | visited x hc | works hc | ends hc => simp [queueOpsAt, hc]
    | visits x l rest dev hc hdev => simp [queueOpsAt, hc]
  | _ => rfl

def takenAt (th : Threads V Q) (m : Move V) : List (ℕ → V) :=
  Simulation.viewed (Spsc.next Q) (Spsc.takes Q) th.dataQueue (th.queueOpsAt m)

theorem Stepped.ahead (h : th.Stepped th') (hs : th.Sound items)
    (hl : th.dev.lines[l]?.isSome = true) :
    th.ahead l ++ th.takenAt .step = th.visitsAt l .step ++ th'.ahead l := by
  cases h with
  | pops x dataQueue hc hpop =>
    have hmem : l ∈ th.dev.lines.keys := by
      rwa [Std.TreeMap.mem_keys, Std.TreeMap.mem_iff_isSome_getElem?]
    simp [ahead, takenAt, visitsAt, queueOpsAt, hc, hpop, hmem, Simulation.viewed_singleton,
      Spsc.takes]
  | waits hc hpop => simp [ahead, takenAt, visitsAt, queueOpsAt, hc, hpop, Simulation.viewed]
  | visits x j rest dev hc hdev =>
    have hnot := (List.nodup_cons.mp (hs.pass x _ hc).1).1
    by_cases hj : j = l
    · subst hj
      simp [ahead, takenAt, visitsAt, queueOpsAt, hc, hnot, Simulation.viewed]
    · simp [ahead, takenAt, visitsAt, queueOpsAt, hc, hj, Ne.symm hj, Simulation.viewed]
  | leaves hc | reads hc | goesOn hc | stops hc | empties hc | finds hc | confirms hc
  | givesUp hc | visited x hc | works hc | ends hc =>
    simp [ahead, takenAt, visitsAt, queueOpsAt, hc, Simulation.viewed]

theorem Moved.ahead (h : th.Moved m th') (hs : th.Sound items)
    (hl : th.dev.lines[l]?.isSome = true) :
    th.ahead l ++ th.takenAt m = th.visitsAt l m ++ th'.ahead l := by
  cases h with
  | started hc => simp [Threads.ahead, takenAt, visitsAt, queueOpsAt, hc, Simulation.viewed]
  | stopped | finished | accessed => exact List.append_nil _
  | yielded x =>
    have hnone : th.takenAt (.yield x) = [] := by
      simp [takenAt, queueOpsAt, Simulation.viewed_singleton, Spsc.takes]
    rw [hnone]
    exact List.append_nil _
  | stepped th' hstep => exact hstep.ahead hs hl

theorem Moved.data (h : th.Moved m th') {ln : Line V} (hl : th.dev.lines[l]? = some ln)
    (hactive : ln.isActive = true) (hm : m ≠ .access l .clearData) :
    ∃ ln', th'.dev.lines[l]? = some ln' ∧
      ln'.data = ln.data ++ (th.visitsAt l m).map fun x => x l := by
  cases h with
  | started | stopped | yielded | finished => exact ⟨ln, hl, (List.append_nil _).symm⟩
  | accessed j a dev hdev =>
    rw [(Device.withLine_spec hdev).2, hl]
    refine ⟨_, rfl, ?_⟩
    have hkept : (if l = j then a.apply ln else ln).data = ln.data := by
      split_ifs with hj
      · subst hj
        exact Access.apply_data (fun ha => hm (by rw [ha])) ln
      · rfl
    exact hkept.trans (List.append_nil _).symm
  | stepped th' hs =>
    cases hs with
    | visits x j rest dev hc hdev =>
      rw [(Device.withLine_spec hdev).2, hl]
      refine ⟨_, rfl, ?_⟩
      by_cases hj : l = j
      · subst hj
        simp [visitsAt, hc, Line.consume, hactive, Line.pushBackData]
      · simp [visitsAt, hc, hj, Ne.symm hj]
    | leaves hc | reads hc | goesOn hc | stops hc | empties hc | finds hc | confirms hc
    | givesUp hc | pops x dataQueue hc hpop | waits hc hpop | visited x hc | works hc | ends hc =>
      exact ⟨ln, hl, by simp [visitsAt, hc]⟩

/-- A sample whose visits nobody interrupts does what `push_back_data` does to the device. -/
theorem exec_pass {x : ℕ → V} (hc : th.consumer = .pushing x th.dev.lines.keys) : ∃ dev,
    Trace.exec next th (List.replicate th.dev.lines.size .step) =
      .done { th with dev, consumer := .pushing x [] } ∧
    ∀ l : ℕ, dev.lines[l]? = (th.dev.pushBackData x).lines[l]? := by
  obtain ⟨dev, hdev, hlines⟩ := th.dev.exists_pass x
  refine ⟨dev, ?_, hlines⟩
  have hexec := Trace.exec_replicate next (e := .step)
    (fun rest dev => { th with dev, consumer := .pushing x rest })
    (fun ha => Outcome.bind_eq_done.mpr ⟨_, ha, rfl⟩) hdev
  rwa [Std.TreeMap.length_keys, ← hc] at hexec

/-! ## Runs -/

structure Flow (items : Q.State → List (ℕ → V)) (dev : Device V) (ms : List (Move V))
    (th : Threads V Q) : Prop where
  sound : th.Sound items
  present : ∀ l : ℕ, th.dev.lines[l]?.isSome = dev.lines[l]?.isSome
  flow : ∀ l : ℕ, dev.lines[l]?.isSome = true →
    taken (.boot dev : Threads V Q) ms = visits l (.boot dev : Threads V Q) ms ++ th.ahead l

theorem exec_queueOps {th₀ : Threads V Q} {ms : List (Move V)}
    (h : Trace.exec next th₀ ms = .done th) :
    Trace.exec (Spsc.next Q) th₀.dataQueue (th₀.queueOps ms) = .done th.dataQueue := by
  refine Trace.exec_invariant next (fun ms th =>
    Trace.exec (Spsc.next Q) th₀.dataQueue (th₀.queueOps ms) = .done th.dataQueue) rfl ?_ h
  intro ms t m u ht hqueue hn
  rw [queueOps, Simulation.viewed_snoc ht]
  exact (Trace.exec_append_eq_done (Spsc.next Q)).mpr ⟨_, hqueue, (next_moved hn).queue⟩

theorem taken_snoc {th₀ : Threads V Q} {ms : List (Move V)}
    (h : Trace.exec next th₀ ms = .done th) :
    th₀.taken (ms ++ [m]) = th₀.taken ms ++ th.takenAt m := by
  rw [taken, queueOps, Simulation.viewed_snoc h]
  exact Simulation.viewed_append (exec_queueOps h)

theorem exec_flow (hq : Q.Documented queueCapacity items) {dev : Device V} {ms : List (Move V)}
    (h : Trace.exec next (.boot dev : Threads V Q) ms = .done th) : Flow items dev ms th := by
  refine Trace.exec_invariant next (fun ms th => Flow items dev ms th)
    ⟨sound_boot dev, fun _ => rfl, fun _ _ => rfl⟩ ?_ h
  intro ms t m u ht hflow hn
  have hmoved := next_moved hn
  refine ⟨hflow.sound.moved hq hmoved, fun l => ?_, fun l hl => ?_⟩
  · rw [hmoved.isSome, hflow.present]
  · have hvisits : visits l (.boot dev : Threads V Q) (ms ++ [m]) =
        visits l (.boot dev : Threads V Q) ms ++ t.visitsAt l m := Simulation.viewed_snoc ht
    rw [taken_snoc ht, hvisits, hflow.flow l hl, List.append_assoc,
      hmoved.ahead hflow.sound (by rw [hflow.present, hl]), List.append_assoc]

theorem queued_eq (hq : Q.Documented queueCapacity items) {dev : Device V} {ms : List (Move V)}
    (h : Trace.exec next (.boot dev : Threads V Q) ms = .done th) :
    (boot dev : Threads V Q).queued items ms =
      (boot dev : Threads V Q).taken ms ++ items th.dataQueue := by
  have hall := Spsc.run_conserves hq (exec_queueOps h)
  rwa [show (boot dev : Threads V Q).dataQueue = Q.empty from rfl, hq.empty,
    List.nil_append] at hall

end Threads

/-! ## Among the other devices -/

namespace Process

variable {p u : Process V Q} {e : ProcessEvent V} {es es' : List (ProcessEvent V)} {dn name : Name}
  {th : Threads V Q} {m : Move V}

def works (p : Process V Q) (dn : Name) : Bool := p.devices[dn]?.any fun th => th.working

def movesAt (dn : Name) (p : Process V Q) : ProcessEvent V → List (Move V)
  | .main =>
    match p.main with
    | .starting i => if p.order[i]? = some dn then [.start] else []
    | .waiting i => if p.order[i]? = some dn ∧ p.works dn = false then [.stop] else []
    | .stopping i => if p.order[i]? = some dn ∧ p.works dn = true then [.stop] else []
    | _ => []
  | .yield name x => if name = dn then [.yield x] else []
  | .finish name => if name = dn then [.finish] else []
  | .consumer name => if name = dn then [.step] else []
  | .access name l a => if name = dn then [.access l a] else []
  | _ => []

def moves (dn : Name) (p : Process V Q) (es : List (ProcessEvent V)) : List (Move V) :=
  Simulation.viewed next (movesAt dn) p es

inductive MainStepped (p : Process V Q) : Process V Q → Prop where
  | listens (i : ℕ) : p.main = .starting i → p.order[i]? = none →
      MainStepped p { p with main := .listening }
  | starts (i : ℕ) (dn : Name) (t : Process V Q) : p.main = .starting i →
      p.order[i]? = some dn → p.move dn .start = .done t →
      MainStepped p { t with main := .waiting i }
  | works (i : ℕ) (dn : Name) : p.main = .waiting i → p.order[i]? = some dn →
      p.works dn = true → MainStepped p { p with main := .starting (i + 1) }
  | fails (i : ℕ) (dn : Name) (t : Process V Q) : p.main = .waiting i → p.order[i]? = some dn →
      p.works dn = false → p.move dn .stop = .done t → MainStepped p { t with main := .exited }
  | leaves (i : ℕ) : p.main = .stopping i → p.order[i]? = none →
      MainStepped p { p with main := .ended }
  | stops (i : ℕ) (dn : Name) (t : Process V Q) : p.main = .stopping i → p.order[i]? = some dn →
      p.works dn = true → p.move dn .stop = .done t → MainStepped p { t with main := .confirming i }
  | skips (i : ℕ) (dn : Name) : p.main = .stopping i → p.order[i]? = some dn →
      p.works dn = false → MainStepped p { p with main := .stopping (i + 1) }
  | confirms (i : ℕ) : p.main = .confirming i →
      MainStepped p { p with main := .stopping (i + 1) }

theorem works_eq (h : p.devices[dn]? = some th) : p.works dn = th.working := by
  rw [works, h]
  rfl

theorem mainStep_stepped (h : p.mainStep = .done u) : MainStepped p u := by
  unfold mainStep at h
  cases hm : p.main with
  | listening | ended | exited => simp [hm] at h
  | starting i =>
    cases hi : p.order[i]? with
    | none =>
      simp only [hm, hi] at h
      obtain rfl := Outcome.done.inj h
      exact .listens i hm hi
    | some dn =>
      simp only [hm, hi] at h
      obtain ⟨t, ht, h⟩ := Outcome.bind_eq_done.mp h
      obtain rfl := Outcome.done.inj h
      exact .starts i dn t hm hi ht
  | waiting i =>
    simp only [hm] at h
    obtain ⟨dn, hdn, h⟩ := Outcome.bind_eq_done.mp h
    obtain ⟨th, hth, h⟩ := Outcome.bind_eq_done.mp h
    have hi := Outcome.ofOption_eq_done.mp hdn
    have hworks := works_eq (Outcome.ofOption_eq_done.mp hth)
    split_ifs at h with hw
    · obtain rfl := Outcome.done.inj h
      exact .works i dn hm hi (hworks.trans hw)
    · obtain ⟨t, ht, h⟩ := Outcome.bind_eq_done.mp h
      obtain rfl := Outcome.done.inj h
      exact .fails i dn t hm hi (by simpa [hworks] using hw) ht
  | stopping i =>
    cases hi : p.order[i]? with
    | none =>
      simp only [hm, hi] at h
      obtain rfl := Outcome.done.inj h
      exact .leaves i hm hi
    | some dn =>
      simp only [hm, hi] at h
      obtain ⟨th, hth, h⟩ := Outcome.bind_eq_done.mp h
      have hworks := works_eq (Outcome.ofOption_eq_done.mp hth)
      split_ifs at h with hw
      · obtain ⟨t, ht, h⟩ := Outcome.bind_eq_done.mp h
        obtain rfl := Outcome.done.inj h
        exact .stops i dn t hm hi (hworks.trans hw) ht
      · obtain rfl := Outcome.done.inj h
        exact .skips i dn hm hi (by simpa [hworks] using hw)
  | confirming i =>
    simp only [hm] at h
    obtain rfl := Outcome.done.inj h
    exact .confirms i hm

theorem next_eq_done (h : p.next e = .done u) : p.main.over = false ∧ p.act e = .done u := by
  unfold next at h
  split_ifs at h with hover
  exact ⟨by simpa using hover, h⟩

theorem move_eq_done (h : p.move name m = .done u) :
    ∃ th th', p.devices[name]? = some th ∧ th.next m = .done th' ∧
      u = { p with devices := p.devices.insert name th' } := by
  obtain ⟨th, hth, h⟩ := Outcome.bind_eq_done.mp h
  obtain ⟨th', hth', h⟩ := Outcome.bind_eq_done.mp h
  exact ⟨th, th', Outcome.ofOption_eq_done.mp hth, hth', (Outcome.done.inj h).symm⟩

theorem move_devices (h : p.move name m = .done u) (ht : p.devices[dn]? = some th) :
    ∃ th', u.devices[dn]? = some th' ∧
      Trace.exec Threads.next th (if name = dn then [m] else []) = .done th' := by
  obtain ⟨th₁, th', hth₁, hth', rfl⟩ := move_eq_done h
  simp only [Std.TreeMap.getElem?_insert, Std.compare_eq_iff_eq]
  split_ifs with hname
  · subst hname
    obtain rfl := Option.some.inj (hth₁.symm.trans ht)
    exact ⟨th', rfl, (Trace.exec_singleton Threads.next _ _).trans hth'⟩
  · exact ⟨th, ht, rfl⟩

theorem next_devices (hn : p.next e = .done u) (ht : p.devices[dn]? = some th) :
    ∃ th', u.devices[dn]? = some th' ∧
      Trace.exec Threads.next th (movesAt dn p e) = .done th' := by
  obtain ⟨-, hn⟩ := next_eq_done hn
  cases e with
  | main =>
    cases mainStep_stepped hn with
    | listens i hm hi | leaves i hm hi => exact ⟨th, ht, by simp [movesAt, hm, hi]⟩
    | works i name hm hi hw | skips i name hm hi hw =>
      refine ⟨th, ht, ?_⟩
      have hnone : movesAt dn p .main = [] := by
        simp only [movesAt, hm, hi, Option.some.injEq, ite_eq_right_iff]
        rintro ⟨rfl, hno⟩
        simp [hw] at hno
      rw [hnone]
      rfl
    | confirms i hm => exact ⟨th, ht, by simp [movesAt, hm]⟩
    | starts i name t hm hi hmove =>
      simpa [movesAt, hm, hi] using move_devices hmove ht
    | fails i name t hm hi hw hmove | stops i name t hm hi hw hmove =>
      have hmoves : movesAt dn p .main = if name = dn then [.stop] else [] := by
        simp only [movesAt, hm, hi, Option.some.injEq]
        by_cases hname : name = dn
        · simp [← hname, hw]
        · simp [hname]
      obtain ⟨th', hth', hexec⟩ := move_devices hmove ht
      exact ⟨th', hth', hmoves ▸ hexec⟩
  | refused | interrupt | accept =>
    simp only [act] at hn
    split_ifs at hn
    obtain rfl := Outcome.done.inj hn
    exact ⟨th, ht, rfl⟩
  | yield name x | finish name | consumer name => exact move_devices hn ht
  | access name l a =>
    simp only [act] at hn
    split_ifs at hn
    exact move_devices hn ht

/-- The threads of a device make their moves, whatever the others do. -/
theorem exec_moves (h : Trace.exec next p es = .done u) (ht : p.devices[dn]? = some th) :
    ∃ th', u.devices[dn]? = some th' ∧
      Trace.exec Threads.next th (moves dn p es) = .done th' := by
  refine Trace.exec_invariant next (fun es u => ∃ th', u.devices[dn]? = some th' ∧
    Trace.exec Threads.next th (moves dn p es) = .done th') ⟨th, ht, rfl⟩ ?_ h
  rintro es t e u hes ⟨th₁, hth₁, hexec⟩ hn
  obtain ⟨th', hth', hmove⟩ := next_devices hn hth₁
  refine ⟨th', hth', ?_⟩
  rw [moves, Simulation.viewed_snoc hes]
  exact (Trace.exec_append_eq_done Threads.next).mpr ⟨th₁, hexec, hmove⟩

variable {register : Name → Option Driver} {text : Json → List Byte} {takesDisk : DiskCheck}
  {conf : Json} {dev₀ : Device V}

theorem configured_devices
    (hdev : (parseConfigfile register text takesDisk conf)[dn]? = some dev₀) :
    (configured Q register text takesDisk conf).devices[dn]? = some (.boot dev₀) := by
  simp [configured, boot, hdev]

theorem exec_device {items : Q.State → List (ℕ → V)} (hq : Q.Documented queueCapacity items)
    (hdev : (parseConfigfile register text takesDisk conf)[dn]? = some dev₀)
    (h : Trace.exec next (configured Q register text takesDisk conf) es = .done p) :
    ∃ th, p.devices[dn]? = some th ∧
      Trace.exec Threads.next (.boot dev₀ : Threads V Q)
        (moves dn (configured Q register text takesDisk conf) es) = .done th ∧
      th.Flow items dev₀ (moves dn (configured Q register text takesDisk conf) es) := by
  obtain ⟨th, hth, hexec⟩ := exec_moves h (configured_devices hdev)
  exact ⟨th, hth, hexec, Threads.exec_flow hq hexec⟩

def comesUp : List (ProcessEvent ℤ) :=
  [.main, .consumer (ascii "meter"), .yield (ascii "meter") fun l => 10 + l] ++
    List.replicate 10 (.consumer (ascii "meter")) ++
    [.main, .main, .consumer (ascii "outlet"), .yield (ascii "outlet") fun _ => 5] ++
    List.replicate 7 (.consumer (ascii "outlet")) ++
    [.main, .main, .accept, .access (ascii "meter") 0 .enable, .access (ascii "meter") 0 .activate]

/-- Two samples come, and the first of them has visited two of the lines. -/
def twoSamples : List (ProcessEvent ℤ) :=
  [.yield (ascii "meter") fun l => 20 + l, .yield (ascii "outlet") fun _ => 6,
    .yield (ascii "meter") fun l => 30 + l] ++ List.replicate 5 (.consumer (ascii "meter"))

abbrev Queued : Spsc.Queue (ℕ → ℤ) := Spsc.listQueue (ℕ → ℤ) queueCapacity

def bothDevices : Process ℤ Queued :=
  configured _ deviceRegister (fun _ => []) anyDisk meterAndOutlet

def line (p : Process V Q) (dn : Name) (l : ℕ) : Option (Line V) :=
  p.devices[dn]?.bind fun th => th.dev.lines[l]?

def clears (dn : Name) (l : ℕ) : ProcessEvent V → Bool
  | .access name l' .clearData => name = dn && l' = l
  | _ => false

def Records (dn : Name) (l : ℕ) (p : Process V Q) (e : ProcessEvent V) : Prop :=
  (p.line dn l).any Line.isActive = true ∧ clears dn l e = false

instance (dn : Name) (l : ℕ) (p : Process V Q) (e : ProcessEvent V) :
    Decidable (Records dn l p e) := inferInstanceAs (Decidable (_ ∧ _))

theorem movesAt_cases (dn : Name) (p : Process V Q) (e : ProcessEvent V) :
    movesAt dn p e = [] ∨ ∃ m, movesAt dn p e = [m] ∧
      ∀ l a, m = .access l a → e = .access dn l a := by
  cases e with
  | main =>
    simp only [movesAt]
    split <;> first | exact .inl rfl | (split_ifs <;> simp)
  | refused | interrupt | accept => exact .inl rfl
  | yield name x | finish name | consumer name | access name l a =>
    simp only [movesAt]
    split_ifs with hname
    · exact .inr ⟨_, rfl, by simp [hname]⟩
    · exact .inl rfl

theorem records_next {l : ℕ} {ln : Line V} (hth : p.devices[dn]? = some th)
    (hl : th.dev.lines[l]? = some ln) (hr : Records dn l p e) (hn : p.next e = .done u) :
    ∃ th' ln', u.devices[dn]? = some th' ∧
      Trace.exec Threads.next th (movesAt dn p e) = .done th' ∧ th'.dev.lines[l]? = some ln' ∧
      ln'.data = ln.data ++ (th.visits l (movesAt dn p e)).map fun x => x l := by
  obtain ⟨th', hth', hexec⟩ := next_devices hn hth
  obtain ⟨hactive, hclear⟩ := hr
  have hln : ln.isActive = true := by simpa [line, hth, hl] using hactive
  rcases movesAt_cases dn p e with hnone | ⟨m, hone, haccess⟩
  · rw [hnone] at hexec ⊢
    obtain rfl := Outcome.done.inj hexec
    exact ⟨th, ln, hth', rfl, hl, (List.append_nil _).symm⟩
  · rw [hone] at hexec ⊢
    have hmoved := Threads.next_moved ((Trace.exec_singleton Threads.next _ _).symm.trans hexec)
    obtain ⟨ln', hl', hdata⟩ := hmoved.data hl hln fun hm => by
      simp [haccess l _ hm, clears] at hclear
    rw [Threads.visits, Simulation.viewed_singleton]
    exact ⟨th', ln', hth', hexec, hl', hdata⟩

/-- While a line stays active and is not cleared, the readings that its buffer gets are those of
the samples that visit it, which follow each other in what has found room in the queue. -/
theorem recorded_gapless {items : Q.State → List (ℕ → V)}
    (hq : Q.Documented queueCapacity items)
    (hdev : (parseConfigfile register text takesDisk conf)[dn]? = some dev₀) {l : ℕ}
    (hl : dev₀.lines[l]?.isSome = true)
    (h : Trace.exec next (configured Q register text takesDisk conf) es = .done p)
    (h' : Trace.exec next p es' = .done u)
    (hrecords : Trace.AlwaysStep next p es' (Records dn l)) :
    let start := configured Q register text takesDisk conf
    let booted : Threads V Q := .boot dev₀
    ∃ th ln ln', p.devices[dn]? = some th ∧ th.dev.lines[l]? = some ln ∧
      u.line dn l = some ln' ∧
      ln'.data = ln.data ++ (th.visits l (moves dn p es')).map (fun x => x l) ∧
      booted.visits l (moves dn start es) ++ th.visits l (moves dn p es') <+:
        booted.queued items (moves dn start (es ++ es')) := by
  intro start booted
  obtain ⟨th, hth, hexec, hflow⟩ := exec_device hq hdev h
  obtain ⟨ln, hln⟩ := Option.isSome_iff_exists.mp ((hflow.present l).trans hl)
  have hinv : ∃ th' ln', u.devices[dn]? = some th' ∧
      Trace.exec Threads.next th (moves dn p es') = .done th' ∧ th'.dev.lines[l]? = some ln' ∧
      ln'.data = ln.data ++ (th.visits l (moves dn p es')).map fun x => x l := by
    refine Trace.exec_invariant_of_alwaysStep next (fun es' u => ∃ th' ln',
      u.devices[dn]? = some th' ∧ Trace.exec Threads.next th (moves dn p es') = .done th' ∧
      th'.dev.lines[l]? = some ln' ∧
      ln'.data = ln.data ++ (th.visits l (moves dn p es')).map fun x => x l)
      ⟨th, ln, hth, rfl, hln, (List.append_nil _).symm⟩ ?_ hrecords h'
    rintro pre t e v hpre ⟨th₁, ln₁, hth₁, hexec₁, hln₁, hdata₁⟩ hr hn
    obtain ⟨th₂, ln₂, hth₂, hexec₂, hln₂, hdata₂⟩ := records_next hth₁ hln₁ hr hn
    have hmoves : moves dn p (pre ++ [e]) = moves dn p pre ++ movesAt dn t e :=
      Simulation.viewed_snoc hpre
    have hvisits : th.visits l (moves dn p pre ++ movesAt dn t e) =
        th.visits l (moves dn p pre) ++ th₁.visits l (movesAt dn t e) :=
      Simulation.viewed_append hexec₁
    rw [hmoves, hvisits]
    refine ⟨th₂, ln₂, hth₂, (Trace.exec_append_eq_done Threads.next).mpr ⟨th₁, hexec₁, hexec₂⟩,
      hln₂, ?_⟩
    rw [hdata₂, hdata₁, List.map_append, List.append_assoc]
  obtain ⟨th', ln', hth', hexec', hln', hdata'⟩ := hinv
  refine ⟨th, ln, ln', hth, hln, by rw [line, hth']; exact hln', hdata', ?_⟩
  have hboth := (Trace.exec_append_eq_done next).mpr ⟨p, h, h'⟩
  obtain ⟨th₂, -, hexec₂, hflow₂⟩ := exec_device hq hdev hboth
  have hmoves : moves dn start (es ++ es') = moves dn start es ++ moves dn p es' :=
    Simulation.viewed_append h
  have hvisits : booted.visits l (moves dn start es ++ moves dn p es') =
      booted.visits l (moves dn start es) ++ th.visits l (moves dn p es') :=
    Simulation.viewed_append hexec
  have hall := Threads.queued_eq hq hexec₂
  have htaken := hflow₂.flow l hl
  rw [← hvisits, ← hmoves]
  exact ⟨th₂.ahead l ++ items th₂.dataQueue, by
    rw [← List.append_assoc, ← htaken]
    exact hall.symm⟩

theorem recorded_gapless_meter : ∃ (dev₀ : Device ℤ)
    (th : Threads ℤ Queued)
    (p : Process ℤ Queued) (ln ln' : Line ℤ),
    let booted : Threads ℤ Queued := .boot dev₀
    Trace.exec next bothDevices comesUp = .done p ∧ ln'.data = [20] ∧
      ln'.data = ln.data ++ (th.visits 0 (moves (ascii "meter") p twoSamples)).map (fun x => x 0) ∧
      booted.visits 0 (moves (ascii "meter") bothDevices comesUp) ++
          th.visits 0 (moves (ascii "meter") p twoSamples) <+:
        booted.queued id (moves (ascii "meter") bothDevices (comesUp ++ twoSamples)) := by
  have hsome : ((parseConfigfile (V := ℤ) deviceRegister (fun _ => []) anyDisk meterAndOutlet)[
    ascii "meter"]?.any fun dev => dev.lines[0]?.isSome) = true := by decide +kernel
  obtain ⟨dev₀, hdev, hl⟩ := (Option.any_eq_true _ _).mp hsome
  have hrun : (Trace.exec next bothDevices comesUp).check (fun p =>
    Trace.obeys next (Records (ascii "meter") 0) p twoSamples &&
      (Trace.exec next p twoSamples).check fun u =>
        (u.line (ascii "meter") 0).any fun ln => ln.data == [20]) = true := by decide +kernel
  obtain ⟨p, h, hp⟩ := Outcome.check_eq_true.mp hrun
  obtain ⟨hobeys, hp⟩ := Bool.and_eq_true_iff.mp hp
  obtain ⟨u, h', hdata⟩ := Outcome.check_eq_true.mp hp
  obtain ⟨th, ln, ln', -, -, hln', hgrown, hprefix⟩ :=
    recorded_gapless (Spsc.listQueue_documented queueCapacity) hdev hl h h'
      (Trace.alwaysStep_of_obeys next hobeys)
  rw [hln'] at hdata
  exact ⟨dev₀, th, p, ln, ln', h, eq_of_beq hdata, hgrown, hprefix⟩

end Process

end PMLib
