import PMLib.Server

/-! # Line by line

The consumer thread and the handler threads of the counters walk over the lines of the device
without a common lock, so their walks interleave line by line. A buffer holds the numbers of
the consumed samples here: which readings meet is the question, not their values. -/
namespace PMLib

/-- Where a handler stands in START, CONTINUE or STOP, with the lines that its walk has not
reached. `erasing` is START, which forgets the sets before. `counter_lock` is held while lines
are activated or deactivated. -/
inductive Progress where
  | resting
  | activating (erasing : Bool) (rest : List ℕ)
  | opening (erasing : Bool) (rest : List ℕ) (sizes : SetT)
  | deactivating (rest : List ℕ)
  | closing (rest : List ℕ) (sizes : SetT)

def Progress.locks : Progress → Bool
  | .activating .. | .deactivating _ => true
  | .resting | .opening .. | .closing .. => false

/-- `due` is read by no step: it keeps the number of the sample that was to come on the first
line of the walk that has opened the latest set. -/
structure Thread where
  counter : Counter
  progress : Progress
  due : ℕ

/-- `pass` are the lines that sample `taken` has still to visit. -/
structure Shared where
  dev : Device ℕ
  taken : ℕ
  pass : List ℕ
  threads : List Thread

/-- `consumer` takes the next sample or visits the next line with it. `request` hands an
operation to a counter, and `thread` is the next step of its handler. -/
inductive Turn where
  | consumer
  | request (k : ℕ) (op : Operation)
  | thread (k : ℕ)
  deriving DecidableEq, Repr

/-- An operation that the state of the counter does not allow is answered at once, and the
other ones leave the buffers as they are. -/
def Thread.request (th : Thread) (op : Operation) : Progress :=
  match op, th.counter.status with
  | .start, .inactive => .activating true th.counter.lines
  | .continue_, .inactive => .activating false th.counter.lines
  | .stop, .active => .deactivating th.counter.lines
  | _, _ => .resting

/-- One atomic step of a handler: one line of a walk, or what stands between two walks.
`coming l` is the number of the sample that visits line `l` next. -/
def Thread.step (dev : Device ℕ) (coming : ℕ → ℕ) (th : Thread) :
    Outcome (Device ℕ × Thread) :=
  let c := th.counter
  match th.progress with
  | .resting => .failed
  | .activating erasing (l :: rest) => do
    let dev ← dev.withLine l Line.activate
    .done (dev, { th with progress := .activating erasing rest })
  | .activating erasing [] =>
    .done (dev, { th with counter := { c with status := .active }
                          progress := .opening erasing c.lines ∅ })
  | .opening erasing (l :: rest) sizes => do
    let ln ← dev.line l
    .done (dev, { th with progress := .opening erasing rest (sizes.insert l ln.getSize)
                          due := if sizes.isEmpty then coming l else th.due })
  | .opening erasing [] sizes =>
    let sets := if erasing then [] else c.sets
    .done (dev, { th with counter := { c with sets := sets ++ [(sizes, none)] }
                          progress := .resting })
  | .deactivating (l :: rest) => do
    let dev ← dev.withLine l Line.deactivate
    .done (dev, { th with progress := .deactivating rest })
  | .deactivating [] =>
    .done (dev, { th with counter := { c with status := .inactive }
                          progress := .closing c.lines ∅ })
  | .closing (l :: rest) sizes => do
    let ln ← dev.line l
    .done (dev, { th with progress := .closing rest (sizes.insert l ln.getSize) })
  | .closing [] sizes => do
    let last ← Outcome.ofOption c.sets.getLast?
    .done (dev, { th with counter := { c with sets := c.sets.dropLast ++ [(last.1, some sizes)] }
                          progress := .resting })

namespace Shared

def coming (s : Shared) (l : ℕ) : ℕ := if l ∈ s.pass then s.taken else s.taken + 1

def locked (s : Shared) : Bool := s.threads.any fun th => th.progress.locks

/-- A handler that is busy takes no request, and one that wants the lock waits for it. -/
def next (s : Shared) : Turn → Outcome Shared
  | .consumer =>
    match s.pass with
    | [] => .done { s with taken := s.taken + 1, pass := s.dev.lines.keys }
    | l :: rest => do
      let dev ← s.dev.withLine l fun ln => ln.consume s.taken
      .done { s with dev, pass := rest }
  | .request k op =>
    match s.threads[k]? with
    | some ⟨c, .resting, due⟩ =>
      let progress := Thread.request ⟨c, .resting, due⟩ op
      if progress.locks && s.locked then .failed
      else .done { s with threads := s.threads.set k ⟨c, progress, due⟩ }
    | _ => .failed
  | .thread k =>
    match s.threads[k]? with
    | some th => do
      let (dev, th) ← th.step s.dev s.coming
      .done { s with dev, threads := s.threads.set k th }
    | none => .failed

/-- The consumer waits for a sample, and no counter has recorded anything. -/
structure Initial (s : Shared) : Prop where
  pass : s.pass = []
  resting : ∀ th ∈ s.threads, th.progress = .resting
  inactive : ∀ th ∈ s.threads, th.counter.status = .inactive
  sets : ∀ th ∈ s.threads, th.counter.sets = []
  nodup : ∀ th ∈ s.threads, th.counter.lines.Nodup
  has : ∀ th ∈ s.threads, s.dev.Has th.counter.lines

/-! ## Uninterrupted walks

Left alone, the consumer and the handlers do what the operations of the device and of its
counters are said to do. -/

def put (s : Shared) (k : ℕ) (p : Device ℕ × Thread) : Shared :=
  { s with dev := p.1, threads := s.threads.set k p.2 }

def walks (k n : ℕ) : List Turn :=
  List.replicate n (.thread k) ++ .thread k :: (List.replicate n (.thread k) ++ [.thread k])

section walks

variable {s : Shared} {k : ℕ} {c c' : Counter} {due : ℕ} {dev dev' : Device ℕ}

theorem next_thread (hk : k < s.threads.length) {p q : Device ℕ × Thread}
    (h : p.2.step p.1 s.coming = .done q) :
    next (s.put k p) (.thread k) = .done (s.put k q) := by
  simp only [next, put, List.getElem?_set_self hk]
  show (p.2.step p.1 s.coming >>= _) = _
  rw [h, Outcome.done_bind, List.set_set]

theorem exec_walk {α : Type} (hk : k < s.threads.length)
    (state : List ℕ → α → Device ℕ × Thread) {f : α → ℕ → Outcome α}
    (hstep : ∀ {l rest a a'}, f a l = .done a' →
      (state (l :: rest) a).2.step (state (l :: rest) a).1 s.coming = .done (state rest a'))
    {sel : List ℕ} {a a' : α} (h : sel.foldlM f a = .done a') :
    Trace.exec next (s.put k (state sel a)) (List.replicate sel.length (.thread k)) =
      .done (s.put k (state [] a')) :=
  Trace.exec_replicate next (fun rest a => s.put k (state rest a))
    (fun ha => next_thread hk (hstep ha)) h

/-- Taking the sizes is the same whatever is noted about the samples meanwhile. -/
theorem foldlM_sizes {sel : List ℕ} {sizes m : SetT} (f : ℕ → ℕ) (due : ℕ)
    (h : sel.foldlM (fun sizes l => do
      let ln ← dev.line l
      .done (sizes.insert l ln.getSize)) sizes = .done m) :
    ∃ due', sel.foldlM (fun (a : SetT × ℕ) l => do
      let ln ← dev.line l
      .done (a.1.insert l ln.getSize, if a.1.isEmpty then f l else a.2)) (sizes, due) =
        .done (m, due') := by
  induction sel generalizing sizes due with
  | nil =>
    obtain rfl := Outcome.done.inj h
    exact ⟨due, rfl⟩
  | cons l rest ih =>
    rw [List.foldlM_cons] at h
    obtain ⟨sizes₁, h₁, h⟩ := Outcome.bind_eq_done.mp h
    obtain ⟨ln, hln, h₁⟩ := Outcome.bind_eq_done.mp h₁
    obtain rfl := Outcome.done.inj h₁
    obtain ⟨due', hdue⟩ := ih (if sizes.isEmpty then f l else due) h
    refine ⟨due', ?_⟩
    rw [List.foldlM_cons, hln]
    exact hdue

variable (due) in
theorem exec_opening (erasing : Bool) (hk : k < s.threads.length) {sizes : SetT}
    (hstart : dev.startCounter c.lines = .done dev')
    (hsizes : dev'.getLinesSizes c.lines = .done sizes) :
    ∃ due', Trace.exec next (s.put k (dev, ⟨c, .activating erasing c.lines, due⟩))
      (walks k c.lines.length) = .done (s.put k (dev',
        ⟨{ c with status := .active
                  sets := (if erasing then [] else c.sets) ++ [(sizes, none)] },
          .resting, due'⟩)) := by
  obtain ⟨due', hdue⟩ := foldlM_sizes s.coming due hsizes
  refine ⟨due', ?_⟩
  have hactivate := exec_walk (s := s) hk
    (fun rest dev => (dev, ⟨c, .activating erasing rest, due⟩))
    (fun ha => Outcome.bind_eq_done.mpr ⟨_, ha, rfl⟩) hstart
  have hsize := exec_walk (s := s) hk (fun rest (a : SetT × ℕ) =>
      (dev', ⟨{ c with status := .active }, .opening erasing rest a.1, a.2⟩))
    (fun ha => by
      obtain ⟨ln, hln, ha⟩ := Outcome.bind_eq_done.mp ha
      obtain rfl := Outcome.done.inj ha
      exact Outcome.bind_eq_done.mpr ⟨ln, hln, rfl⟩) hdue
  refine (Trace.exec_append_eq_done next).mpr ⟨_, hactivate, ?_⟩
  refine (Trace.exec_cons next).mpr ⟨_, next_thread hk rfl, ?_⟩
  exact (Trace.exec_snoc next).mpr ⟨_, hsize, next_thread hk rfl⟩

variable (due) in
theorem exec_closing (hk : k < s.threads.length) {sizes : SetT} {last : CounterSet}
    (hstop : dev.stopCounter c.lines = .done dev')
    (hsizes : dev'.getLinesSizes c.lines = .done sizes) (hlast : c.sets.getLast? = some last) :
    Trace.exec next (s.put k (dev, ⟨c, .deactivating c.lines, due⟩))
      (walks k c.lines.length) = .done (s.put k (dev',
        ⟨{ c with status := .inactive
                  sets := c.sets.dropLast ++ [(last.1, some sizes)] }, .resting, due⟩)) := by
  have hdeactivate := exec_walk (s := s) hk
    (fun rest dev => (dev, ⟨c, .deactivating rest, due⟩))
    (fun ha => Outcome.bind_eq_done.mpr ⟨_, ha, rfl⟩) hstop
  have hsize := exec_walk (s := s) hk (fun rest sizes =>
      (dev', ⟨{ c with status := .inactive }, .closing rest sizes, due⟩))
    (fun ha => by
      obtain ⟨ln, hln, ha⟩ := Outcome.bind_eq_done.mp ha
      obtain rfl := Outcome.done.inj ha
      exact Outcome.bind_eq_done.mpr ⟨ln, hln, rfl⟩) hsizes
  refine (Trace.exec_append_eq_done next).mpr ⟨_, hdeactivate, ?_⟩
  refine (Trace.exec_cons next).mpr ⟨_, next_thread hk rfl, ?_⟩
  refine (Trace.exec_snoc next).mpr ⟨_, hsize, next_thread hk ?_⟩
  exact Outcome.bind_eq_done.mpr ⟨last, by rw [hlast]; rfl, rfl⟩

theorem next_request (hk : s.threads[k]? = some ⟨c, .resting, due⟩) (hfree : s.locked = false)
    (op : Operation) : next s (.request k op) =
      .done (s.put k (s.dev, ⟨c, Thread.request ⟨c, .resting, due⟩ op, due⟩)) := by
  simp only [next, hk, hfree, Bool.and_false]
  rfl

theorem exec_request (hk : s.threads[k]? = some ⟨c, .resting, due⟩) (hfree : s.locked = false)
    {op : Operation} {phase : Progress} (hreq : Thread.request ⟨c, .resting, due⟩ op = phase)
    {es : List Turn} {t : Shared}
    (h : Trace.exec next (s.put k (s.dev, ⟨c, phase, due⟩)) es = .done t) :
    Trace.exec next s (.request k op :: es) = .done t := by
  subst hreq
  exact (Trace.exec_cons next).mpr ⟨_, next_request hk hfree op, h⟩

/-- A START whose walks nobody interrupts is the one of the counter. -/
theorem exec_start (hk : s.threads[k]? = some ⟨c, .resting, due⟩) (hfree : s.locked = false)
    (hst : c.status = .inactive) {r : Reply ℕ} (h : c.start s.dev = .done (c', dev', r)) :
    ∃ due', Trace.exec next s (.request k .start :: walks k c.lines.length) =
      .done (s.put k (dev', ⟨c', .resting, due'⟩)) := by
  rw [Counter.start, if_pos hst] at h
  obtain ⟨dev₁, hstart, h⟩ := Outcome.bind_eq_done.mp h
  obtain ⟨sizes, hsizes, h⟩ := Outcome.bind_eq_done.mp h
  cases h
  have hlt := (List.getElem?_eq_some_iff.mp hk).1
  obtain ⟨due', hexec⟩ := exec_opening (s := s) due true hlt hstart hsizes
  have hreq : Thread.request ⟨c, .resting, due⟩ .start = .activating true c.lines := by
    simp only [Thread.request, hst]
  exact ⟨due', exec_request hk hfree hreq hexec⟩

theorem exec_restart (hk : s.threads[k]? = some ⟨c, .resting, due⟩) (hfree : s.locked = false)
    (hst : c.status = .inactive) {r : Reply ℕ} (h : c.restart s.dev = .done (c', dev', r)) :
    ∃ due', Trace.exec next s (.request k .continue_ :: walks k c.lines.length) =
      .done (s.put k (dev', ⟨c', .resting, due'⟩)) := by
  rw [Counter.restart, if_pos hst] at h
  obtain ⟨dev₁, hstart, h⟩ := Outcome.bind_eq_done.mp h
  obtain ⟨sizes, hsizes, h⟩ := Outcome.bind_eq_done.mp h
  cases h
  have hlt := (List.getElem?_eq_some_iff.mp hk).1
  obtain ⟨due', hexec⟩ := exec_opening (s := s) due false hlt hstart hsizes
  have hreq : Thread.request ⟨c, .resting, due⟩ .continue_ = .activating false c.lines := by
    simp only [Thread.request, hst]
  exact ⟨due', exec_request hk hfree hreq hexec⟩

theorem exec_stop (hk : s.threads[k]? = some ⟨c, .resting, due⟩) (hfree : s.locked = false)
    (hst : c.status = .active) {r : Reply ℕ} (h : c.stop s.dev = .done (c', dev', r)) :
    Trace.exec next s (.request k .stop :: walks k c.lines.length) =
      .done (s.put k (dev', ⟨c', .resting, due⟩)) := by
  rw [Counter.stop, if_pos hst] at h
  obtain ⟨dev₁, hstop, h⟩ := Outcome.bind_eq_done.mp h
  obtain ⟨sizes, hsizes, h⟩ := Outcome.bind_eq_done.mp h
  obtain ⟨last, hlast, h⟩ := Outcome.bind_eq_done.mp h
  cases h
  have hlt := (List.getElem?_eq_some_iff.mp hk).1
  have hexec := exec_closing (s := s) due hlt hstop hsizes
    (Outcome.ofOption_eq_done.mp hlast)
  have hreq : Thread.request ⟨c, .resting, due⟩ .stop = .deactivating c.lines := by
    simp only [Thread.request, hst]
  exact exec_request hk hfree hreq hexec

/-- A pass of the consumer that nobody interrupts brings one reading to every active line. -/
theorem exec_pass (hp : s.pass = []) : ∃ dev',
    Trace.exec next s (.consumer :: List.replicate s.dev.lines.size .consumer) =
      .done { s with dev := dev', taken := s.taken + 1 } ∧
    ∀ l : ℕ, dev'.lines[l]? = (s.dev.pushBackData fun _ => s.taken + 1).lines[l]? := by
  obtain ⟨dev', hdev, hlines⟩ := s.dev.exists_pass fun _ => s.taken + 1
  refine ⟨dev', ?_, hlines⟩
  refine (Trace.exec_cons next).mpr
    ⟨{ s with taken := s.taken + 1, pass := s.dev.lines.keys }, ?_, ?_⟩
  · simp only [next, hp]
  · have hexec := Trace.exec_replicate next (e := .consumer)
      (fun rest dev => ({ dev, taken := s.taken + 1, pass := rest, threads := s.threads } : Shared))
      (fun ha => Outcome.bind_eq_done.mpr ⟨_, ha, rfl⟩) hdev
    rw [Std.TreeMap.length_keys] at hexec
    rw [hexec, hp]

end walks

end Shared

end PMLib
