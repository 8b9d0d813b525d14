import PMLib.LegacyServer

/-! # What a legacy server can do in one event

With the lock free, every call on the device returns; with the lock left behind, none does. -/
namespace PMLib.Legacy

variable {V : Type}

namespace Device

structure Mapped (d d' : Device V) (g : ℕ → Line V → Line V) : Prop where
  name : d'.name = d.name
  maxFrequency : d'.maxFrequency = d.maxFrequency
  size : d'.lines.size = d.lines.size
  lines : ∀ l : ℕ, d'.lines[l]? = d.lines[l]?.map (g l)

def Has (d : Device V) (sel : List ℕ) : Prop := ∀ l ∈ sel, ∃ ln, d.lines[l]? = some ln

def Complete (d : Device V) : Prop := ∀ l < d.lines.size, ∃ ln, d.lines[l]? = some ln

def locked (d : Device V) : Device V := { d with counterLock := true }
def unlocked (d : Device V) : Device V := { d with counterLock := false }

theorem Mapped.refl (d : Device V) : Mapped d d (fun _ ln => ln) :=
  ⟨rfl, rfl, rfl, fun _ => Option.map_id'.symm⟩

theorem Mapped.trans {d d' d'' : Device V} {f g : ℕ → Line V → Line V} (h : Mapped d d' f)
    (h' : Mapped d' d'' g) : Mapped d d'' (fun l ln => g l (f l ln)) :=
  ⟨h'.name.trans h.name, h'.maxFrequency.trans h.maxFrequency, h'.size.trans h.size,
    fun l => by rw [h'.lines, h.lines, Option.map_map]; rfl⟩

theorem Mapped.line {d d' : Device V} {g : ℕ → Line V → Line V} (h : Mapped d d' g) {l : ℕ}
    {ln : Line V} (hl : d'.lines[l]? = some ln) :
    ∃ ln₀, d.lines[l]? = some ln₀ ∧ ln = g l ln₀ := by
  rw [h.lines, Option.map_eq_some_iff] at hl
  obtain ⟨ln₀, h₀, rfl⟩ := hl
  exact ⟨ln₀, h₀, rfl⟩

theorem Mapped.has {d d' : Device V} {g : ℕ → Line V → Line V} (h : Mapped d d' g)
    {sel : List ℕ} (hs : d.Has sel) : d'.Has sel := by
  intro l hl
  obtain ⟨ln, hln⟩ := hs l hl
  exact ⟨g l ln, by rw [h.lines, hln]; rfl⟩

theorem Mapped.complete {d d' : Device V} {g : ℕ → Line V → Line V} (h : Mapped d d' g)
    (hc : d.Complete) : d'.Complete := by
  intro l hl
  obtain ⟨ln, hln⟩ := hc l (h.size ▸ hl)
  exact ⟨g l ln, by rw [h.lines, hln]; rfl⟩

/-! ## Calls with the lock -/

theorem acquire_run {d : Device V} (h : d.counterLock = false) :
    acquire.run d = .ok () d.locked := by
  simp [acquire, h, locked]

theorem acquire_blocked {d : Device V} (h : d.counterLock = true) :
    acquire.run d = .error .blocked d := by
  simp [acquire, h]

theorem get_bind_run {α : Type} (f : Device V → Py V α) (d : Device V) :
    (get >>= f).run d = (f d).run d := rfl

theorem release_run (d : Device V) : release.run d = .ok () d.unlocked := rfl

theorem withLine_run {d : Device V} {l : ℕ} {ln : Line V} (h : d.lines[l]? = some ln)
    (f : Line V → Line V) :
    (withLine f l).run d = .ok () { d with lines := d.lines.insert l (f ln) } := by
  simp [withLine, h]

theorem insert_lines {d : Device V} {l : ℕ} {ln : Line V} (h : d.lines[l]? = some ln)
    (f : Line V → Line V) : (d.lines.insert l (f ln)).size = d.lines.size ∧
      ∀ x : ℕ, (d.lines.insert l (f ln))[x]? =
        d.lines[x]?.map fun ln => if x = l then f ln else ln := by
  have hmem : l ∈ d.lines := Std.TreeMap.mem_iff_isSome_getElem?.mpr (by rw [h]; rfl)
  refine ⟨?_, fun x => ?_⟩
  · rw [Std.TreeMap.size_insert, if_pos (Std.TreeMap.mem_iff_contains.mp hmem)]
  · rw [Std.TreeMap.getElem?_insert]
    by_cases hx : x = l
    · subst hx
      simp [h]
    · have hc : compare l x ≠ Ordering.eq := by simpa using Ne.symm hx
      simp [hx, hc]

theorem forM_run {d : Device V} {sel : List ℕ} (hn : sel.Nodup) (hs : d.Has sel)
    (f : Line V → Line V) : ∃ d', (sel.forM (withLine f)).run d = .ok () d' ∧
      d'.counters = d.counters ∧ d'.counterLock = d.counterLock ∧
      Mapped d d' (fun l ln => if l ∈ sel then f ln else ln) := by
  induction sel generalizing d with
  | nil => exact ⟨d, rfl, rfl, rfl, by simpa using Mapped.refl d⟩
  | cons a sel ih =>
    obtain ⟨ha, hn⟩ := List.nodup_cons.mp hn
    obtain ⟨ln, hln⟩ := hs a (by simp)
    obtain ⟨hsize, hlines⟩ := insert_lines hln f
    have hrest : Has { d with lines := d.lines.insert a (f ln) } sel := by
      intro l hl
      obtain ⟨ln', hln'⟩ := hs l (by simp [hl])
      exact ⟨_, by rw [hlines, hln']; rfl⟩
    obtain ⟨d', hd', hcounters, hlock, hm⟩ := ih hn hrest
    refine ⟨d', ?_, hcounters, hlock, hm.name, hm.maxFrequency, hm.size.trans hsize, fun l => ?_⟩
    · rw [List.forM_eq_forM, List.forM_cons, EStateM.run_bind, withLine_run hln]
      exact hd'
    · rw [hm.lines, hlines, Option.map_map]
      congr 1
      funext ln'
      by_cases hl : l = a
      · subst hl; simp [ha]
      · simp [hl]

section calls

variable {d : Device V} {sel : List ℕ} {id : ℕ}

theorem walk_run (hlock : d.counterLock = false) (hn : sel.Nodup) (hs : d.Has sel)
    (f : Line V → Line V) :
    ∃ d', (do acquire; sel.forM (withLine f); release : Py V Unit).run d = .ok () d' ∧
      d'.counters = d.counters ∧ d'.counterLock = false ∧
      Mapped d d' (fun l ln => if l ∈ sel then f ln else ln) := by
  obtain ⟨d', hd', hcounters, -, hm⟩ := forM_run (d := d.locked) hn hs f
  refine ⟨d'.unlocked, ?_, hcounters, rfl, hm.name, hm.maxFrequency, hm.size, hm.lines⟩
  simp only [EStateM.run_bind, acquire_run hlock, hd', release_run]

theorem addCounter_run (hlock : d.counterLock = false) (id : ℕ) (hn : sel.Nodup)
    (hs : d.Has sel) :
    ∃ d', (addCounter id sel).run d = .ok () d' ∧ d'.counters = d.counters.insert id ∧
      d'.counterLock = false ∧
      Mapped d d' (fun l ln => if l ∈ sel then ln.enable else ln) := by
  have hadd : (modify fun d => { d with counters := d.counters.insert id } : Py V Unit).run
      d.locked = .ok () { d.locked with counters := d.counters.insert id } := rfl
  obtain ⟨d', hd', hcounters, -, hm⟩ := forM_run
    (d := { d.locked with counters := d.counters.insert id }) hn hs Line.enable
  refine ⟨d'.unlocked, ?_, hcounters, rfl, hm.name, hm.maxFrequency, hm.size, hm.lines⟩
  simp only [addCounter, EStateM.run_bind, acquire_run hlock, hadd, hd', release_run]

theorem removeCounter_run (hlock : d.counterLock = false) (hid : id ∈ d.counters)
    (hn : sel.Nodup) (hs : d.Has sel) :
    ∃ d', (removeCounter id sel).run d = .ok () d' ∧ d'.counters = d.counters.erase id ∧
      d'.counterLock = false ∧
      Mapped d d' (fun l ln => if l ∈ sel then ln.leave else ln) := by
  have hdel : (delCounter id).run d.locked =
      .ok () { d.locked with counters := d.counters.erase id } := by
    simp [delCounter, locked, hid]
  obtain ⟨d', hd', hcounters, -, hm⟩ := forM_run
    (d := { d.locked with counters := d.counters.erase id }) hn hs Line.leave
  refine ⟨d'.unlocked, ?_, hcounters, rfl, hm.name, hm.maxFrequency, hm.size, hm.lines⟩
  simp only [removeCounter, EStateM.run_bind, acquire_run hlock, hdel, hd', release_run]

/-- Nobody gives back the lock after that. -/
theorem removeCounter_missing (hlock : d.counterLock = false) (hid : id ∉ d.counters) :
    (removeCounter id sel).run d = .error .raised d.locked := by
  have hdel : (delCounter id).run d.locked = .error .raised d.locked := by
    simp [delCounter, locked, hid]
  simp only [removeCounter, EStateM.run_bind, acquire_run hlock, hdel]

theorem calls_blocked (hlock : d.counterLock = true) (id : ℕ) (sel : List ℕ) :
    (addCounter id sel).run d = .error .blocked d ∧
      (removeCounter id sel).run d = .error .blocked d ∧
      (startCounter sel).run d = .error .blocked d ∧
      (stopCounter sel).run d = .error .blocked d := by
  simp [addCounter, removeCounter, startCounter, stopCounter, acquire_blocked hlock]

theorem putLength_run {l : ℕ} {ln : Line V} (h : d.lines[l]? = some ln) (r : SetT) :
    (putLength r l).run d = .ok (r.insert l (ln.powerData.samples.length : ℤ)) d := by
  simp [putLength, h]

theorem putLengths_run (hs : d.Has sel) (r : SetT) : ∃ m, (sel.foldlM putLength r).run d = .ok m d ∧
    ∀ l ln, d.lines[l]? = some ln →
      (l ∈ sel ∨ r[l]? = some (ln.powerData.samples.length : ℤ)) →
      m[l]? = some (ln.powerData.samples.length : ℤ) := by
  induction sel generalizing r with
  | nil => exact ⟨r, rfl, fun l ln _ h => h.resolve_left (by simp)⟩
  | cons a rest ih =>
    obtain ⟨la, hla⟩ := hs a (by simp)
    obtain ⟨m, hm, hget⟩ := ih (fun l hl => hs l (by simp [hl]))
      (r.insert a (la.powerData.samples.length : ℤ))
    refine ⟨m, ?_, fun l ln hln h => hget l ln hln ?_⟩
    · rw [List.foldlM_cons, EStateM.run_bind, putLength_run hla]
      exact hm
    · rw [Std.TreeMap.getElem?_insert]
      by_cases ha : a = l
      · subst ha
        rw [Option.some.inj (hln.symm.trans hla)]
        exact .inr (by simp)
      · have hc : compare a l ≠ .eq := by simpa using ha
        rw [if_neg hc]
        exact h.imp_left fun h => (List.mem_cons.mp h).resolve_left (Ne.symm ha)

theorem getLinesLength_run (hs : d.Has sel) : ∃ m, (getLinesLength sel).run d = .ok m d ∧
    ∀ l ∈ sel, ∀ ln, d.lines[l]? = some ln → m[l]? = some (ln.powerData.samples.length : ℤ) := by
  obtain ⟨m, hm, hget⟩ := putLengths_run hs ∅
  exact ⟨m, hm, fun l hl ln hln => hget l ln hln (.inl hl)⟩

end calls

end Device

namespace Counter

variable {d : Device V} {c : Counter} {id : ℕ}

theorem opening_run (hlock : d.counterLock = false) (hn : c.lines.Nodup) (hs : d.Has c.lines)
    (hst : c.status = .inactive ∧ c.lastSetCompleted) (earlier : List CounterSet) :
    ∃ d' m, (c.opening earlier).run d =
        .ok ({ c with status := .active, sets := earlier ++ [(m, none)] }, .retval .success) d' ∧
      d'.counters = d.counters ∧ d'.counterLock = false ∧
      Device.Mapped d d' (fun l ln => if l ∈ c.lines then ln.activate else ln) ∧
      ∀ l ∈ c.lines, ∀ ln, d'.lines[l]? = some ln →
        m[l]? = some (ln.powerData.samples.length : ℤ) := by
  obtain ⟨d', hd', hcounters, hfree, hm⟩ := Device.walk_run hlock hn hs Line.activate
  obtain ⟨m, hrun, hget⟩ := Device.getLinesLength_run (hm.has hs)
  refine ⟨d', m, ?_, hcounters, hfree, hm, hget⟩
  have hstart : (Device.startCounter c.lines).run d = .ok () d' := hd'
  rw [opening, if_pos hst]
  simp only [EStateM.run_bind, hstart, hrun, EStateM.run_pure]

theorem stop_run (hlock : d.counterLock = false) (hn : c.lines.Nodup) (hs : d.Has c.lines)
    (hst : c.status = .active) (hopen : c.lastSetCompleted = false) :
    ∃ d' m last, c.sets.getLast? = some last ∧ c.stop.run d =
        .ok ({ c with status := .inactive, sets := c.sets.dropLast ++ [(last.1, some m)] },
          .retval .success) d' ∧
      d'.counters = d.counters ∧ d'.counterLock = false ∧
      Device.Mapped d d' (fun l ln => if l ∈ c.lines then ln.inactivate else ln) ∧
      ∀ l ∈ c.lines, ∀ ln, d'.lines[l]? = some ln →
        m[l]? = some (ln.powerData.samples.length : ℤ) := by
  obtain ⟨d', hd', hcounters, hfree, hm⟩ := Device.walk_run hlock hn hs Line.inactivate
  obtain ⟨m, hrun, hget⟩ := Device.getLinesLength_run (hm.has hs)
  cases hlast : c.sets.getLast? with
  | none => simp [lastSetCompleted, hlast] at hopen
  | some last =>
    refine ⟨d', m, last, rfl, ?_, hcounters, hfree, hm, hget⟩
    have hstop : (Device.stopCounter c.lines).run d = .ok () d' := hd'
    rw [stop, if_pos (by simp [hst, hopen])]
    simp only [EStateM.run_bind, hstop, hrun, EStateM.run_pure, hlast, Option.map_some,
      Option.toList_some]

def leaves (c : Counter) (ln : Line V) : Line V :=
  if c.status = .active then ln.inactivate.leave else ln.leave

theorem destroy_run (hlock : d.counterLock = false) (hid : id ∈ d.counters)
    (hn : c.lines.Nodup) (hs : d.Has c.lines) :
    ∃ d', (c.destroy id).run d = .ok () d' ∧ d'.counters = d.counters.erase id ∧
      d'.counterLock = false ∧
      Device.Mapped d d' (fun l ln => if l ∈ c.lines then c.leaves ln else ln) := by
  cases hst : c.status with
  | inactive =>
    obtain ⟨d', hd', hcounters, hfree, hm⟩ := Device.removeCounter_run hlock hid hn hs
    refine ⟨d', ?_, hcounters, hfree, by simpa [leaves, hst] using hm⟩
    simp only [destroy, hst, reduceCtorEq, if_false, hd']
  | active =>
    obtain ⟨d₁, hd₁, hcounters₁, hfree₁, hm₁⟩ := Device.walk_run hlock hn hs Line.inactivate
    have hid₁ : id ∈ d₁.counters := hcounters₁ ▸ hid
    obtain ⟨d', hd', hcounters, hfree, hm⟩ :=
      Device.removeCounter_run hfree₁ hid₁ hn (hm₁.has hs)
    have hstop : (Device.stopCounter c.lines).run d = .ok () d₁ := hd₁
    refine ⟨d', ?_, by rw [hcounters, hcounters₁], hfree, ?_⟩
    · simp only [destroy, hst, if_true, EStateM.run_bind, hstop, hd']
    · have hboth := hm₁.trans hm
      refine ⟨hboth.name, hboth.maxFrequency, hboth.size, fun l => ?_⟩
      rw [hboth.lines]
      congr 1
      funext ln
      by_cases hl : l ∈ c.lines <;> simp [hl, leaves, hst]

theorem destroy_blocked (hlock : d.counterLock = true) :
    (c.destroy id).run d = .error .blocked d := by
  obtain ⟨-, hremove, -, hstop⟩ := Device.calls_blocked hlock id c.lines
  unfold destroy
  by_cases hst : c.status = .active <;>
    simp only [hst, if_true, if_false, EStateM.run_bind, hstop, hremove]

theorem getReply_run [Zero V] [Add V] (c : Counter) (d : Device V) :
    c.getReply.run d = match c.get (d.lines.map fun _ ln => ln.powerData) with
      | .done r => .ok (c, r) d
      | .failed | .undefined => .error .raised d := by
  rw [getReply, Device.get_bind_run]
  generalize c.get (d.lines.map fun _ ln => ln.powerData) = x
  cases x <;> rfl

/-- A client that leaves too early takes the lock of the device with it. -/
theorem vanish_run (hlock : d.counterLock = false) (hid : id ∉ d.counters) :
    (vanish id : Py V Counter).run d = .error .exited d.locked := by
  have hremove : Device.removeCounter id [] d = .error .raised d.locked :=
    Device.removeCounter_missing hlock hid
  simp only [vanish, EStateM.run_bind]
  have hcatch : (tryCatch (Device.removeCounter id []) (fun h : Halt =>
      if h = .blocked then throw .blocked else throw .exited) : Py V Unit).run d =
      .error .exited d.locked := by
    simp only [tryCatch, tryCatchThe, MonadExceptOf.tryCatch, EStateM.tryCatch, EStateM.run,
      hremove]
    rfl
  rw [hcatch]

/-- The client is gone between the name of the device and the last line of the mask, which an
empty mask looks like. -/
def Vanishes (d : Device V) : Incoming → Prop
  | .closed (some dn) => dn = d.name
  | .whole req => req.deviceName ≠ [] ∧ req.deviceName = d.name ∧ req.linesMask = [] ∧
      ∃ interval, setFrequency d.maxFrequency req.frequency = .done interval
  | _ => False

structure Built (id : ℕ) (d d' : Device V) (c : Counter) : Prop where
  status : c.status = .inactive
  sets : c.sets = []
  nodup : c.lines.Nodup
  lines_lt : ∀ l ∈ c.lines, l < d.lines.size
  counters : d'.counters = d.counters.insert id
  free : d'.counterLock = false
  mapped : Device.Mapped d d' (fun l ln => if l ∈ c.lines then ln.enable else ln)

theorem setLines_spec {nLines : ℕ} {mask : List Byte} {sel : List ℕ}
    (h : setLines nLines mask = .done sel) : sel.Nodup ∧ ∀ l ∈ sel, l < nLines := by
  rw [setLines_eq] at h
  obtain rfl := Outcome.done.inj h
  split_ifs
  · exact ⟨List.nodup_range, fun l hl => List.mem_range.mp hl⟩
  · exact ⟨List.nodup_range.filter _, fun l hl => List.mem_range.mp (List.mem_of_mem_filter hl)⟩

theorem init_whole {req : CreateRequest} (hnamed : req.deviceName ≠ [])
    (hname : req.deviceName = d.name) : (init id (.whole req)).run d = (request id req).run d := by
  rw [hname] at hnamed
  simp only [init, EStateM.run_bind, EStateM.run_get, hname, hnamed, ne_eq, not_true_eq_false,
    if_false]

theorem request_run (hlock : d.counterLock = false) (id : ℕ) (hc : d.Complete)
    {req : CreateRequest} {interval : ℤ} {lines : List ℕ} (hmask : req.linesMask ≠ [])
    (hfreq : setFrequency d.maxFrequency req.frequency = .done interval)
    (hlines : setLines d.lines.size req.linesMask = .done lines) :
    ∃ d', (request id req).run d = .ok ⟨.inactive, req.aggregate, interval, lines, []⟩ d' ∧
      d'.counters = d.counters.insert id ∧ d'.counterLock = false ∧
      Device.Mapped d d' (fun l ln => if l ∈ lines then ln.enable else ln) := by
  obtain ⟨hn, hlt⟩ := setLines_spec hlines
  obtain ⟨d', hd', hrest⟩ := Device.addCounter_run hlock id hn fun l hl => hc l (hlt l hl)
  refine ⟨d', ?_, hrest⟩
  rw [request, EStateM.run_bind, EStateM.run_get]
  simp only [hfreq, hmask, if_false, hlines, EStateM.run_bind, hd', EStateM.run_pure]

/-- With the lock free and the lines in place, a request ends in one of four ways. -/
theorem init_cases (hlock : d.counterLock = false) (hid : id ∉ d.counters)
    (hc : d.Complete) (incoming : Incoming) :
    (¬ Vanishes d incoming ∧ ((init id incoming).run d = .error .raised d ∨
      (init id incoming).run d = .error .exited d)) ∨
    (Vanishes d incoming ∧ (init id incoming).run d = .error .exited d.locked) ∨
    ¬ Vanishes d incoming ∧ ∃ c d', (init id incoming).run d = .ok c d' ∧ Built id d d' c := by
  cases incoming with
  | reset => exact .inl ⟨fun h => h, .inr rfl⟩
  | short => exact .inl ⟨fun h => h, .inl rfl⟩
  | closed named =>
    cases named with
    | none => exact .inl ⟨fun h => h, .inr rfl⟩
    | some dn =>
      by_cases hdn : dn = d.name
      · refine .inr (.inl ⟨hdn, ?_⟩)
        rw [← vanish_run hlock hid]
        simp [init, hdn]
      · refine .inl ⟨hdn, .inl ?_⟩
        simp only [init, EStateM.run_bind, EStateM.run_get, hdn, if_false]
        rfl
  | whole req =>
    by_cases hempty : req.deviceName = []
    · refine .inl ⟨fun h => h.1 hempty, .inr ?_⟩
      simp only [init, EStateM.run_bind, EStateM.run_get, hempty, if_true]
      rfl
    by_cases hname : req.deviceName = d.name
    swap
    · refine .inl ⟨fun h => hname h.2.1, .inl ?_⟩
      simp only [init, EStateM.run_bind, EStateM.run_get, hempty, hname, ne_eq, not_false_eq_true,
        if_false, if_true]
      rfl
    rw [init_whole hempty hname]
    cases hfreq : setFrequency d.maxFrequency req.frequency with
    | failed | undefined =>
      refine .inl ⟨fun h => by simp [Vanishes, hfreq] at h, .inl ?_⟩
      rw [request, EStateM.run_bind, EStateM.run_get]
      simp only [hfreq]
      rfl
    | done interval =>
      by_cases hmask : req.linesMask = []
      · refine .inr (.inl ⟨⟨hempty, hname, hmask, interval, hfreq⟩, ?_⟩)
        rw [request, EStateM.run_bind, EStateM.run_get]
        simp only [hfreq, hmask, if_true]
        exact vanish_run hlock hid
      · refine .inr (.inr ⟨fun h => hmask h.2.2.1, ?_⟩)
        cases hlines : setLines d.lines.size req.linesMask with
        | failed | undefined => simp [setLines_eq] at hlines
        | done lines =>
          obtain ⟨hn, hlt⟩ := setLines_spec hlines
          obtain ⟨d', hd', hcounters, hfree, hm⟩ :=
            request_run hlock id hc hmask hfreq hlines
          exact ⟨_, d', hd', rfl, rfl, hn, hlt, hcounters, hfree, hm⟩

end Counter

/-! ## Events -/

def Session.enables (ss : Session V) (l : ℕ) : Bool := ss.running && l ∈ ss.counter.lines

def Session.activates (ss : Session V) (l : ℕ) : Bool :=
  ss.running && ss.counter.status = .active && l ∈ ss.counter.lines

structure Session.Ok (size : ℕ) (ss : Session V) : Prop where
  nodup : ss.counter.lines.Nodup
  lines_lt : ∀ l ∈ ss.counter.lines, l < size
  completed : ss.counter.lastSetCompleted = true ↔ ss.counter.status = .inactive
  running : ss.phase = .serving ∨ ss.phase = .created → ss.running = true

/-- The books of the device are kept over all sessions that were not removed from it, those
whose thread has ended included. -/
structure Server.WellFormed (s : Server V) : Prop where
  complete : s.dev.Complete
  sessions : ∀ (k : ℕ) (ss : Session V), s.sessions[k]? = some ss → ss.Ok s.dev.lines.size
  counters : ∀ i : ℕ, i ∈ s.dev.counters ↔ ∃ ss, s.sessions[i]? = some ss ∧ ss.running = true
  enabled : ∀ (l : ℕ) (ln : Line V), s.dev.lines[l]? = some ln →
    ln.enabled = RefCount.holders Session.enables s.sessions l
  active : ∀ (l : ℕ) (ln : Line V), s.dev.lines[l]? = some ln →
    ln.active = RefCount.holders Session.activates s.sessions l
  empty : ∀ (l : ℕ) (ln : Line V), s.dev.lines[l]? = some ln → ln.enabled = 0 →
    ln.powerData.samples = []
  lock : s.dev.counterLock = true → s.main = .ended
  created : ∀ (k : ℕ) (ss : Session V), s.sessions[k]? = some ss → ss.phase = .created →
    s.main = .answering ∧ k + 1 = s.sessions.length

theorem Server.WellFormed.has {s : Server V} (hw : s.WellFormed) {k : ℕ} {ss : Session V}
    (hk : s.sessions[k]? = some ss) : s.dev.Has ss.counter.lines :=
  fun l hl => hw.complete l ((hw.sessions k ss hk).lines_lt l hl)

theorem Server.WellFormed.fresh {s : Server V} (hw : s.WellFormed) :
    s.sessions.length ∉ s.dev.counters := by
  rw [hw.counters]
  rintro ⟨ss, hss, -⟩
  exact absurd (List.getElem?_eq_some_iff.mp hss).1 (lt_irrefl _)

def Event.Leaves (k : ℕ) : Event V → Prop
  | .receive j (.op n) => j = k ∧ Operation.ofInt n = some .finalize
  | .receive j .closed => j = k
  | _ => False

theorem Event.Leaves.of {j k : ℕ} {m : Message}
    (h : Event.Leaves j (.receive k m : Event V)) : j = k := by
  cases m with
  | op n => exact h.1.symm
  | closed => exact h.symm
  | reset | short => exact h.elim

def Server.Vanishes (s : Server V) : Event V → Prop
  | .connection op incoming =>
    Operation.ofInt op = some .create ∧ Counter.Vanishes s.dev incoming
  | _ => False

inductive Change : Server V → Event V → Server V → Prop where
  | sampled (s : Server V) (x : ℕ → V) :
      (s.dev.lines.toList.all fun line => line.2.hasRoom) = true →
      Change s (.sample x) { s with dev := s.dev.lineAppendData x }
  | ignored (s : Server V) (op : ℤ) (incoming : Incoming) : s.main = .accepting →
      (Operation.ofInt op = some .create → ¬ Counter.Vanishes s.dev incoming) →
      Change s (.connection op incoming) s
  | lost (s : Server V) (op : ℤ) (incoming : Incoming) : s.main = .accepting →
      ¬ Counter.Vanishes s.dev incoming →
      Change s (.connection op incoming) { s with main := .ended }
  | wedged (s : Server V) (op : ℤ) (incoming : Incoming) : s.main = .accepting →
      Operation.ofInt op = some .create → Counter.Vanishes s.dev incoming →
      Change s (.connection op incoming) { s with dev := s.dev.locked, main := .ended }
  | joined (s : Server V) (op : ℤ) (incoming : Incoming) (c : Counter) (dev : Device V) :
      s.main = .accepting → s.dev.counterLock = false → ¬ Counter.Vanishes s.dev incoming →
      Counter.Built s.sessions.length s.dev dev c →
      Change s (.connection op incoming) ⟨dev, s.sessions ++ [⟨c, true, .created⟩], .answering⟩
  | rephased (s : Server V) (e : Event V) (k : ℕ) (c : Counter) (ph ph' : Phase V) (main : Main) :
      s.sessions[k]? = some ⟨c, true, ph⟩ → (∀ op incoming, e ≠ .connection op incoming) →
      ph' ≠ .created → (main = s.main ∧ ph ≠ .created ∨ ph = .created) →
      (∀ j, s.dev.counterLock = false → ¬ e.Leaves j) →
      Change s e ⟨s.dev, s.sessions.set k ⟨c, true, ph'⟩, main⟩
  | opened (s : Server V) (op : ℤ) (k : ℕ) (c : Counter) (earlier : List CounterSet) (m : SetT)
      (dev : Device V) :
      s.sessions[k]? = some ⟨c, true, .serving⟩ → s.dev.counterLock = false →
      Operation.ofInt op ≠ some .finalize →
      c.status = .inactive → dev.counters = s.dev.counters → dev.counterLock = false →
      Device.Mapped s.dev dev (fun l ln => if l ∈ c.lines then ln.activate else ln) →
      Change s (.receive k (.op op)) (Server.withSession { s with dev } k
        ⟨{ c with status := .active, sets := earlier ++ [(m, none)] }, true,
          .replying (.retval .success)⟩)
  | closed (s : Server V) (op : ℤ) (k : ℕ) (c : Counter) (last : CounterSet) (m : SetT)
      (dev : Device V) :
      s.sessions[k]? = some ⟨c, true, .serving⟩ → s.dev.counterLock = false →
      Operation.ofInt op ≠ some .finalize →
      c.status = .active → dev.counters = s.dev.counters → dev.counterLock = false →
      Device.Mapped s.dev dev (fun l ln => if l ∈ c.lines then ln.inactivate else ln) →
      Change s (.receive k (.op op)) (Server.withSession { s with dev } k
        ⟨{ c with status := .inactive, sets := c.sets.dropLast ++ [(last.1, some m)] }, true,
          .replying (.retval .success)⟩)
  | departed (s : Server V) (m : Message) (k : ℕ) (c : Counter) (ph : Phase V) (dev : Device V) :
      s.sessions[k]? = some ⟨c, true, .serving⟩ → s.dev.counterLock = false →
      Event.Leaves k (.receive k m : Event V) →
      ph = .left ∨ ph = .replying (.retval .success) →
      dev.counters = s.dev.counters.erase k → dev.counterLock = false →
      Device.Mapped s.dev dev (fun l ln => if l ∈ c.lines then c.leaves ln else ln) →
      Change s (.receive k m) (Server.withSession { s with dev } k ⟨c, false, ph⟩)
  | gone (s : Server V) (k : ℕ) (ok : Bool) (c : Counter) (r : Reply V) :
      s.sessions[k]? = some ⟨c, false, .replying r⟩ →
      Change s (.send k ok) (s.withSession k ⟨c, false, .left⟩)

section change

variable {s u : Server V} {k : ℕ} {c : Counter}

theorem construct_change (hw : s.WellFormed) (hmain : s.main = .accepting) {op : ℤ}
    (hop : Operation.ofInt op = some .create) (incoming : Incoming) :
    Change s (.connection op incoming) (s.construct incoming) := by
  have hlock : s.dev.counterLock = false := by
    by_contra hlock
    have hended := hw.lock (by simpa using hlock)
    simp [hmain] at hended
  unfold Server.construct
  rcases Counter.init_cases hlock hw.fresh hw.complete incoming with
    ⟨hno, hrun | hrun⟩ | ⟨hyes, hrun⟩ | ⟨hno, c, dev, hrun, hbuilt⟩ <;> rw [hrun]
  · exact .ignored s op incoming hmain fun _ => hno
  · exact .lost s op incoming hmain hno
  · exact .wedged s op incoming hmain hop hyes
  · exact .joined s op incoming c dev hmain hlock hno hbuilt

theorem answer_change {m : Message} (hk : s.sessions[k]? = some ⟨c, true, .serving⟩)
    (hm : s.dev.counterLock = false → ¬ Event.Leaves k (.receive k m : Event V)) {ph : Phase V}
    (hph : ph ≠ .created) : Change s (.receive k m) (s.withSession k ⟨c, true, ph⟩) :=
  .rephased s _ k c .serving ph s.main hk (by simp) hph (.inl ⟨rfl, by simp⟩)
    fun _ hfree h => hm hfree (h.of ▸ h)

theorem not_leaves {op : ℤ} (hop : Operation.ofInt op ≠ some .finalize) :
    ¬ Event.Leaves k (.receive k (.op op) : Event V) := fun h => hop h.2

theorem Server.WellFormed.registered (hw : s.WellFormed)
    (hk : s.sessions[k]? = some ⟨c, true, .serving⟩) : k ∈ s.dev.counters :=
  (hw.counters k).mpr ⟨_, hk, rfl⟩

section serve

variable [Zero V] [Add V] {op : ℤ} {earlier : List CounterSet}

def Opens (k : ℕ) (c : Counter) (op : ℤ) (earlier : List CounterSet) : Prop :=
  (c.dispatch k op : Py V _) = do let (c, r) ← c.opening earlier; pure (c, r, true)

theorem opens_start (hop : Operation.ofInt op = some .start) : Opens (V := V) k c op [] := by
  rw [Opens, Counter.dispatch, hop]
  rfl

theorem opens_continue (hop : Operation.ofInt op = some .continue_) :
    Opens (V := V) k c op c.sets := by
  rw [Opens, Counter.dispatch, hop]
  rfl

theorem serve_opening (hw : s.WellFormed) (hk : s.sessions[k]? = some ⟨c, true, .serving⟩)
    (hlock : s.dev.counterLock = false) (hst : c.status = .inactive)
    (hd : Opens (V := V) k c op earlier) : ∃ dev m,
      s.serve k c op = Server.withSession { s with dev } k
        ⟨{ c with status := .active, sets := earlier ++ [(m, none)] }, true,
          .replying (.retval .success)⟩ ∧
      dev.counters = s.dev.counters ∧ dev.counterLock = false ∧
      Device.Mapped s.dev dev (fun l ln => if l ∈ c.lines then ln.activate else ln) ∧
      ∀ l ∈ c.lines, ∀ ln, dev.lines[l]? = some ln →
        m[l]? = some (ln.powerData.samples.length : ℤ) := by
  have hok := hw.sessions k _ hk
  obtain ⟨dev, m, hopen, hrest⟩ := Counter.opening_run hlock hok.nodup (hw.has hk)
    ⟨hst, hok.completed.mpr hst⟩ earlier
  have hrun : (c.dispatch k op).run s.dev = .ok ({ c with
      status := .active, sets := earlier ++ [(m, none)] }, .retval .success, true) dev := by
    rw [hd, EStateM.run_bind, hopen]
    rfl
  exact ⟨dev, m, by rw [Server.serve, hrun], hrest⟩

theorem serve_opening_refused (hst : c.status = .active) (hd : Opens (V := V) k c op earlier) :
    s.serve k c op = s.withSession k ⟨c, true, .replying (.retval .error)⟩ := by
  have hrun : (c.dispatch k op).run s.dev = .ok (c, .retval .error, true) s.dev := by
    rw [hd, Counter.opening, if_neg (by simp [hst])]
    rfl
  rw [Server.serve, hrun]

theorem dispatch_stop (hop : Operation.ofInt op = some .stop) :
    (c.dispatch k op : Py V _) = (do let (c, r) ← c.stop; pure (c, r, true)) := by
  rw [Counter.dispatch, hop]

theorem serve_stop (hw : s.WellFormed) (hk : s.sessions[k]? = some ⟨c, true, .serving⟩)
    (hlock : s.dev.counterLock = false) (hst : c.status = .active)
    (hop : Operation.ofInt op = some .stop) : ∃ dev m last, c.sets.getLast? = some last ∧
      s.serve k c op = Server.withSession { s with dev } k
        ⟨{ c with status := .inactive, sets := c.sets.dropLast ++ [(last.1, some m)] }, true,
          .replying (.retval .success)⟩ ∧
      dev.counters = s.dev.counters ∧ dev.counterLock = false ∧
      Device.Mapped s.dev dev (fun l ln => if l ∈ c.lines then ln.inactivate else ln) ∧
      ∀ l ∈ c.lines, ∀ ln, dev.lines[l]? = some ln →
        m[l]? = some (ln.powerData.samples.length : ℤ) := by
  have hok := hw.sessions k _ hk
  have hopen : c.lastSetCompleted = false := by
    have hcompleted := hok.completed
    simpa [hst] using hcompleted
  obtain ⟨dev, m, last, hlast, hstop, hrest⟩ :=
    Counter.stop_run hlock hok.nodup (hw.has hk) hst hopen
  have hrun : (c.dispatch k op).run s.dev = .ok ({ c with
      status := .inactive, sets := c.sets.dropLast ++ [(last.1, some m)] },
      .retval .success, true) dev := by
    rw [dispatch_stop hop, EStateM.run_bind, hstop]
    rfl
  exact ⟨dev, m, last, hlast, by rw [Server.serve, hrun], hrest⟩

theorem serve_stop_refused (hst : c.status = .inactive)
    (hop : Operation.ofInt op = some .stop) :
    s.serve k c op = s.withSession k ⟨c, true, .replying (.retval .error)⟩ := by
  have hrun : (c.dispatch k op).run s.dev = .ok (c, .retval .error, true) s.dev := by
    rw [dispatch_stop hop, Counter.stop, if_neg (by simp [hst])]
    rfl
  rw [Server.serve, hrun]

theorem serve_get (hop : Operation.ofInt op = some .get) :
    s.serve k c op = s.withSession k ⟨c, true,
      match c.get (s.dev.lines.map fun _ ln => ln.powerData) with
      | .done r => .replying r
      | .failed | .undefined => .dead⟩ := by
  have hd : c.dispatch k op = (do let (c, r) ← c.getReply; pure (c, r, true) : Py V _) := by
    rw [Counter.dispatch, hop]
  have hrun : (c.dispatch k op).run s.dev =
      match c.get (s.dev.lines.map fun _ ln => ln.powerData) with
      | .done r => .ok (c, r, true) s.dev
      | .failed | .undefined => .error .raised s.dev := by
    rw [hd, EStateM.run_bind, Counter.getReply_run]
    generalize c.get (s.dev.lines.map fun _ ln => ln.powerData) = x
    cases x <;> rfl
  rw [Server.serve, hrun]
  generalize c.get (s.dev.lines.map fun _ ln => ln.powerData) = x
  cases x <;> rfl

theorem dispatch_finalize (hop : Operation.ofInt op = some .finalize) :
    (c.dispatch k op : Py V _) =
      (do c.destroy k; pure (c, .retval .success, false)) := by
  rw [Counter.dispatch, hop]

theorem serve_finalize (hw : s.WellFormed) (hk : s.sessions[k]? = some ⟨c, true, .serving⟩)
    (hlock : s.dev.counterLock = false) (hop : Operation.ofInt op = some .finalize) :
    ∃ dev, s.serve k c op = Server.withSession { s with dev } k
        ⟨c, false, .replying (.retval .success)⟩ ∧
      dev.counters = s.dev.counters.erase k ∧ dev.counterLock = false ∧
      Device.Mapped s.dev dev (fun l ln => if l ∈ c.lines then c.leaves ln else ln) := by
  obtain ⟨dev, hdestroy, hrest⟩ := Counter.destroy_run hlock (hw.registered hk)
    (hw.sessions k _ hk).nodup (hw.has hk)
  have hrun : (c.dispatch k op).run s.dev = .ok (c, .retval .success, false) dev := by
    rw [dispatch_finalize hop, EStateM.run_bind, hdestroy]
    rfl
  exact ⟨dev, by rw [Server.serve, hrun], hrest⟩

theorem serve_blocked (hd : (c.dispatch k op).run s.dev = .error .blocked s.dev) :
    s.serve k c op = s.withSession k ⟨c, true, .blocked⟩ := by
  rw [Server.serve, hd]

theorem open_change (hw : s.WellFormed) (hk : s.sessions[k]? = some ⟨c, true, .serving⟩)
    (hop : Operation.ofInt op ≠ some .finalize) (hd : Opens (V := V) k c op earlier) :
    Change s (.receive k (.op op)) (s.serve k c op) := by
  cases hst : c.status with
  | active =>
    rw [serve_opening_refused hst hd]
    exact answer_change hk (fun _ => not_leaves hop) (by simp)
  | inactive =>
    cases hlock : s.dev.counterLock with
    | true =>
      rw [serve_blocked]
      · exact answer_change hk (fun _ => not_leaves hop) (by simp)
      · rw [hd, Counter.opening, if_pos ⟨hst, (hw.sessions k _ hk).completed.mpr hst⟩]
        simp only [EStateM.run_bind, (Device.calls_blocked hlock 0 c.lines).2.2.1]
    | false =>
      obtain ⟨dev, m, hu, hcounters, hfree, hm, -⟩ := serve_opening hw hk hlock hst hd
      rw [hu]
      exact .opened s op k c earlier m dev hk hlock hop hst hcounters hfree hm

theorem stop_change (hw : s.WellFormed) (hk : s.sessions[k]? = some ⟨c, true, .serving⟩)
    (hop : Operation.ofInt op = some .stop) :
    Change s (.receive k (.op op)) (s.serve k c op) := by
  have hstay : Operation.ofInt op ≠ some .finalize := by simp [hop]
  cases hst : c.status with
  | inactive =>
    rw [serve_stop_refused hst hop]
    exact answer_change hk (fun _ => not_leaves hstay) (by simp)
  | active =>
    cases hlock : s.dev.counterLock with
    | true =>
      have hcompleted := (hw.sessions k _ hk).completed
      rw [serve_blocked]
      · exact answer_change hk (fun _ => not_leaves hstay) (by simp)
      · rw [dispatch_stop hop, Counter.stop, if_pos ⟨hst, by simpa [hst] using hcompleted⟩]
        simp only [EStateM.run_bind, (Device.calls_blocked hlock 0 c.lines).2.2.2]
    | false =>
      obtain ⟨dev, m, last, -, hu, hcounters, hfree, hm, -⟩ := serve_stop hw hk hlock hst hop
      rw [hu]
      exact .closed s op k c last m dev hk hlock hstay hst hcounters hfree hm

theorem get_change (hk : s.sessions[k]? = some ⟨c, true, .serving⟩)
    (hop : Operation.ofInt op = some .get) :
    Change s (.receive k (.op op)) (s.serve k c op) := by
  rw [serve_get hop]
  refine answer_change hk (fun _ => not_leaves (by simp [hop])) ?_
  generalize c.get (s.dev.lines.map fun _ ln => ln.powerData) = x
  cases x <;> simp

theorem finalize_change (hw : s.WellFormed) (hk : s.sessions[k]? = some ⟨c, true, .serving⟩)
    (hop : Operation.ofInt op = some .finalize) :
    Change s (.receive k (.op op)) (s.serve k c op) := by
  cases hlock : s.dev.counterLock with
  | true =>
    rw [serve_blocked]
    · exact answer_change hk (by simp [hlock]) (by simp)
    · rw [dispatch_finalize hop, EStateM.run_bind, Counter.destroy_blocked hlock]
  | false =>
    obtain ⟨dev, hu, hcounters, hfree, hm⟩ := serve_finalize hw hk hlock hop
    rw [hu]
    exact .departed s _ k c _ dev hk hlock ⟨rfl, hop⟩ (.inr rfl) hcounters hfree hm

end serve

theorem close_left (hw : s.WellFormed) (hk : s.sessions[k]? = some ⟨c, true, .serving⟩)
    (hlock : s.dev.counterLock = false) :
    ∃ dev, s.close k c = Server.withSession { s with dev } k ⟨c, false, .left⟩ ∧
      dev.counters = s.dev.counters.erase k ∧ dev.counterLock = false ∧
      Device.Mapped s.dev dev (fun l ln => if l ∈ c.lines then c.leaves ln else ln) := by
  obtain ⟨dev, hdestroy, hrest⟩ := Counter.destroy_run hlock (hw.registered hk)
    (hw.sessions k _ hk).nodup (hw.has hk)
  exact ⟨dev, by rw [Server.close, hdestroy], hrest⟩

theorem close_change (hw : s.WellFormed) (hk : s.sessions[k]? = some ⟨c, true, .serving⟩) :
    Change s (.receive k .closed) (s.close k c) := by
  cases hlock : s.dev.counterLock with
  | true =>
    rw [Server.close, Counter.destroy_blocked hlock]
    exact answer_change hk (by simp [hlock]) (by simp)
  | false =>
    obtain ⟨dev, hu, hcounters, hfree, hm⟩ := close_left hw hk hlock
    rw [hu]
    exact .departed s _ k c _ dev hk hlock rfl (.inl rfl) hcounters hfree hm

theorem serve_change (hw : s.WellFormed) (hk : s.sessions[k]? = some ⟨c, true, .serving⟩)
    [Zero V] [Add V] (op : ℤ) : Change s (.receive k (.op op)) (s.serve k c op) := by
  have hraised (hd : (c.dispatch k op : Py V _) = throw .raised)
      (hop : Operation.ofInt op ≠ some .finalize) :
      Change s (.receive k (.op op)) (s.serve k c op) := by
    have hrun : (c.dispatch k op).run s.dev = .error .raised s.dev := by
      rw [hd]
      rfl
    rw [Server.serve, hrun]
    exact answer_change hk (fun _ => not_leaves hop) (by simp)
  cases hop : Operation.ofInt op with
  | none => exact hraised (by rw [Counter.dispatch, hop]) (by simp [hop])
  | some o =>
    cases o with
    | start => exact open_change hw hk (by simp [hop]) (opens_start hop)
    | continue_ => exact open_change hw hk (by simp [hop]) (opens_continue hop)
    | stop => exact stop_change hw hk hop
    | get => exact get_change hk hop
    | finalize => exact finalize_change hw hk hop
    | create | infoDevice | listDevices | cmdStatus | readDevice =>
      exact hraised (by rw [Counter.dispatch, hop]) (by simp [hop])

theorem next_change [Zero V] [Add V] (hw : s.WellFormed) {e : Event V}
    (h : s.next e = .done u) : Change s e u := by
  cases e with
  | sample x =>
    simp only [Server.next] at h
    split_ifs at h with hroom
    obtain rfl := Outcome.done.inj h
    exact .sampled s x hroom
  | connection op incoming =>
    simp only [Server.next] at h
    split_ifs at h with hmain hop
    · obtain rfl := Outcome.done.inj h
      exact construct_change hw hmain hop incoming
    · obtain rfl := Outcome.done.inj h
      exact .ignored s op incoming hmain fun h => absurd h hop
  | receive k m =>
    simp only [Server.next] at h
    split at h
    case h_2 => cases h
    case h_1 c running hk =>
      obtain rfl := Outcome.done.inj h
      obtain rfl : running = true := (hw.sessions k _ hk).running (.inl rfl)
      cases m with
      | op n => exact serve_change hw hk n
      | closed => exact close_change hw hk
      | reset | short => exact answer_change hk (by simp [Event.Leaves]) (by simp)
  | send k ok =>
    simp only [Server.next] at h
    split at h
    · rename_i c running hk
      obtain rfl := Outcome.done.inj h
      obtain rfl : running = true := (hw.sessions k _ hk).running (.inr rfl)
      cases ok
      · exact .rephased s _ k c .created .dead .ended hk (by simp) (by simp) (.inr rfl)
          fun _ _ h => h
      · exact .rephased s _ k c .created .serving .accepting hk (by simp) (by simp) (.inr rfl)
          fun _ _ h => h
    · rename_i c r hk
      obtain rfl := Outcome.done.inj h
      exact .rephased s _ k c _ _ s.main hk (by simp) (by cases ok <;> simp)
        (.inl ⟨rfl, by simp⟩) fun _ _ h => h
    · rename_i c r hk
      obtain rfl := Outcome.done.inj h
      exact .gone s k ok c r hk
    · cases h

end change

end PMLib.Legacy
