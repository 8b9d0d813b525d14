import PMLib.Configuration
import PMLib.Dispatch
import PMLib.Measurements

/-! # One device among others

Whatever runs on the other devices, the sessions on one device run as if it were the only one. -/
namespace PMLib

variable {V : Type} {register : Name → Option Driver} {text : Json → List Byte}
  {takesDisk : DiskCheck} {conf : Json}

theorem named_parseConfigfile {dn : Name} {dev : Device V}
    (h : (parseConfigfile register text takesDisk conf)[dn]? = some dev) : dev.name = dn := by
  obtain ⟨_, d, _, _, hdev⟩ := mem_parseConfigfile h
  obtain ⟨driver, _, _, st, -, -, rfl⟩ := accepted_of_parseDevice hdev
  rfl

namespace Daemon

def configured (register : Name → Option Driver) (text : Json → List Byte) (takesDisk : DiskCheck)
    (conf : Json) : Daemon V :=
  start (parseConfigfile register text takesDisk conf)

def viewedAt [Zero V] [Add V] (dn : Name) (s : Daemon V) (es : List (DaemonEvent V)) :
    List (Event V) :=
  Simulation.viewed next (view dn) s es

def SameDevices (m m' : Std.TreeMap Name (Device V)) : Prop :=
  ∀ dn : Name, m'[dn]?.map Device.kind = m[dn]?.map Device.kind

theorem SameDevices.isSome {m m' : Std.TreeMap Name (Device V)} (h : SameDevices m m')
    (dn : Name) : m'[dn]?.isSome = m[dn]?.isSome := by
  rw [← Option.isSome_map, h dn, Option.isSome_map]

theorem sameDevices_insert {m : Std.TreeMap Name (Device V)} {name : Name} {dev dev' : Device V}
    (h : m[name]? = some dev) (hkind : dev'.kind = dev.kind) :
    SameDevices m (m.insert name dev') := by
  intro dn
  rw [Std.TreeMap.getElem?_insert]
  split_ifs with hc
  · obtain rfl : name = dn := by simpa using hc
    rw [h, Option.map_some, Option.map_some, hkind]
  · rfl

inductive Moves (s : Daemon V) : Daemon V → Prop where
  | still (u : Daemon V) : SameDevices s.deviceMap u.deviceMap → u.handlers = s.handlers →
      Moves s u
  | joined (u : Daemon V) (h : Handler V) : SameDevices s.deviceMap u.deviceMap →
      u.handlers = s.handlers ++ [h] →
      (∀ dn, h.device = some dn → s.deviceMap[dn]?.isSome = true) → Moves s u
  | moved (u : Daemon V) (k : ℕ) (h h' : Handler V) : SameDevices s.deviceMap u.deviceMap →
      s.handlers[k]? = some h → h'.device = h.device → u.handlers = s.handlers.set k h' →
      Moves s u

variable {s u : Daemon V}

theorem onDevice_moves {k : ℕ} {ss : Session V} {name : Name}
    (hk : s.handlers[k]? = some ⟨ss, some name⟩)
    {f : Device V → Outcome (Device V × Session V)}
    (hkind : ∀ dev dev' ss', f dev = .done (dev', ss') → dev'.kind = dev.kind)
    (hn : s.onDevice k name f = .done u) : s.Moves u := by
  obtain ⟨dev, hdev, hn⟩ := Outcome.bind_eq_done.mp hn
  obtain ⟨⟨dev', ss'⟩, hf, hn⟩ := Outcome.bind_eq_done.mp hn
  obtain rfl := Outcome.done.inj hn
  exact .moved _ k _ ⟨ss', some name⟩
    (sameDevices_insert (Outcome.ofOption_eq_done.mp hdev) (hkind _ _ _ hf)) hk rfl rfl

theorem construct_moves {req : Option CreateRequest} (hn : s.construct req = .done u) :
    s.Moves u := by
  unfold construct at hn
  dsimp only at hn
  split at hn
  · obtain rfl := Outcome.done.inj hn
    exact .joined _ _ (fun _ => rfl) rfl (by simp)
  · next req =>
    split at hn
    · obtain rfl := Outcome.done.inj hn
      exact .joined _ _ (fun _ => rfl) rfl (by simp)
    · next dev hdev =>
      have hfound : ∀ dn, some req.deviceName = some dn → s.deviceMap[dn]?.isSome = true := by
        rintro _ ⟨⟩
        rw [hdev]
        rfl
      split at hn
      · next hc =>
        obtain rfl := Outcome.done.inj hn
        exact .joined _ _ (sameDevices_insert hdev (Counter.construct_kind hc)) rfl hfound
      · obtain rfl := Outcome.done.inj hn
        exact .joined _ _ (fun _ => rfl) rfl hfound
      · cases hn

theorem next_moves [Zero V] [Add V] {e : DaemonEvent V} (hn : s.next e = .done u) :
    s.Moves u := by
  cases e with
  | sample name x =>
    simp only [next] at hn
    split at hn
    · next dev hdev =>
      obtain rfl := Outcome.done.inj hn
      have hkind : (dev.pushBackData x).kind = dev.kind := rfl
      exact .still _ (sameDevices_insert hdev hkind) rfl
    · cases hn
  | connection op req =>
    simp only [next] at hn
    split_ifs at hn
    · exact construct_moves hn
    · obtain rfl := Outcome.done.inj hn
      exact .still _ (fun _ => rfl) rfl
  | receive k op =>
    simp only [next] at hn
    split at hn
    · exact onDevice_moves ‹_› (fun _ _ _ => Session.receive_kind) hn
    · cases hn
  | send k ok =>
    simp only [next] at hn
    split at hn
    · exact onDevice_moves ‹_› (fun _ _ _ => Session.send_kind) hn
    · next ss hk =>
      obtain ⟨ss', -, hn⟩ := Outcome.bind_eq_done.mp hn
      obtain rfl := Outcome.done.inj hn
      exact .moved _ k _ ⟨ss', none⟩ (fun _ => rfl) hk rfl rfl
    · cases hn

theorem Moves.device_kept (hm : s.Moves u) {k : ℕ} {h : Handler V}
    (hk : s.handlers[k]? = some h) : ∃ h', u.handlers[k]? = some h' ∧ h'.device = h.device := by
  have hlt := (List.getElem?_eq_some_iff.mp hk).1
  cases hm with
  | still _ heq => exact ⟨h, heq ▸ hk, rfl⟩
  | joined _ _ heq => exact ⟨h, by rw [heq, List.getElem?_append_left hlt, hk], rfl⟩
  | moved j x y _ hj hy heq =>
    rw [heq]
    by_cases hjk : j = k
    · subst hjk
      obtain rfl := Option.some.inj (hj.symm.trans hk)
      exact ⟨y, List.getElem?_set_self hlt, hy⟩
    · exact ⟨h, by rw [List.getElem?_set_ne hjk, hk], rfl⟩

structure Keeps (m : Std.TreeMap Name (Device V)) (s : Daemon V) : Prop where
  devices : SameDevices m s.deviceMap
  found : ∀ (k : ℕ) (h : Handler V) (dn : Name), s.handlers[k]? = some h →
    h.device = some dn → m[dn]?.isSome = true

theorem Keeps.next {m : Std.TreeMap Name (Device V)} (h : s.Keeps m) (hm : s.Moves u) :
    u.Keeps m := by
  cases hm with
  | still hd heq => exact ⟨fun dn => (hd dn).trans (h.devices dn), heq ▸ h.found⟩
  | joined x hd heq hx =>
    refine ⟨fun dn => (hd dn).trans (h.devices dn), fun k y dn hk hdn => ?_⟩
    rw [heq] at hk
    rcases RefCount.getElem?_snoc_cases hk with ⟨-, rfl⟩ | hk
    · exact (h.devices.isSome dn).symm.trans (hx dn hdn)
    · exact h.found _ _ _ hk hdn
  | moved j x y hd hj hy heq =>
    refine ⟨fun dn => (hd dn).trans (h.devices dn), fun k z dn hk hdn => ?_⟩
    rw [heq] at hk
    rcases RefCount.getElem?_set_cases hk with ⟨rfl, rfl⟩ | ⟨-, hk⟩
    · exact h.found _ _ _ hj (hy ▸ hdn)
    · exact h.found _ _ _ hk hdn

section runs

variable [Zero V] [Add V] {m : Std.TreeMap Name (Device V)} {es : List (DaemonEvent V)}
  {dn : Name} {dev₀ : Device V}

/-- The part of a run that device `dn` sees is a run of the device alone, and leaves it with the
same lines, counters and sessions. -/
theorem exec_viewedAt (hdev : m[dn]? = some dev₀) (hname : dev₀.name = dn)
    (h : Trace.exec next (start m) es = .done s) : ∃ t : Server V,
      Trace.exec Server.next ⟨dev₀, []⟩ (viewedAt dn (start m) es) = .done t ∧
        ShownBy dn s t :=
  Simulation.exec_viewed (fun _ _ _ _ hR hn => hR.step hn) ⟨hdev, hname, rfl⟩ h

theorem exec_keeps (h : Trace.exec next (start m) es = .done s) : s.Keeps m :=
  Trace.exec_invariant next (fun _ s => Keeps m s) ⟨fun _ => rfl, by simp [start]⟩
    (fun _ _ _ _ _ hk hn => hk.next (next_moves hn)) h

theorem exec_device_kept (h : Trace.exec next u es = .done s) {k : ℕ} {hd : Handler V}
    (hk : u.handlers[k]? = some hd) :
    ∃ hd', s.handlers[k]? = some hd' ∧ hd'.device = hd.device := by
  refine Trace.exec_invariant next
    (fun _ s => ∃ hd', s.handlers[k]? = some hd' ∧ hd'.device = hd.device) ⟨hd, hk, rfl⟩ ?_ h
  rintro _ t e w - ⟨hd', hk', hdev⟩ hn
  obtain ⟨hd'', hk'', hdev'⟩ := (next_moves hn).device_kept hk'
  exact ⟨hd'', hk'', hdev'.trans hdev⟩

def relabel (dn : Name) : DaemonEvent V → Option (Event V)
  | .sample name x => if name = dn then some (.sample x) else none
  | .connection op req => some (.connection op req)
  | .receive k op => some (.receive k op)
  | .send k ok => some (.send k ok)

def recordingAt (dn : Name) (k : ℕ) (es : List (DaemonEvent V)) : Recorder (ℕ → V) :=
  recording k (es.filterMap (relabel dn))

omit [Zero V] [Add V] in
theorem recordingAt_eq (k : ℕ) (es : List (DaemonEvent V)) :
    recordingAt dn k es =
      es.foldl (fun r e => (relabel dn e).elim r fun e => r.record k e) .empty := by
  rw [recordingAt, recording, List.foldl_filterMap]
  congr 1
  funext r e
  cases relabel dn e <;> rfl

theorem recording_viewedAt (h : Trace.exec next (start m) es = .done s) {k : ℕ}
    {ss : Session V} (hk : s.handlers[k]? = some ⟨ss, some dn⟩) :
    recording k (viewedAt dn (start m) es) = recordingAt dn k es := by
  rw [recordingAt_eq, recording, viewedAt]
  refine Simulation.foldl_viewed (fun pre e hp t ht r => ?_) h _
  obtain ⟨rest, rfl⟩ := hp
  obtain ⟨u, hu, hrest⟩ := (Trace.exec_append_eq_done next).mp h
  obtain ⟨t', ht', hn⟩ := (Trace.exec_snoc next).mp hu
  obtain rfl : t = t' := Outcome.done.inj (ht.symm.trans ht')
  -- a session that is not on the device yet has received nothing
  have hown : ∀ hd, t.handlers[k]? = some hd → hd.device = some dn := by
    intro hd hkd
    obtain ⟨hd₁, hk₁, h₁⟩ := (next_moves hn).device_kept hkd
    obtain ⟨hd₂, hk₂, h₂⟩ := exec_device_kept hrest hk₁
    obtain rfl := Option.some.inj (hk.symm.trans hk₂)
    exact h₁.symm.trans h₂.symm
  cases e with
  | sample name x =>
    by_cases hname : name = dn <;> simp [view, relabel, hname]
  | connection op req =>
    by_cases hop : Operation.ofInt op = some .create <;>
      simp [view, relabel, hop, Recorder.record]
  | send j ok =>
    by_cases hj : (t.handlers[j]?.bind Handler.device) = some dn <;>
      simp [view, relabel, hj, Recorder.record]
  | receive j op =>
    by_cases hjk : j = k
    · subst hjk
      simp only [next] at hn
      split at hn
      · next ss' name hj =>
        obtain rfl : name = dn := by simpa using hown _ hj
        simp [view, relabel, hj]
      · cases hn
    · have hrec : ∀ r : Recorder (ℕ → V), r.record k (.receive j op) = r := by
        intro r
        cases op <;> simp [Recorder.record, hjk]
      by_cases hj : (t.handlers[j]?.bind Handler.device) = some dn <;>
        simp [view, relabel, hj, hrec]

def Fits (dn : Name) (s : Daemon V) : Prop :=
  ∀ dev, s.deviceMap[dn]? = some dev →
    ∀ (l : ℕ) (ln : Line V), dev.lines[l]? = some ln → ln.data.length < 2 ^ 31

omit [Zero V] [Add V] in
theorem length_view_le (s : Daemon V) (e : DaemonEvent V) : (view dn s e).length ≤ 1 := by
  cases e with
  | sample name x | connection op req | receive k op | send k ok =>
    rw [view]
    split_ifs <;> simp

theorem buffersFit_viewedAt (hdev : m[dn]? = some dev₀) (hname : dev₀.name = dn)
    (h : Trace.exec next (start m) es = .done s)
    (hfit : Trace.Always next (start m) es (Fits dn)) :
    Trace.Always Server.next ⟨dev₀, []⟩ (viewedAt dn (start m) es) Server.BuffersFit := by
  intro seen hp t ht
  obtain ⟨pre, hpre, rfl⟩ := Simulation.exists_viewed_eq length_view_le h hp
  obtain ⟨u, hu⟩ := Trace.exec_of_isPrefix next h hpre
  obtain ⟨t', ht', hshown⟩ := exec_viewedAt hdev hname hu
  obtain rfl := Outcome.done.inj (ht.symm.trans ht')
  exact hfit pre hpre u hu _ hshown.device

omit [Zero V] [Add V] in
theorem ShownBy.handler {t : Server V} (h : ShownBy dn s t) {k : ℕ} {ss : Session V}
    (hreg : ss.counter.registered = true) :
    t.sessions[k]? = some ss ↔ s.handlers[k]? = some ⟨ss, some dn⟩ := by
  rw [h.sessions]
  refine ⟨fun hk => ?_, getElem?_seen⟩
  rw [List.getElem?_mapIdx, Option.map_eq_some_iff] at hk
  obtain ⟨⟨ss', device⟩, hk, rfl⟩ := hk
  unfold seenAt at hreg ⊢
  split_ifs at hreg ⊢ with hd
  · obtain rfl : device = some dn := hd
    exact hk
  · simp [Counter.unregistered] at hreg

omit [Zero V] [Add V] in
theorem holders_seen {holds : Session V → ℕ → Bool} {l : ℕ}
    (hnone : ∀ k, holds ⟨.unregistered k, .catching⟩ l = false) (hs : List (Handler V)) :
    RefCount.holders holds (hs.mapIdx (seenAt dn)) l =
      hs.countP fun hd => decide (hd.device = some dn) && holds hd.session l := by
  induction hs using List.reverseRecOn with
  | nil => rfl
  | append_singleton hs hd ih =>
    rw [List.mapIdx_concat, RefCount.holders_snoc, ih, List.countP_append, seenAt]
    by_cases hdev : hd.device = some dn
    · cases hholds : holds hd.session l <;> simp [hdev, hholds]
    · simp [hdev, hnone]

end runs

/-! ## Results -/

section results

variable [Zero V] [Add V] {es es' : List (DaemonEvent V)} {s s' : Daemon V} {dn : Name}
  {dev₀ : Device V}

def twoMeters : Json :=
  devicesOnly [(ascii "a", oneLineEntry "WattsUp"), (ascii "b", oneLineEntry "WattsUp")]

def measureBoth : List (DaemonEvent ℤ) :=
  [.connection 0 (some ⟨ascii "b", 0, false, [1#8]⟩), .send 0 true,
    .connection 0 (some ⟨ascii "a", 0, false, [1#8]⟩), .send 1 true,
    .receive 0 (some 1), .send 0 true, .receive 1 (some 1), .send 1 true,
    .sample (ascii "b") fun _ => 5, .sample (ascii "a") fun _ => 7,
    .sample (ascii "b") fun _ => 6, .receive 1 (some 3), .send 1 true, .receive 1 (some 4)]

def dataReply (s : Daemon V) (k : ℕ) : Option (Name × Counter × GetReply V) :=
  match s.handlers[k]? with
  | some ⟨⟨c, .replying (.data r)⟩, some dn⟩ => some (dn, c, r)
  | _ => none

omit [Zero V] [Add V] in
theorem dataReply_eq_some {k : ℕ} {c : Counter} {r : GetReply V} :
    s.dataReply k = some (dn, c, r) ↔
      s.handlers[k]? = some ⟨⟨c, .replying (.data r)⟩, some dn⟩ := by
  unfold dataReply
  split
  · next hk =>
    simp only [hk, Option.some.injEq, Prod.mk.injEq, Handler.mk.injEq, Session.mk.injEq,
      Phase.replying.injEq, Reply.data.injEq]
    exact and_comm
  · constructor
    · simp
    · intro h
      simp_all

theorem reply_eq (h : Trace.exec next (configured register text takesDisk conf) es = .done s)
    (hfit : Trace.Always next (configured register text takesDisk conf) es (Fits dn)) {k : ℕ}
    {c : Counter} {r : GetReply V}
    (hk : s.handlers[k]? = some ⟨⟨c, .replying (.data r)⟩, some dn⟩) (hi : c.interval = 1) :
    r = c.windowReply (recordingAt dn k es).closed := by
  have hknown := (exec_keeps h).found k _ dn hk rfl
  obtain ⟨dev₀, hdev⟩ := Option.isSome_iff_exists.mp hknown
  have hname := named_parseConfigfile hdev
  obtain ⟨t, ht, hshown⟩ := exec_viewedAt hdev hname h
  let ρ : Run V := ⟨_, _, t, initial_parseConfigfile hdev, ht⟩
  have hkt : t.sessions[k]? = some ⟨c, .replying (.data r)⟩ := by
    rw [hshown.sessions]
    exact getElem?_seen hk
  obtain ⟨hr, -⟩ := ρ.reply_eq ht (buffersFit_viewedAt hdev hname h hfit) hkt (by omega)
  rwa [recording_viewedAt h hk] at hr

/-- In every state the books of each device are those of the counters that have found it. -/
theorem books_exact (h : Trace.exec next (configured register text takesDisk conf) es = .done s)
    {dev : Device V} (hdev : s.deviceMap[dn]? = some dev) :
    (∀ i : ℕ, i ∈ dev.counterMap ↔ ∃ (k : ℕ) (hd : Handler V), i = k + 1 ∧
      s.handlers[k]? = some hd ∧ hd.device = some dn ∧ hd.session.attached = true) ∧
    ∀ (l : ℕ) (ln : Line V), dev.lines[l]? = some ln →
      ln.enabled = s.handlers.countP (fun hd =>
        decide (hd.device = some dn) && hd.session.enables l) ∧
      ln.active = s.handlers.countP (fun hd =>
        decide (hd.device = some dn) && hd.session.activates l) ∧
      (ln.enabled = 0 → ln.active = 0 → ln.data = []) := by
  have hknown : (parseConfigfile (V := V) register text takesDisk conf)[dn]?.isSome = true := by
    rw [← (exec_keeps h).devices.isSome dn, hdev]
    rfl
  obtain ⟨dev₀, hdev₀⟩ := Option.isSome_iff_exists.mp hknown
  obtain ⟨t, ht, hshown⟩ := exec_viewedAt hdev₀ (named_parseConfigfile hdev₀) h
  obtain rfl : t.dev = dev := Option.some.inj (hshown.device.symm.trans hdev)
  let ρ : Run V := ⟨_, _, t, initial_parseConfigfile hdev₀, ht⟩
  have hw := ρ.wellFormed _ (List.prefix_refl _) t ht
  constructor
  · intro i
    rw [hw.counterMap]
    constructor
    · rintro ⟨k, ss, rfl, hk, hatt⟩
      have hreg : ss.counter.registered = true := by
        simp only [Session.attached, Bool.and_eq_true] at hatt
        exact hatt.1
      exact ⟨k, _, rfl, (hshown.handler hreg).mp hk, rfl, hatt⟩
    · rintro ⟨k, ⟨ss, device⟩, rfl, hk, rfl, hatt⟩
      exact ⟨k, ss, rfl, by rw [hshown.sessions]; exact getElem?_seen hk, hatt⟩
  · intro l ln hl
    have he := hw.enabled l ln hl
    have ha := hw.active l ln hl
    rw [hshown.sessions, holders_seen fun k => rfl] at he
    rw [hshown.sessions, holders_seen fun k => by simp [Session.activates, Counter.activates,
      Counter.unregistered]] at ha
    exact ⟨he, ha, hw.empty l ln hl⟩

theorem books_exact_meters : ∃ (s : Daemon ℤ) (dev : Device ℤ),
    Trace.exec next (configured deviceRegister (fun _ => []) anyDisk twoMeters) measureBoth =
      .done s ∧ s.deviceMap[ascii "a"]? = some dev ∧ (∃ i ∈ dev.counterMap, i = 2) := by
  have hrun : (Trace.exec next (configured (V := ℤ) deviceRegister (fun _ => []) anyDisk twoMeters)
    measureBoth).check (fun s => (s.deviceMap[ascii "a"]?.any fun dev => dev.nLines == 1) &&
      (s.handlers[1]?.any fun hd => hd.device == some (ascii "a") && hd.session.attached)) =
        true := by decide +kernel
  obtain ⟨s, h, hp⟩ := Outcome.check_eq_true.mp hrun
  simp only [Bool.and_eq_true, Option.any_eq_true, beq_iff_eq] at hp
  obtain ⟨⟨dev, hdev, -⟩, hd, hk, hname, hatt⟩ := hp
  obtain ⟨hmap, -⟩ := books_exact h hdev
  exact ⟨s, dev, h, hdev, 2, (hmap 2).mpr ⟨1, hd, rfl, hk, hname, hatt⟩, rfl⟩

end results

end Daemon

end PMLib
