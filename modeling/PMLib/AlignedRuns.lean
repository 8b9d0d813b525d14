import PMLib.Alignment
import PMLib.Lib.RefCount

/-! # Runs line by line

What one step of a handler or of the consumer keeps, and from it what holds in every state of
a run. -/
namespace PMLib

open Int32Conv

/-! ## One step of a handler -/

theorem Device.tape_of_line {dev : Device ℕ} {l : ℕ} {ln : Line ℕ}
    (h : dev.line l = .done ln) : dev.tape l = some ln.data := by
  rw [tape, Outcome.ofOption_eq_done.mp h]
  rfl

theorem Device.tape_withLine {dev dev' : Device ℕ} {l : ℕ} {f : Line ℕ → Line ℕ}
    (h : dev.withLine l f = .done dev') (hf : ∀ ln, (f ln).data = ln.data) :
    dev'.tape = dev.tape := by
  funext j
  rw [tape, (withLine_spec h).2, tape, Option.map_map]
  congr 1
  funext ln
  by_cases hj : j = l
  · simp [hj, hf]
  · simp [hj]

namespace Thread

/-- Line by line, a handler takes as much from the count of users as it lets go. -/
def Balanced (dev dev' : Device ℕ) (th th' : Thread) : Prop :=
  ∀ (l : ℕ) (ln' : Line ℕ), dev'.lines[l]? = some ln' → ∃ ln, dev.lines[l]? = some ln ∧
    ln.active + (th'.holds l).toNat ≤ ln'.active + (th.holds l).toNat

theorem Balanced.of_holds {dev : Device ℕ} {th th' : Thread}
    (h : ∀ l, th'.holds l = th.holds l) : Balanced dev dev th th' :=
  fun l ln hln => ⟨ln, hln, by rw [h]⟩

variable {th th' : Thread} {coming : ℕ → ℕ} {dev dev' : Device ℕ}

theorem Balanced.of_withLine {l : ℕ} {f : Line ℕ → Line ℕ}
    (h : dev.withLine l f = .done dev') (hne : ∀ j, j ≠ l → th'.holds j = th.holds j)
    (hl : ∀ ln, dev.lines[l]? = some ln →
      ln.active + (th'.holds l).toNat ≤ (f ln).active + (th.holds l).toNat) :
    Balanced dev dev' th th' := by
  intro j ln' hln'
  rw [(Device.withLine_spec h).2, Option.map_eq_some_iff] at hln'
  obtain ⟨ln, hln, rfl⟩ := hln'
  refine ⟨ln, hln, ?_⟩
  by_cases hj : j = l
  · subst hj
    simpa using hl ln hln
  · rw [hne j hj, if_neg hj]

/-- What a step of a handler keeps: its own invariant, all buffers, and the counts of users. -/
structure Kept (dev : Device ℕ) (coming : ℕ → ℕ) (th : Thread) (dev' : Device ℕ)
    (th' : Thread) : Prop where
  sound : th'.Sound dev.tape coming
  tape : dev'.tape = dev.tape
  balanced : Balanced dev dev' th th'

section cases

variable {c : Counter} {erasing : Bool} {rest : List ℕ} {sizes : SetT} {due : ℕ}

theorem Sound.step_activating (h : Sound dev.tape coming ⟨c, .activating erasing rest, due⟩)
    (hs : step dev coming ⟨c, .activating erasing rest, due⟩ = .done (dev', th')) :
    Kept dev coming ⟨c, .activating erasing rest, due⟩ dev' th' := by
  have hsuf : rest <:+ c.lines := h.walks
  cases rest with
  | nil =>
    cases hs
    refine ⟨.blank h.nodup h.has ⟨List.suffix_refl _, rfl, fun l => ?_⟩ rfl rfl h.closed, rfl,
      .of_holds fun l => ?_⟩
    · simp
    · simp [holds]
  | cons l rest =>
    obtain ⟨dev₁, hdev, hs⟩ := Outcome.bind_eq_done.mp hs
    cases hs
    have hmem : l ∈ c.lines := hsuf.subset (by simp)
    have hnot := (List.nodup_cons.mp (h.nodup.sublist hsuf.sublist)).1
    refine ⟨.blank h.nodup h.has ((List.suffix_cons l rest).trans hsuf) rfl rfl h.closed,
      Device.tape_withLine hdev fun _ => rfl, .of_withLine hdev (fun j hj => ?_) fun ln _ => ?_⟩
    · simp [holds, hj]
    · simp [holds, hnot, hmem]

theorem Sound.step_opening (h : Sound dev.tape coming ⟨c, .opening erasing rest sizes, due⟩)
    (hk : Keeps dev.tape coming ⟨c, .opening erasing rest sizes, due⟩)
    (hs : step dev coming ⟨c, .opening erasing rest sizes, due⟩ = .done (dev', th')) :
    Kept dev coming ⟨c, .opening erasing rest sizes, due⟩ dev' th' := by
  obtain ⟨-, hst, hsizes⟩ := h.walks
  have hactive : c.status = .active := hst
  cases rest with
  | nil =>
    cases hs
    refine ⟨h.of_same rfl rfl ?_ ?_ rfl ?_ ?_, rfl, .of_holds fun l => ?_⟩
    · intro _ l hl
      simpa [latest] using (hsizes l).mpr ⟨hl, by simp⟩
    · simp [begins, latest, hactive]
    · simp [holds]
    · intro begins ends hmem
      cases erasing <;> simp_all
    · simp [holds, hactive]
  | cons l rest =>
    obtain ⟨ln, hln, hs⟩ := Outcome.bind_eq_done.mp hs
    cases hs
    have hd := Device.tape_of_line hln
    have hsize : ln.getSize = (ln.data.length : ℤ) := wrap32_natCast (hk.1 ln.data hd)
    rw [hsize]
    exact ⟨h.opened hd hk.2, rfl, .of_holds fun _ => rfl⟩

theorem Sound.step_deactivating (h : Sound dev.tape coming ⟨c, .deactivating rest, due⟩)
    (hs : step dev coming ⟨c, .deactivating rest, due⟩ = .done (dev', th')) :
    Kept dev coming ⟨c, .deactivating rest, due⟩ dev' th' := by
  obtain ⟨hsuf, hlatest⟩ := h.walks
  cases rest with
  | nil =>
    cases hs
    refine ⟨h.of_same rfl rfl ⟨List.suffix_refl _, rfl, hlatest, fun l => ?_⟩ rfl rfl ?_
      fun _ _ hm => hm, rfl, .of_holds fun l => ?_⟩
    · simp
    · simp [holds]
    · simp [holds]
  | cons l rest =>
    obtain ⟨dev₁, hdev, hs⟩ := Outcome.bind_eq_done.mp hs
    cases hs
    have hnot := (List.nodup_cons.mp (h.nodup.sublist hsuf.sublist)).1
    refine ⟨h.of_same rfl rfl ⟨(List.suffix_cons l rest).trans hsuf, hlatest⟩ rfl rfl ?_
      fun _ _ hm => hm, Device.tape_withLine hdev Line.deactivate_data,
      .of_withLine hdev (fun j hj => ?_) fun ln _ => ?_⟩
    · intro j hj
      simp only [holds, decide_eq_true_eq] at hj ⊢
      exact List.mem_cons_of_mem l hj
    · simp [holds, hj]
    · simp [holds, hnot]
      omega

theorem Sound.step_closing (h : Sound dev.tape coming ⟨c, .closing rest sizes, due⟩)
    (hk : Keeps dev.tape coming ⟨c, .closing rest sizes, due⟩)
    (hs : step dev coming ⟨c, .closing rest sizes, due⟩ = .done (dev', th')) :
    Kept dev coming ⟨c, .closing rest sizes, due⟩ dev' th' := by
  obtain ⟨-, hst, -, -⟩ := h.walks
  have hinactive : c.status = .inactive := hst
  cases rest with
  | nil =>
    obtain ⟨last, hlast, hs⟩ := Outcome.bind_eq_done.mp hs
    cases hs
    have hlast := Outcome.ofOption_eq_done.mp hlast
    refine ⟨.blank h.nodup h.has ?_ ?_ rfl ?_, rfl, .of_holds fun l => ?_⟩
    · intro hact
      simp [hinactive] at hact
    · simp [begins, hinactive]
    · intro begins ends hmem
      rcases List.mem_append.mp hmem with hmem | hmem
      · exact h.closed begins ends (List.mem_of_mem_dropLast hmem)
      · obtain ⟨rfl, hends⟩ := Prod.mk.inj (List.mem_singleton.mp hmem)
        obtain rfl := Option.some.inj hends
        exact h.ended_set hlast
    · simp [holds, hinactive]
  | cons l rest =>
    obtain ⟨ln, hln, hs⟩ := Outcome.bind_eq_done.mp hs
    cases hs
    have hd := Device.tape_of_line hln
    have hsize : ln.getSize = (ln.data.length : ℤ) := wrap32_natCast (hk ln.data hd)
    rw [hsize]
    exact ⟨h.measured hd, rfl, .of_holds fun _ => rfl⟩

end cases

theorem Sound.step (h : th.Sound dev.tape coming) (hk : th.Keeps dev.tape coming)
    (hs : th.step dev coming = .done (dev', th')) : Kept dev coming th dev' th' := by
  obtain ⟨c, progress, due⟩ := th
  cases progress with
  | resting => cases hs
  | activating erasing rest => exact h.step_activating hs
  | opening erasing rest sizes => exact h.step_opening hk hs
  | deactivating rest => exact h.step_deactivating hs
  | closing rest sizes => exact h.step_closing hk hs

end Thread

/-! ## Whole runs -/

namespace Shared

variable {s u : Shared}

structure Sound (s : Shared) : Prop where
  pass : s.pass.Nodup
  threads : ∀ th ∈ s.threads, th.Sound s.dev.tape s.coming
  counted : ∀ (l : ℕ) (ln : Line ℕ), s.dev.lines[l]? = some ln →
    RefCount.holders Thread.holds s.threads l ≤ ln.active

theorem Initial.sound (h : s.Initial) : s.Sound where
  pass := by simp [h.pass]
  threads th hth := by
    have hp := h.resting th hth
    have hst := h.inactive th hth
    refine .blank (h.nodup th hth) (fun l hl => ?_) ?_ ?_ ?_ ?_
    · obtain ⟨ln, hln⟩ := h.has th hth l hl
      exact ⟨ln.data, by rw [Device.tape, hln]; rfl⟩
    · simp [Thread.Walks, hp, hst]
    · simp [Thread.begins, hp, hst]
    · simp [Thread.ends, hp]
    · simp [h.sets th hth]
  counted l ln _ := by
    have hnone : RefCount.holders Thread.holds s.threads l = 0 :=
      RefCount.holders_eq_zero.mpr fun th hth => by
        simp [Thread.holds, h.resting th hth, h.inactive th hth]
    omega

theorem coming_le (s : Shared) (l : ℕ) : s.coming l ≤ s.taken + 1 := by
  unfold coming
  split_ifs <;> omega

theorem Sound.isActive (h : s.Sound) {th : Thread} (hth : th ∈ s.threads) {l : ℕ}
    (hl : th.holds l = true) {ln : Line ℕ} (hln : s.dev.lines[l]? = some ln) :
    ln.isActive = true := by
  obtain ⟨k, hk⟩ := List.getElem?_of_mem hth
  have hpos : 0 < RefCount.holders Thread.holds s.threads l := RefCount.holders_pos hk hl
  have := h.counted l ln hln
  simp only [Line.isActive, decide_eq_true_eq]
  omega

theorem Sound.taken (h : s.Sound) (hp : s.pass = []) :
    Sound { s with taken := s.taken + 1, pass := s.dev.lines.keys } where
  pass := Std.TreeMap.nodup_keys
  threads th hth := by
    have hsound := h.threads th hth
    refine { hsound with recorded := hsound.recorded.congr fun l x hx => ?_ }
    have hl : l ∈ s.dev.lines.keys := by
      obtain ⟨b, -, hx⟩ := Option.bind_eq_some_iff.mp hx
      obtain ⟨d, hd, -⟩ := Option.map_eq_some_iff.mp hx
      obtain ⟨ln, hln, -⟩ := Option.map_eq_some_iff.mp hd
      rw [Std.TreeMap.mem_keys, Std.TreeMap.mem_iff_isSome_getElem?, hln]
      rfl
    simp [coming, hp, hl]
  counted := h.counted

theorem Sound.visited (h : s.Sound) {l : ℕ} {rest : List ℕ} (hp : s.pass = l :: rest)
    (hk : s.Keeps .consumer) {dev : Device ℕ}
    (hdev : s.dev.withLine l (fun ln => ln.consume s.taken) = .done dev) :
    Sound { s with dev, pass := rest } := by
  obtain ⟨⟨ln, hln⟩, hlines⟩ := Device.withLine_spec hdev
  have hpass := h.pass
  rw [hp, List.nodup_cons] at hpass
  have hcoming : coming { s with dev, pass := rest } =
      Function.update s.coming l (s.taken + 1) := by
    funext j
    by_cases hj : j = l
    · subst hj
      simp [coming, hpass.1]
    · simp [coming, hp, hj]
  have hl : s.coming l = s.taken := by simp [coming, hp]
  refine ⟨hpass.2, fun th hth => ?_, fun j ln' hj => ?_⟩
  · have hsound := h.threads th hth
    rw [hcoming]
    by_cases hact : ln.isActive = true
    · have htape : dev.tape = Function.update s.dev.tape l (some (ln.data ++ [s.taken])) := by
        funext j
        rw [Device.tape, hlines]
        by_cases hj : j = l
        · subst hj
          simp [hln, Line.consume, hact, Line.pushBackData]
        · simp [hj, Device.tape]
      show th.Sound dev.tape _
      rw [htape]
      refine hsound.recorded_on (by rw [Device.tape, hln]; rfl) hl s.coming_le ?_
      exact hk l (by simp [hp]) ln hln hact th hth
    · have htape : dev.tape = s.dev.tape := by
        funext j
        rw [Device.tape, hlines, Device.tape, Option.map_map]
        by_cases hj : j = l
        · subst hj
          simp [hln, Line.consume, hact]
        · simp [hj, Function.comp_def]
      show th.Sound dev.tape _
      rw [htape]
      refine hsound.passed hl ?_
      by_contra hheld
      exact hact (h.isActive hth (by simpa using hheld) hln)
  · rw [hlines, Option.map_eq_some_iff] at hj
    obtain ⟨ln₀, h₀, rfl⟩ := hj
    have := h.counted j ln₀ h₀
    split_ifs <;> simpa using this

theorem Sound.replaced (h : s.Sound) {k : ℕ} {th th' : Thread} (hk : s.threads[k]? = some th)
    {dev : Device ℕ} (htape : dev.tape = s.dev.tape) (hsound : th'.Sound s.dev.tape s.coming)
    (hbal : Thread.Balanced s.dev dev th th') :
    Sound { s with dev, threads := s.threads.set k th' } where
  pass := h.pass
  threads t ht := by
    show t.Sound dev.tape s.coming
    rw [htape]
    rcases List.mem_or_eq_of_mem_set ht with ht | rfl
    · exact h.threads t ht
    · exact hsound
  counted l ln' hln' := by
    obtain ⟨ln, hln, hle⟩ := hbal l ln' hln'
    have hcount := RefCount.holders_set Thread.holds l hk th'
    have := h.counted l ln hln
    show RefCount.holders Thread.holds (s.threads.set k th') l ≤ ln'.active
    omega

theorem Sound.next (h : s.Sound) {e : Turn} (hk : s.Keeps e) (hn : s.next e = .done u) :
    u.Sound := by
  cases e with
  | consumer =>
    cases hp : s.pass with
    | nil =>
      simp only [Shared.next, hp] at hn
      obtain rfl := Outcome.done.inj hn
      exact h.taken hp
    | cons l rest =>
      simp only [Shared.next, hp] at hn
      obtain ⟨dev, hdev, hn⟩ := Outcome.bind_eq_done.mp hn
      obtain rfl := Outcome.done.inj hn
      exact h.visited hp hk hdev
  | request k op =>
    simp only [Shared.next] at hn
    split at hn
    · rename_i c due hth
      split_ifs at hn with hlock
      obtain rfl := Outcome.done.inj hn
      have hsound := h.threads _ (List.mem_of_getElem? hth)
      exact h.replaced hth rfl (hsound.request op) (.of_holds (Thread.request_holds op))
    · cases hn
  | thread k =>
    simp only [Shared.next] at hn
    split at hn
    · rename_i th hth
      obtain ⟨⟨dev, th'⟩, hstep, hn⟩ := Outcome.bind_eq_done.mp hn
      obtain rfl := Outcome.done.inj hn
      have hsound := h.threads _ (List.mem_of_getElem? hth)
      have hkept := hsound.step (hk th hth) hstep
      exact h.replaced hth hkept.tape hkept.sound hkept.balanced
    · cases hn

/-- When all steps of a run keep the lines together, every closed set that it comes by has the
same samples on all its lines. -/
theorem aligned_of_keeps {es : List Turn} (h : s.Initial)
    (hkeeps : Trace.AlwaysStep Shared.next s es Keeps) :
    Trace.Always Shared.next s es Aligned := by
  have hsound : Trace.Always Shared.next s es Sound := by
    refine Trace.always_of_alwaysStep Shared.next (I := fun _ => True) ?_ h.sound ?_ hkeeps
    · exact fun _ _ _ _ => trivial
    · exact fun t e u _ ht hk hn => ht.next hk hn
  intro pre hp t ht th hth
  exact ((hsound pre hp t ht).threads th hth).closed

instance (th : Thread) (l : ℕ) : Decidable (th.lingers l) :=
  inferInstanceAs (Decidable (_ ∧ _ ∧ _))

instance (data : ℕ → Option (List ℕ)) (coming : ℕ → ℕ) (th : Thread) :
    Decidable (th.Keeps data coming) := by
  unfold Thread.Keeps
  split <;> infer_instance

instance (s : Shared) (e : Turn) : Decidable (s.Keeps e) := by
  cases e <;> unfold Keeps <;> infer_instance

def pair : Shared where
  dev := (Server.configured [] 1 2).dev
  taken := 0
  pass := []
  threads := [⟨⟨1, true, true, 1, .inactive, 0, [0, 1], [], true⟩, .resting, 0⟩]

theorem pair_initial : pair.Initial where
  pass := rfl
  resting := by simp [pair]
  inactive := by simp [pair]
  sets := by simp [pair]
  nodup := by simp [pair]
  has th hth l hl := by
    obtain rfl := List.mem_singleton.mp hth
    have hlt : l < 2 := by
      rcases List.mem_cons.mp hl with rfl | hl
      · decide
      · obtain rfl := List.mem_singleton.mp hl
        decide
    exact ⟨Line.fresh, (Server.configured_lines ..).trans (if_pos hlt)⟩

def recordPair : List Turn :=
  Turn.request 0 .start :: walks 0 2 ++ List.replicate 6 Turn.consumer ++
    Turn.request 0 .stop :: walks 0 2

theorem aligned_recordPair : ∃ t th, Trace.exec Shared.next pair recordPair = .done t ∧
    th ∈ t.threads ∧ th.counter.sets.length = 1 ∧ th.counter.status = .inactive ∧
      t.Aligned := by
  have hrun : (Trace.exec Shared.next pair recordPair).check (fun t => t.threads.any fun th =>
      th.counter.sets.length == 1 && th.counter.status == .inactive) = true := by
    decide +kernel
  obtain ⟨t, ht, hp⟩ := Outcome.check_eq_true.mp hrun
  obtain ⟨th, hth, hp⟩ := List.any_eq_true.mp hp
  simp only [Bool.and_eq_true, beq_iff_eq] at hp
  have hkeeps : Trace.AlwaysStep Shared.next pair recordPair Keeps :=
    Trace.alwaysStep_of_obeys Shared.next (by decide +kernel)
  exact ⟨t, th, ht, hth, hp.1, hp.2,
    aligned_of_keeps pair_initial hkeeps recordPair (List.prefix_refl _) t ht⟩

/-- The first sample visits line 0 before START takes its size, and line 1 afterwards. -/
def overtake : List Turn :=
  Turn.request 0 .start :: List.replicate 3 (Turn.thread 0) ++ List.replicate 2 Turn.consumer ++
    List.replicate 3 (Turn.thread 0) ++ List.replicate 4 Turn.consumer ++
    Turn.request 0 .stop :: walks 0 2

/-- The set has the second sample of line 0 beside the first one of line 1. -/
theorem aligned_fails : pair.Initial ∧ ∃ t,
    Trace.exec Shared.next pair overtake = .done t ∧ ¬ t.Aligned := by
  refine ⟨pair_initial, ?_⟩
  have hrun : (Trace.exec Shared.next pair overtake).check (fun t => t.threads.any fun th =>
      th.counter.lines == [0, 1] && th.counter.sets.any fun p => p.2.any fun ends =>
        p.1.getD 0 0 == 1 && p.1.getD 1 0 == 0 && ends.getD 0 0 == 2 && ends.getD 1 0 == 2 &&
          t.dev.tape 0 == some [1, 2] && t.dev.tape 1 == some [1, 2]) = true := by
    decide +kernel
  obtain ⟨t, ht, hp⟩ := Outcome.check_eq_true.mp hrun
  obtain ⟨th, hth, hp⟩ := List.any_eq_true.mp hp
  rw [Bool.and_eq_true, beq_iff_eq] at hp
  obtain ⟨hlines, hp⟩ := hp
  obtain ⟨⟨begins, fin⟩, hset, hp⟩ := List.any_eq_true.mp hp
  obtain ⟨ends, rfl, hp⟩ := (Option.any_eq_true _ _).mp hp
  simp only [Bool.and_eq_true, beq_iff_eq] at hp
  obtain ⟨⟨⟨⟨⟨hb₀, hb₁⟩, he₀⟩, he₁⟩, hd₀⟩, hd₁⟩ := hp
  refine ⟨t, ht, fun haligned => ?_⟩
  have hsame := haligned th hth begins ends hset
  rw [hlines] at hsame
  obtain ⟨x, hx⟩ := hsame 0 (by simp [hb₀, hb₁, he₀, he₁])
  obtain ⟨d, hd, hread₀⟩ := hx 0 (by simp)
  obtain rfl := Option.some.inj (hd₀.symm.trans hd)
  obtain ⟨d, hd, hread₁⟩ := hx 1 (by simp)
  obtain rfl := Option.some.inj (hd₁.symm.trans hd)
  rw [hb₀] at hread₀
  rw [hb₁] at hread₁
  have htwo : (2 : ℕ) = x := Outcome.done.inj hread₀
  have hone : (1 : ℕ) = x := Outcome.done.inj hread₁
  omega

end Shared

end PMLib
