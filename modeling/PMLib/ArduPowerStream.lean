import PMLib.ArduPower
import PMLib.Lib.Resync

/-! # The ArduPower reader and the frames

A reader that comes in at any place of the stream gets into step with the frames, at the
second of them at the latest, and then loses none. -/
namespace PMLib.Legacy.ArduPower

variable {F : Type}

structure Frame (n : ℕ) where
  bytes : List Byte
  isFrame : IsFrame n bytes

def sent {n : ℕ} (garbage : List Byte) (frames : ℕ → Frame n) : Port := fun p =>
  if p < garbage.length then garbage.getD p 0
  else
    let q := p - garbage.length
    let size := (frames 0).bytes.length
    (frames (q / size)).bytes.getD (q % size) 0

section Port

variable {port : Port} {p q k size : ℕ}

@[simp] theorem length_read : (port.read p size).length = size := by simp [Port.read]

theorem getElem?_read (hk : k < size) : (port.read p size)[k]? = some (port (p + k)) := by
  simp [Port.read, hk]

theorem read_add (a b : ℕ) : port.read p (a + b) = port.read p a ++ port.read (p + a) b := by
  simp only [Port.read, List.range_add, List.map_append, List.map_map, Function.comp_def,
    Nat.add_assoc]

theorem read_infix {a b : ℕ} (hp : a ≤ p) (hb : p + size ≤ a + b) :
    port.read p size <:+: port.read a b := by
  obtain ⟨d, rfl⟩ := Nat.exists_eq_add_of_le hp
  obtain ⟨e, he⟩ := Nat.exists_eq_add_of_le hb
  obtain rfl : b = d + size + e := by omega
  refine ⟨port.read a d, port.read (a + (d + size)) e, ?_⟩
  rw [← read_add, ← read_add]

theorem drop_read (hk : k ≤ size) :
    (port.read p size).drop k ++ port.read (p + size) k = port.read (p + k) size := by
  obtain ⟨d, rfl⟩ := Nat.exists_eq_add_of_le hk
  rw [read_add, List.drop_left' length_read, ← Nat.add_assoc, ← read_add, Nat.add_comm d k]

theorem findIdx?_read :
    (port.read p size).findIdx? marked =
      (List.range size).find? fun k => marked (port (p + k)) := by
  apply Option.ext
  intro k
  rw [List.findIdx?_eq_some_iff_getElem, List.find?_range_eq_some]
  simp [Port.read]

theorem head?_read (hsize : 0 < size) : (port.read p size).head? = some (port p) := by
  rw [List.head?_eq_getElem?, getElem?_read hsize, Nat.add_zero]

theorem any_read :
    (port.read p size).any marked = false ↔ ∀ r < size, marked (port (p + r)) = false := by
  simp [Port.read]

theorem any_tail_read (hmark : marked (port q) = true) :
    (port.read q size).tail.any marked = false ↔ Resync.Frame marked size port q := by
  cases size with
  | zero => simp [Port.read, Resync.Frame]
  | succ s =>
    have htail : (port.read q (s + 1)).tail = port.read (q + 1) s := by
      rw [Nat.add_comm, read_add]
      rfl
    rw [htail, any_read, Resync.Frame]
    constructor
    · intro h r hr
      cases r with
      | zero => simpa using hmark
      | succ r =>
        have := h r (by omega)
        rw [Nat.add_assoc, Nat.add_comm 1 r] at this
        simp [this]
    · intro h r hr
      have := h (r + 1) (by omega)
      rw [Nat.add_assoc, Nat.add_comm 1 r]
      simpa using this

/-! ## A pass -/

theorem realign_eq (hsize : 0 < size) :
    realign port (p + size) (port.read p size) =
      (Resync.find marked size port p).map fun q => (port.read q size, q + size) := by
  unfold realign Resync.find
  rw [head?_read hsize, Option.any_some, findIdx?_read]
  split_ifs with hmark
  · have hfind : (List.range size).find? (fun k => marked (port (p + k))) = some 0 :=
      List.find?_range_eq_some.mpr ⟨hmark, List.mem_range.mpr hsize, by simp⟩
    rw [hfind]
    rfl
  · cases hfind : (List.range size).find? fun k => marked (port (p + k)) with
    | none => rfl
    | some k =>
      have hk : k < size := List.mem_range.mp (List.mem_of_find?_eq_some hfind)
      simp only [Option.map_some, drop_read hk.le, Nat.add_right_comm]

variable {powers : List Byte → Outcome (List F)}

theorem pass_eq (hsize : 0 < size) (r : Reader F) :
    pass port size powers r =
      (Resync.step marked size port r.pos).2.toList.mapM (fun q => powers (port.read q size)) >>=
        fun ys => .done ⟨(Resync.step marked size port r.pos).1, r.yielded ++ ys⟩ := by
  unfold pass Resync.step
  rw [realign_eq hsize]
  cases hfind : Resync.find marked size port r.pos with
  | none => simp
  | some q =>
    have hmark : marked (port q) = true := (Resync.find_eq_some_iff.mp hfind).2.2.1
    by_cases hframe : Resync.Frame marked size port q
    · simp [(any_tail_read hmark).mpr hframe, hframe]
    · have hany : (port.read q size).tail.any marked = true := by
        rw [← Bool.not_eq_false, any_tail_read hmark]
        exact hframe
      simp [hany, hframe]

theorem passes_eq (hsize : 0 < size) (k : ℕ) :
    passes port size powers k =
      (Resync.run marked size port 0 k).2.mapM (fun q => powers (port.read q size)) >>=
        fun ys => .done ⟨(Resync.run marked size port 0 k).1, ys⟩ := by
  induction k with
  | zero => rfl
  | succ k ih =>
    simp only [passes, ih, bind_assoc, Outcome.done_bind, pass_eq hsize, Resync.run,
      List.mapM_append, Outcome.pure_done]

end Port

/-! ## Frames on the port -/

section Frames

variable {n : ℕ} {w : List Byte} {port : Port} {q : ℕ}

theorem isFrame_read (hn : 0 < n) (h : Resync.Frame marked (frameBytes n) port q) :
    IsFrame n (port.read q (frameBytes n)) := by
  refine ⟨by rw [length_read, nBytes_eq hn], fun i b hi => ?_⟩
  obtain ⟨hlt, -⟩ := List.getElem?_eq_some_iff.mp hi
  rw [length_read] at hlt
  obtain rfl := Option.some.inj ((getElem?_read hlt).symm.trans hi)
  rw [← marked_eq]
  exact h i hlt

variable (garbage : List Byte) (frames : ℕ → Frame n)

theorem read_garbage : (sent garbage frames).read 0 garbage.length = garbage := by
  apply List.ext_getElem?
  intro k
  rcases Nat.lt_or_ge k garbage.length with hk | hk
  · rw [getElem?_read hk, Nat.zero_add, sent, if_pos hk, List.getD_eq_getElem?_getD,
      List.getElem?_eq_getElem hk, Option.getD_some]
  · rw [List.getElem?_eq_none (by rwa [length_read]), List.getElem?_eq_none hk]

theorem sent_frame (hn : 0 < n) (i : ℕ) {r : ℕ} (hr : r < frameBytes n) :
    (frames i).bytes[r]? =
      some (sent garbage frames (garbage.length + (i * frameBytes n + r))) := by
  have hlen : ∀ i, (frames i).bytes.length = frameBytes n := fun i =>
    (frames i).isFrame.length_eq hn
  have hsize : 0 < frameBytes n := by omega
  have hdiv : (i * frameBytes n + r) / frameBytes n = i := by
    rw [Nat.add_comm, Nat.add_mul_div_right _ _ hsize, Nat.div_eq_of_lt hr, Nat.zero_add]
  have hmod : (i * frameBytes n + r) % frameBytes n = r := by
    rw [Nat.add_comm, Nat.add_mul_mod_self_right, Nat.mod_eq_of_lt hr]
  have hget : r < (frames i).bytes.length := by rwa [hlen]
  have hbehind : ¬ garbage.length + (i * frameBytes n + r) < garbage.length := by omega
  simp only [sent, if_neg hbehind, Nat.add_sub_cancel_left, hlen 0, hdiv, hmod,
    List.getD_eq_getElem?_getD,
    List.getElem?_eq_getElem hget, Option.getD_some]

theorem read_frame (hn : 0 < n) (i : ℕ) :
    (sent garbage frames).read (garbage.length + i * frameBytes n) (frameBytes n) =
      (frames i).bytes := by
  apply List.ext_getElem?
  intro r
  rcases Nat.lt_or_ge r (frameBytes n) with hr | hr
  · rw [getElem?_read hr, sent_frame garbage frames hn i hr, Nat.add_assoc]
  · rw [List.getElem?_eq_none (by rwa [length_read]),
      List.getElem?_eq_none (by rwa [(frames i).isFrame.length_eq hn])]

theorem framed_sent (hn : 0 < n) :
    Resync.Framed marked (frameBytes n) (sent garbage frames) garbage.length := by
  intro q
  have hsize : 0 < frameBytes n := (Nat.zero_le _).trans_lt (lowByte_lt hn)
  have hq : q / frameBytes n * frameBytes n + q % frameBytes n = q := by
    rw [Nat.mul_comm, Nat.div_add_mod]
  have hget := sent_frame garbage frames hn (q / frameBytes n)
    (Nat.mod_lt q hsize)
  rw [hq] at hget
  rw [marked_eq, (frames _).isFrame.marked _ _ hget, Nat.dvd_iff_mod_eq_zero]

end Frames

/-! ## Whole runs -/

section Runs

variable {ops : Arithmetic F} {ls : List (Line F)}

theorem sampling_eq (hls : 0 < ls.length) (port : Port) (k : ℕ) :
    sampling ops ls port k =
      (Resync.run marked (frameBytes ls.length) port 0 k).2.mapM
          (fun q => powers ops ls (port.read q (frameBytes ls.length))) >>=
        fun ys => .done ⟨(Resync.run marked (frameBytes ls.length) port 0 k).1, ys⟩ := by
  rw [sampling, nBytes_eq hls, Outcome.done_bind,
    passes_eq ((Nat.zero_le _).trans_lt (lowByte_lt hls))]

/-- Whatever the port delivers, only frames are yielded. -/
theorem isFrame_of_yielded (hls : 0 < ls.length) {port : Port} {k : ℕ} {r : Reader F}
    (h : sampling ops ls port k = .done r) {power : List F} (hp : power ∈ r.yielded) :
    ∃ q w, w = port.read q w.length ∧ IsFrame ls.length w ∧ powers ops ls w = .done power := by
  rw [sampling_eq hls, Outcome.bind_eq_done] at h
  obtain ⟨ys, hys, h⟩ := h
  obtain rfl := Outcome.done.inj h
  obtain ⟨q, hq, hpower⟩ := Outcome.exists_of_mem_mapM hys hp
  have hframe := isFrame_read hls (Resync.frame_of_mem_run hq).1
  exact ⟨q, _, by rw [length_read], hframe, hpower⟩

/-- The loop uses frames only. From the first or the second of the frames that were sent on,
every pass yields the next of them, and has then read nothing behind it. -/
structure Resyncs (ops : Arithmetic F) (ls : List (Line F)) (garbage : List Byte)
    (frames : ℕ → Frame ls.length) : Prop where
  framed : ∀ k r, sampling ops ls (sent garbage frames) k = .done r → ∀ power ∈ r.yielded,
    ∃ q w, w = (sent garbage frames).read q w.length ∧ IsFrame ls.length w ∧
      powers ops ls w = .done power
  lossless : ∃ spurious, (∀ w ∈ spurious, IsFrame ls.length w ∧ w <:+: garbage) ∧
    ∃ j < 2, ∃ k₀, ∀ m, ∃ pos ≤ garbage.length + (j + m) * (frames 0).bytes.length, ∃ ys,
      (spurious ++ (List.range m).map fun i => (frames (j + i)).bytes).mapM (powers ops ls) =
        .done ys ∧ sampling ops ls (sent garbage frames) (k₀ + m) = .done ⟨pos, ys⟩

theorem sampling_windows (ops : Arithmetic F) (hls : 0 < ls.length) (garbage : List Byte)
    (frames : ℕ → Frame ls.length) :
    ∃ spurious, (∀ w ∈ spurious, IsFrame ls.length w ∧ w <:+: garbage) ∧
      ∃ j < 2, ∃ k₀, ∀ m, ∃ pos ≤ garbage.length + (j + m) * (frames 0).bytes.length,
        sampling ops ls (sent garbage frames) (k₀ + m) =
          (spurious ++ (List.range m).map fun i => (frames (j + i)).bytes).mapM
            (powers ops ls) >>= fun ys => .done ⟨pos, ys⟩ := by
  have hsize : 0 < frameBytes ls.length := (Nat.zero_le _).trans_lt (lowByte_lt hls)
  have hframed := framed_sent garbage frames hls
  obtain ⟨k₀, j, hj, hready, hbefore⟩ := hframed.exists_ready hsize (Nat.zero_le _)
  refine ⟨(Resync.run marked (frameBytes ls.length) (sent garbage frames) 0 k₀).2.map fun q =>
    (sent garbage frames).read q (frameBytes ls.length), ?_, j, hj, k₀, fun m => ?_⟩
  · intro w hw
    obtain ⟨q, hq, rfl⟩ := List.mem_map.mp hw
    refine ⟨isFrame_read hls (Resync.frame_of_mem_run hq).1, ?_⟩
    conv => rhs; rw [← read_garbage garbage frames]
    apply read_infix (Nat.zero_le q)
    rw [Nat.zero_add]
    exact hbefore q hq
  · obtain ⟨hlast, hused⟩ := hframed.run_ready hready m
    have hframes : ((List.range m).map fun i => garbage.length + (j + i) * frameBytes ls.length).map
        (fun q => (sent garbage frames).read q (frameBytes ls.length)) =
          (List.range m).map fun i => (frames (j + i)).bytes := by
      rw [List.map_map]
      exact List.map_congr_left fun i _ => read_frame garbage frames hls (j + i)
    refine ⟨(Resync.run marked (frameBytes ls.length) (sent garbage frames) 0 (k₀ + m)).1, ?_, ?_⟩
    · rw [Resync.run_add, (frames 0).isFrame.length_eq hls]
      exact hlast.before
    · rw [sampling_eq hls, ← hframes, ← hused, ← List.map_append, List.mapM_map, Resync.run_add]
      rfl

/-- Every line must be calibrated with a slope: the loop divides by it. -/
theorem sampling_resyncs_iff (hls : ls ≠ []) (garbage : List Byte)
    (frames : ℕ → Frame ls.length) :
    Resyncs ops ls garbage frames ↔ ∀ l ∈ ls, ops.isZero l.slope = false := by
  have hpos : 0 < ls.length := List.length_pos_iff.mpr hls
  constructor
  · rintro ⟨-, spurious, -, j, -, k₀, hall⟩
    obtain ⟨pos, -, ys, hys, -⟩ := hall 1
    -- the vector of the frame `j` is among those that are yielded
    have hframe : (powers ops ls (frames j).bytes).Returns :=
      Outcome.returns_mapM.mp ⟨ys, hys⟩ _ (by simp)
    exact (powers_returns_iff ((frames j).isFrame.length_eq hpos)).mp hframe
  · intro hslope
    refine ⟨fun k r h power hp => isFrame_of_yielded hpos h hp, ?_⟩
    obtain ⟨spurious, hspurious, j, hj, k₀, hall⟩ := sampling_windows ops hpos garbage frames
    refine ⟨spurious, hspurious, j, hj, k₀, fun m => ?_⟩
    obtain ⟨pos, hle, heq⟩ := hall m
    have hreturns : ∀ w ∈ spurious ++ (List.range m).map fun i => (frames (j + i)).bytes,
        (powers ops ls w).Returns := by
      intro w hw
      refine (powers_returns_iff ?_).mpr hslope
      rcases List.mem_append.mp hw with hw | hw
      · exact (hspurious w hw).1.length_eq hpos
      · obtain ⟨i, -, rfl⟩ := List.mem_map.mp hw
        exact (frames (j + i)).isFrame.length_eq hpos
    obtain ⟨ys, hys⟩ := Outcome.returns_mapM.mpr hreturns
    exact ⟨pos, hle, ys, hys, by rw [heq, hys, Outcome.done_bind]⟩

def rationals : Arithmetic ℚ where
  isZero x := x == 0
  sample value offset slope voltage := (value - offset) / slope * voltage

def twoChannels (slope : ℚ) : List (Line ℚ) := [⟨0, 5, 0, 1⟩, ⟨3, 12, 1, slope⟩]

def steadyFrame : Frame 2 := ⟨[0x81#8, 0x02#8, 0x13#8], by decide⟩

theorem sampling_resyncs_steady :
    Resyncs rationals (twoChannels 2) [0x80#8, 0x00#8] fun _ => steadyFrame :=
  (sampling_resyncs_iff (by decide) _ _).mpr (by decide +kernel)

/-- A line that was added with the default slope ends the loop at its first frame. -/
theorem sampling_resyncs_fails :
    (∀ k, sampling rationals (twoChannels 0) (sent [] fun _ => steadyFrame) (k + 1) = .failed) ∧
    ¬ Resyncs rationals (twoChannels 0) [] fun _ => steadyFrame := by
  have hfirst : sampling rationals (twoChannels 0) (sent [] fun _ => steadyFrame) 1 = .failed := by
    decide +kernel
  have hfails : ∀ k,
      sampling rationals (twoChannels 0) (sent [] fun _ => steadyFrame) (k + 1) = .failed := by
    intro k
    induction k with
    | zero => exact hfirst
    | succ k ih =>
      rw [sampling, nBytes_eq (by decide), Outcome.done_bind] at ih ⊢
      rw [passes, ih, Outcome.failed_bind]
  refine ⟨hfails, ?_⟩
  rintro ⟨-, spurious, -, j, -, k₀, hall⟩
  obtain ⟨pos, -, ys, -, hrun⟩ := hall 1
  cases hrun.symm.trans (hfails k₀)

end Runs

end PMLib.Legacy.ArduPower
