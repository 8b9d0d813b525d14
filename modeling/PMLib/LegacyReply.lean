import PMLib.Legacy
import PMLib.Resampling
import PMLib.Printed

/-! # The layout of a legacy reply

The legacy server writes line after line, and inside a line set after set, so that one stride
over all sets leads from line to line. This is what the strided printers assume. -/
namespace PMLib.Legacy

open Int32Conv

variable {V : Type}

def buffer (dev : Lines V) (l : ℕ) : List V := (dev[l]?.map PowerData.samples).getD []

def Covers (dev : Lines V) (lines : List ℕ) (p : SetT × SetT) : Prop :=
  ∀ l ∈ lines, ∃ (line : PowerData V) (b e : ℕ), dev[l]? = some line ∧
    p.1[l]? = some (b : ℤ) ∧ p.2[l]? = some (e : ℤ) ∧ b ≤ e ∧ e ≤ line.samples.length

theorem quotient_eq {n k : ℕ} (hk : 0 < k) (hn : n < 2 ^ 53) :
    quotient n k = .done ((n ⌈/⌉ k : ℕ) : ℤ) := by
  have h := Rounding.ceil_ofRat_div 52 hk hn
  rw [quotient, if_neg (by omega), Int.cast_natCast, Int.cast_natCast, h]

theorem xrange_eq {b e k : ℕ} (hk : 0 < k) (hbe : b ≤ e) :
    xrange b e k = .done ((List.range ((e - b) ⌈/⌉ k)).map fun j : ℕ => ((b + j * k : ℕ) : ℤ)) := by
  have hsub : ((e : ℤ) - b : ℤ) = ((e - b : ℕ) : ℤ) := by omega
  rw [xrange, if_neg (by omega), hsub, Int.cast_natCast, Int.cast_natCast,
    Strides.ceil_natCast_div hk, Int.toNat_natCast]
  push_cast
  rfl

theorem firsts_natCast (m : ℕ) (xs : List V) : firsts m xs = xs.take m := by
  rw [firsts, if_pos (Int.natCast_nonneg m), Int.toNat_natCast]

variable [Zero V] {dev : Lines V} {lines : List ℕ} {p : SetT × SetT} {k : ℕ} {c : Counter}

theorem Covers.line (h : Covers dev lines p) {l : ℕ} (hl : l ∈ lines) : ∃ (b : ℕ),
    Counter.bounds (p.1, some p.2) l =
        .done ((b : ℤ), ((b + (Window.ofSet (buffer dev) p).length l : ℕ) : ℤ)) ∧
      (Window.ofSet (buffer dev) p).length l < 2 ^ 53 ∧
      ∀ x < (Window.ofSet (buffer dev) p).length l,
        (do
          let line ← raising dev[l]?
          item line.samples ((b + x : ℕ) : ℤ)) =
          .done ((Window.ofSet (buffer dev) p).value l x) := by
  obtain ⟨line, b, e, hline, hb, he, hbe, hlen⟩ := h l hl
  have hlength : (Window.ofSet (buffer dev) p).length l = e - b := by
    simp only [Window.ofSet, Std.TreeMap.getD_eq_getD_getElem?, hb, he, Option.getD_some]
    omega
  rw [hlength]
  refine ⟨b, ?_, by have := line.addressable; omega, fun x hx => ?_⟩
  · rw [Nat.add_sub_cancel' hbe]
    simp [Counter.bounds, raising, hb, he]
  · have hx : b + x < line.samples.length := by omega
    simp only [Window.ofSet, Std.TreeMap.getD_eq_getD_getElem?, hb, Option.getD_some,
      Int.toNat_natCast, buffer, hline, Option.map_some, raising, Outcome.done_bind, item]
    rw [if_pos (Int.natCast_nonneg _), List.getElem?_eq_getElem hx, List.getD_eq_getElem?_getD,
      List.getElem?_eq_getElem hx, Option.getD_some]

theorem minLen_eq (hk : 0 < k) (hi : c.interval = k) (h : Covers dev c.lines p) :
    c.minLen (p.1, some p.2) =
      .done (((Window.ofSet (buffer dev) p).count k c.lines : ℕ) : ℤ) := by
  have hstep : ∀ (m : ℤ) (j : ℕ), ∀ l ∈ c.lines, (do
      let bounds ← Counter.bounds (p.1, some p.2) l
      let n ← quotient (bounds.2 - bounds.1) c.interval
      .done (if j = 0 then n else min n m)) =
      .done (if j = 0 then (((Window.ofSet (buffer dev) p).length l ⌈/⌉ k : ℕ) : ℤ)
        else min (((Window.ofSet (buffer dev) p).length l ⌈/⌉ k : ℕ) : ℤ) m) := by
    intro m j l hl
    obtain ⟨b, hbounds, hlen, -⟩ := h.line hl
    have hsub : (((b + (Window.ofSet (buffer dev) p).length l : ℕ) : ℤ) - b : ℤ) =
        (Window.ofSet (buffer dev) p).length l := by
      omega
    rw [hbounds, Outcome.done_bind, hsub, hi, quotient_eq hk hlen, Outcome.done_bind]
  rw [Counter.minLen, Window.count]
  cases hlines : c.lines with
  | nil => rfl
  | cons l rest =>
    rw [List.zipIdx_cons, foldlM_least 0 (g := Prod.fst)
      (q := fun l => (Window.ofSet (buffer dev) p).length l ⌈/⌉ k)
      (hstep 0 0 l (by rw [hlines]; simp)), List.map_cons, List.zipIdx_map_fst]
    rintro m ⟨l', j⟩ hmem
    obtain ⟨hj, -, hl'⟩ := List.mem_zipIdx hmem
    have hl' : l' ∈ c.lines := by
      rw [hlines, hl']
      exact List.mem_cons_of_mem _ (List.getElem_mem _)
    rw [hstep m j l' hl', if_neg (by omega)]

theorem samples_eq (hk : 0 < k) (hi : c.interval = k) (h : Covers dev c.lines p) {l : ℕ}
    (hl : l ∈ c.lines) :
    c.samples dev (p.1, some p.2) ((Window.ofSet (buffer dev) p).count k c.lines : ℕ) l =
      .done ((Window.ofSet (buffer dev) p).block k
        ((Window.ofSet (buffer dev) p).count k c.lines) l) := by
  obtain ⟨b, hbounds, -, hread⟩ := h.line hl
  have hvalues : ((List.range ((Window.ofSet (buffer dev) p).length l ⌈/⌉ k)).map
      fun j : ℕ => ((b + j * k : ℕ) : ℤ)).mapM (fun w => do
        let line ← raising dev[l]?
        item line.samples w) =
      .done ((Window.ofSet (buffer dev) p).block k
        ((Window.ofSet (buffer dev) p).length l ⌈/⌉ k) l) := by
    rw [List.mapM_map, Window.block, Outcome.mapM_eq_map_iff]
    intro j hj
    exact hread (j * k) ((Strides.lt_ceilDiv_iff hk).mp (List.mem_range.mp hj))
  rw [Counter.samples, hbounds, Outcome.done_bind, hi, xrange_eq hk (Nat.le_add_right b _),
    Nat.add_sub_cancel_left, Outcome.done_bind, hvalues, Outcome.done_bind, firsts_natCast,
    Window.block, ← List.map_take, List.take_range,
    Nat.min_eq_left (Window.count_le _ k hl)]
  rfl

variable [Add V]

omit [Zero V] in
private theorem foldlM_modify (f g : ℕ → V) (m n : ℕ) (hn : n ≤ m) :
    (List.range n).foldlM (fun sum (idx : ℕ) => do
      let v ← item ((List.range m).map f) idx
      .done (sum.modify idx (· + v))) ((List.range m).map g) =
      (.done ((List.range m).map fun x => if x < n then g x + f x else g x) :
        Outcome (List V)) := by
  induction n with
  | zero => simp
  | succ n ih =>
    have hitem : item ((List.range m).map f) (n : ℤ) = .done (f n) := by
      rw [item, if_pos (Int.natCast_nonneg n), Int.toNat_natCast]
      simp [raising, show n < m by omega]
    rw [List.range_succ, List.foldlM_append, ih (by omega), Outcome.done_bind, List.foldlM_cons,
      hitem, Outcome.done_bind, modify_map_range, Outcome.done_bind, List.foldlM_nil,
      Outcome.pure_done]
    congr 1
    refine List.map_congr_left fun x _ => ?_
    by_cases hx : x = n
    · subst hx
      simp
    · simp only [hx, if_false]
      congr 1
      simp only [eq_iff_iff]
      omega

theorem sumLine_eq (hk : 0 < k) (hi : c.interval = k) (h : Covers dev c.lines p) :
    c.sumLine dev (p.1, some p.2) ((Window.ofSet (buffer dev) p).count k c.lines : ℕ) =
      .done ((Window.ofSet (buffer dev) p).sums k
        ((Window.ofSet (buffer dev) p).count k c.lines) c.lines) := by
  have hloop : ∀ (rest : List ℕ) (g : ℕ → V), (∀ l ∈ rest, l ∈ c.lines) →
      rest.foldlM (fun sum l => do
        let line ← c.samples dev (p.1, some p.2)
          ((Window.ofSet (buffer dev) p).count k c.lines : ℕ) l
        (List.range ((Window.ofSet (buffer dev) p).count k c.lines : ℤ).toNat).foldlM
          (fun sum (idx : ℕ) => do
            let v ← item line idx
            .done (sum.modify idx (· + v))) sum)
        ((List.range ((Window.ofSet (buffer dev) p).count k c.lines)).map g) =
      .done ((List.range ((Window.ofSet (buffer dev) p).count k c.lines)).map fun j =>
        rest.foldl (fun sum l => sum + (Window.ofSet (buffer dev) p).value l (j * k)) (g j)) := by
    intro rest
    induction rest with
    | nil => intro g _; rfl
    | cons l rest ih =>
      intro g hsub
      rw [List.foldlM_cons, samples_eq hk hi h (hsub l (by simp)), Outcome.done_bind,
        Int.toNat_natCast, Window.block, foldlM_modify _ _ _ _ (Nat.le_refl _)]
      have hall : ((List.range ((Window.ofSet (buffer dev) p).count k c.lines)).map fun x =>
          if x < (Window.ofSet (buffer dev) p).count k c.lines then
            g x + (Window.ofSet (buffer dev) p).value l (x * k) else g x) =
          (List.range ((Window.ofSet (buffer dev) p).count k c.lines)).map fun x =>
            g x + (Window.ofSet (buffer dev) p).value l (x * k) :=
        List.map_congr_left fun x hx => if_pos (List.mem_range.mp hx)
      rw [hall, Outcome.done_bind]
      have hnext := ih (fun x => g x + (Window.ofSet (buffer dev) p).value l (x * k))
        fun x hx => hsub x (by simp [hx])
      rw [Int.toNat_natCast] at hnext
      exact hnext
  have hzero : List.replicate ((Window.ofSet (buffer dev) p).count k c.lines : ℤ).toNat (0 : V) =
      (List.range ((Window.ofSet (buffer dev) p).count k c.lines)).map fun _ => 0 := by simp
  rw [Counter.sumLine, hzero]
  exact hloop c.lines _ fun l hl => hl

/-! ## The whole reply -/

structure Carries (sizes lines : List ℕ) (watts : List V) (e : GetReply V) : Prop where
  announces : Announces sizes e
  watts : e.watts = watts
  wattsSize : e.wattsSize = e.watts.length
  linesLen : e.linesLen = lines.length

def Packable (e : GetReply V) : Prop :=
  FitsInt e.wattsSize ∧ FitsInt e.wattsSetsSize ∧ FitsInt e.linesLen ∧
    ∀ n ∈ e.wattsSets, FitsInt n

instance (e : GetReply V) : Decidable (Packable e) :=
  inferInstanceAs (Decidable (_ ∧ _ ∧ _ ∧ _))

/-- How many samples of each set a reply has for a line. -/
def counts (k : ℕ) (lines : List ℕ) (ws : List (Window V)) : List ℕ :=
  ws.map fun w => w.count k lines

/-- Line after line, and inside a line set after set. -/
def lineMajor (k : ℕ) (lines : List ℕ) (ws : List (Window V)) : List V :=
  lines.flatMap fun l => ws.flatMap fun w => w.block k (w.count k lines) l

def setSums (k : ℕ) (lines : List ℕ) (ws : List (Window V)) : List V :=
  ws.flatMap fun w => w.sums k (w.count k lines) lines

def windows (dev : Lines V) (ended : List (SetT × SetT)) : List (Window V) :=
  ended.map (Window.ofSet (buffer dev))

omit [Zero V] [Add V] in
private theorem scanl_natCast (ns : List ℕ) (b : ℕ) :
    (ns.map fun n : ℕ => (n : ℤ)).scanl (fun back n => n + back) (b : ℤ) =
      (ns.scanl (· + ·) b).map fun n : ℕ => (n : ℤ) := by
  induction ns generalizing b with
  | nil => rfl
  | cons n ns ih =>
    have hnext : (n : ℤ) + b = ((b + n : ℕ) : ℤ) := by omega
    rw [List.map_cons, List.scanl_cons, List.scanl_cons, List.map_cons, hnext, ih]

section closed

variable {ended : List (SetT × SetT)}

omit [Add V] in
theorem minLens_eq (hk : 0 < k) (hi : c.interval = k)
    (hsets : c.sets = ended.map fun p => (p.1, some p.2))
    (hcovers : ∀ p ∈ ended, Covers dev c.lines p) :
    c.sets.mapM c.minLen = .done
      ((counts k c.lines (windows dev ended)).map fun n : ℕ => (n : ℤ)) := by
  rw [hsets, List.mapM_map, counts, windows, List.map_map, List.map_map]
  exact Outcome.mapM_eq_map fun p hp => minLen_eq hk hi (hcovers p hp)

omit [Add V] in
theorem zip_minLens (hsets : c.sets = ended.map fun p => (p.1, some p.2)) :
    c.sets.zip ((counts k c.lines (windows dev ended)).map fun n : ℕ => (n : ℤ)) =
      ended.map fun p => ((p.1, some p.2),
        (((Window.ofSet (buffer dev) p).count k c.lines : ℕ) : ℤ)) := by
  rw [hsets, counts, windows, List.map_map, List.map_map, List.zip_map']
  rfl

theorem sumLines_eq (hk : 0 < k) (hi : c.interval = k)
    (hcovers : ∀ p ∈ ended, Covers dev c.lines p) :
    (ended.map fun p => ((p.1, some p.2),
      (((Window.ofSet (buffer dev) p).count k c.lines : ℕ) : ℤ))).mapM
        (fun se => c.sumLine dev se.1 se.2) =
      .done ((windows dev ended).map fun w => w.sums k (w.count k c.lines) c.lines) := by
  rw [List.mapM_map, windows, List.map_map]
  exact Outcome.mapM_eq_map fun p hp => sumLine_eq hk hi (hcovers p hp)

omit [Add V] in
theorem blocks_eq (hk : 0 < k) (hi : c.interval = k)
    (hcovers : ∀ p ∈ ended, Covers dev c.lines p) :
    c.lines.mapM (fun l => List.flatten <$> (ended.map fun p => ((p.1, some p.2),
      (((Window.ofSet (buffer dev) p).count k c.lines : ℕ) : ℤ))).mapM
        fun se => c.samples dev se.1 se.2 l) =
      .done (c.lines.map fun l =>
        (windows dev ended).flatMap fun w => w.block k (w.count k c.lines) l) := by
  apply Outcome.mapM_eq_map
  intro l hl
  rw [List.mapM_map, windows, List.flatMap_def, List.map_map]
  exact congrArg (List.flatten <$> ·)
    (Outcome.mapM_eq_map fun p hp => samples_eq hk hi (hcovers p hp) hl)

omit [Zero V] [Add V] in
theorem pack_eq (c : Counter) (sizes : List ℕ) (watts : List V) : ∃ e,
    c.pack ((sizes.scanl (· + ·) 0).map fun n : ℕ => (n : ℤ)) watts =
      (if Packable e then .done (.data e) else .failed) ∧ Carries sizes c.lines watts e := by
  refine ⟨⟨watts.length, _, c.lines.length, _, watts⟩, rfl, ⟨rfl, ?_⟩, rfl, rfl, rfl⟩
  simp [List.length_scanl]

theorem get_eq (hk : 0 < k) (hi : c.interval = k) (hstatus : c.status = .inactive)
    (hsets : c.sets = ended.map fun p => (p.1, some p.2))
    (hcovers : ∀ p ∈ ended, Covers dev c.lines p) :
    ∃ e, c.get dev = (if Packable e then .done (.data e) else .failed) ∧
      Carries (counts k c.lines (windows dev ended)) c.lines
        (if c.aggregate then setSums k c.lines (windows dev ended)
          else lineMajor k c.lines (windows dev ended)) e := by
  have hcompleted : c.lastSetCompleted = true := by
    rw [Counter.lastSetCompleted, hsets, List.getLast?_map]
    cases ended.getLast? <;> rfl
  have hscan := scanl_natCast (counts k c.lines (windows dev ended)) 0
  rw [Nat.cast_zero] at hscan
  rw [Counter.get, if_pos ⟨hstatus, hcompleted⟩, minLens_eq hk hi hsets hcovers, Outcome.done_bind]
  dsimp only
  rw [hscan, zip_minLens hsets]
  split_ifs with hagg
  · rw [sumLines_eq hk hi hcovers, Outcome.map_done, Outcome.done_bind, ← List.flatMap_def]
    exact pack_eq c _ _
  · rw [blocks_eq hk hi hcovers, Outcome.map_done, Outcome.done_bind, ← List.flatMap_def]
    exact pack_eq c _ _

end closed

/-! ## What the strided printers read -/

omit [Zero V] [Add V] in
private theorem length_row (k : ℕ) (lines : List ℕ) (ws : List (Window V)) (l : ℕ) :
    (ws.flatMap fun w => w.block k (w.count k lines) l).length = (counts k lines ws).sum := by
  rw [List.length_flatMap]
  simp [counts]

omit [Zero V] [Add V] in
private theorem offset_row (k : ℕ) (lines : List ℕ) (ws : List (Window V)) (l s : ℕ) :
    Blocks.offset (ws.map fun w => w.block k (w.count k lines) l) s =
      before (counts k lines ws) s := by
  rw [Blocks.offset, before, counts, ← List.map_take, ← List.map_take, List.map_map]
  simp [Function.comp_def]

omit [Zero V] [Add V] in
theorem getElem?_lineMajor {k : ℕ} {lines : List ℕ} {ws : List (Window V)} {s r l i : ℕ}
    {w : Window V} (hs : ws[s]? = some w) (hr : lines[r]? = some l) (hi : i < w.count k lines) :
    (lineMajor k lines ws)[before (counts k lines ws) s + i + (counts k lines ws).sum * r]? =
      some (w.value l (i * k)) := by
  have hrow : (ws.flatMap fun w => w.block k (w.count k lines) l)[
      before (counts k lines ws) s + i]? = some (w.value l (i * k)) := by
    rw [List.flatMap_def, ← offset_row k lines ws l s, Blocks.getElem?_flatten
      (b := w.block k (w.count k lines) l) (by simp [hs]) (by simpa using hi)]
    simp [Window.block, hi]
  have hinner := (List.getElem?_eq_some_iff.mp hrow).1
  have hlt := (List.getElem?_eq_some_iff.mp hr).1
  have hoffset : Blocks.offset
      (lines.map fun l => ws.flatMap fun w => w.block k (w.count k lines) l) r =
      (counts k lines ws).sum * r := by
    rw [Blocks.offset_uniform (n := (counts k lines ws).sum) ?_ (by simpa using hlt.le),
      Nat.mul_comm]
    intro b hb
    obtain ⟨l, _, rfl⟩ := List.mem_map.mp hb
    exact length_row k lines ws l
  rw [lineMajor, List.flatMap_def, Nat.add_comm _ (_ * r), ← hoffset, Blocks.getElem?_flatten
    (b := ws.flatMap fun w => w.block k (w.count k lines) l) (by simp [hr]) hinner, hrow]

omit [Add V] in
def windowTable (k : ℕ) (lines printed : List ℕ) (ws : List (Window V)) (s : ℕ) : SetTable V :=
  let w := ws.getD s Window.empty
  ⟨s, w.count k lines,
    (List.range (w.count k lines)).map fun i => printed.map fun l => (l, w.value l (i * k))⟩

omit [Add V] in
theorem tableAt_eq {m sel : LineT} {nLines s : ℕ} {ws : List (Window V)} {e : GetReply V}
    (he : e.watts = lineMajor k (m.lines nLines) ws) (hs : s < ws.length) :
    tableAt e (tablesOf m sel nLines).entries (counts k (m.lines nLines) ws)
        (stridedIndex (counts k (m.lines nLines) ws)) s =
      .done (windowTable k (m.lines nLines) ((sel.and m).lines nLines) ws s) := by
  have hw := List.getElem?_eq_getElem hs
  have hsize : (counts k (m.lines nLines) ws).getD s 0 = ws[s].count k (m.lines nLines) := by
    simp [counts, hw]
  have hget : ws.getD s Window.empty = ws[s] := by simp [hw]
  have hrows : ((List.range (ws[s].count k (m.lines nLines))).mapM fun i =>
      (tablesOf m sel nLines).entries.mapM fun entry => do
        let v ← Counter.readAt e.watts
          (stridedIndex (counts k (m.lines nLines) ws) s i entry.1)
        .done (entry.2, v)) =
      .done ((List.range (ws[s].count k (m.lines nLines))).map fun i =>
        ((sel.and m).lines nLines).map fun l => (l, ws[s].value l (i * k))) := by
    apply Outcome.mapM_eq_map
    intro i hi
    rw [tablesOf, List.mapM_map]
    apply Outcome.mapM_eq_map
    intro l hl
    have hindex : stridedIndex (counts k (m.lines nLines) ws) s i (m.rank l) =
        ((before (counts k (m.lines nLines) ws) s + i +
          (counts k (m.lines nLines) ws).sum * m.rank l : ℕ) : ℤ) := by
      rw [stridedIndex]
      push_cast
      rfl
    have hread := getElem?_lineMajor (k := k) hw (LineT.getElem?_rank (printed_subset hl))
      (List.mem_range.mp hi)
    rw [Function.comp_apply, hindex, Counter.readAt, if_pos (Int.natCast_nonneg _),
      Int.toNat_natCast, he, hread]
    rfl
  rw [tableAt, hsize, hrows, Outcome.done_bind, windowTable, hget]

variable [Sub V] [Mul V] [Div V] [IntCast V]

theorem stridedExact {m sel : LineT} {nLines : ℕ} {ws : List (Window V)} {set : ℤ}
    {client : CounterT V}
    (he : Carries (counts k (m.lines nLines) ws) (m.lines nLines)
      (lineMajor k (m.lines nLines) ws) client.energy)
    (ha : client.aggregate = false) (hm : client.lines = m)
    (hsel : ∀ l : ℕ, l < 128 → sel.isSet l = true → l < nLines)
    (hset : ValidSet ws.length set) :
    StridedExact client sel set ((sel.and m).lines nLines,
      (setIndices ws.length set).map
        (windowTable k (m.lines nLines) ((sel.and m).lines nLines) ws)) := by
  have hcount : (counts k (m.lines nLines) ws).length = ws.length := by
    rw [counts, List.length_map]
  have hset' : ValidSet (counts k (m.lines nLines) ws).length set := by rwa [hcount]
  rw [stridedExact_iff ha (he.announces.setRefused_eq hset'),
    readLines_eq_done_iff hm he.linesLen hsel,
    he.announces.stridedTables_eq hset' (tablesOf_length m sel nLines), hcount]
  exact Outcome.mapM_eq_map fun s hs => tableAt_eq he.watts (lt_of_mem_setIndices hset hs)

/-- GET in the legacy server answers for closed sets whenever the counts fit an `int`. Without
aggregation every line has, in every set, the same announced number of values at the
sampling stride, and the strided printers show them; with aggregation the reply has the sums
of these values over the lines. -/
theorem get_layout {c : Counter} {dev : Lines V} {ended : List (SetT × SetT)}
    (hstatus : c.status = .inactive) (hsets : c.sets = ended.map fun p => (p.1, some p.2))
    (hcovers : ∀ p ∈ ended, Covers dev c.lines p) (hi : 1 ≤ c.interval) :
    ∃ e, c.get dev = (if Packable e then .done (.data e) else .failed) ∧
      (c.aggregate = true → Carries (counts c.interval.toNat c.lines (windows dev ended)) c.lines
        (setSums c.interval.toNat c.lines (windows dev ended)) e) ∧
      (c.aggregate = false → Carries (counts c.interval.toNat c.lines (windows dev ended)) c.lines
        (lineMajor c.interval.toNat c.lines (windows dev ended)) e ∧
        ∀ (m sel : LineT) (nLines : ℕ) (set : ℤ) (client : CounterT V),
          c.lines = m.lines nLines → client.lines = m → client.aggregate = false →
          client.energy = e → (∀ l : ℕ, l < 128 → sel.isSet l = true → l < nLines) →
          ValidSet ended.length set →
          StridedExact client sel set ((sel.and m).lines nLines, (setIndices ended.length set).map
            (windowTable c.interval.toNat c.lines ((sel.and m).lines nLines)
              (windows dev ended)))) := by
  have hk : 0 < c.interval.toNat := by omega
  obtain ⟨e, hget, he⟩ := get_eq hk (Int.toNat_of_nonneg (by omega)).symm hstatus hsets hcovers
  have hcount : (windows dev ended).length = ended.length := by rw [windows, List.length_map]
  refine ⟨e, hget, fun ha => ?_, fun ha => ?_⟩
  · rwa [if_pos ha] at he
  · rw [if_neg (by simp [ha])] at he
    refine ⟨he, fun m sel nLines set client hlines hm hagg henergy hsel hset => ?_⟩
    subst henergy
    rw [hlines] at he ⊢
    have h := stridedExact he hagg hm hsel (by rwa [hcount])
    rwa [hcount] at h

def twoLines : Lines ℤ :=
  (((∅ : Lines ℤ).insert 0 ⟨[1, 2, 3, 4, 5], by norm_num⟩).insert 1
    ⟨[10, 20, 30, 40], by norm_num⟩)

def twoLinesEnded : List (SetT × SetT) :=
  [(.ofList [((0 : ℕ), (0 : ℤ)), (1, 0)], .ofList [((0 : ℕ), (5 : ℤ)), (1, 4)]),
    (.ofList [((0 : ℕ), (5 : ℤ)), (1, 4)], .ofList [((0 : ℕ), (5 : ℤ)), (1, 4)])]

def halfFrequency : Counter :=
  ⟨.inactive, false, 2, [0, 1], twoLinesEnded.map fun p => (p.1, some p.2)⟩

theorem get_layout_halfFrequency : ∃ e : GetReply ℤ, halfFrequency.get twoLines = .done (.data e) ∧
    e.watts = [1, 3, 10, 30] ∧ e.wattsSets = [0, 2, 2] := by
  have hcovers : ∀ p ∈ twoLinesEnded, Covers twoLines [0, 1] p := by
    intro p hp l hl
    rw [twoLinesEnded, List.mem_cons, List.mem_singleton] at hp
    rw [List.mem_cons, List.mem_singleton] at hl
    obtain rfl | rfl := hp <;> obtain rfl | rfl := hl
    · exact ⟨_, 0, 5, rfl, rfl, rfl, by decide, by decide⟩
    · exact ⟨_, 0, 4, rfl, rfl, rfl, by decide, by decide⟩
    · exact ⟨_, 5, 5, rfl, rfl, rfl, by decide, by decide⟩
    · exact ⟨_, 4, 4, rfl, rfl, rfl, by decide, by decide⟩
  obtain ⟨e, hget, -, hlines⟩ := get_layout (c := halfFrequency) rfl rfl hcovers (by decide)
  obtain ⟨⟨⟨hsets, hsize⟩, hwatts, hwattsSize, hlen⟩, -⟩ := hlines rfl
  have hwatts : e.watts = [1, 3, 10, 30] := by rw [hwatts]; decide +kernel
  have hsets : e.wattsSets = [0, 2, 2] := by rw [hsets]; decide +kernel
  refine ⟨e, ?_, hwatts, hsets⟩
  rw [hget, if_pos]
  rw [hwatts] at hwattsSize
  rw [Packable, hwattsSize, hsize, hlen, hsets]
  unfold FitsInt
  decide +kernel

end PMLib.Legacy
