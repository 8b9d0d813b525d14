import PMLib.Counter
import PMLib.Resampling

/-! # GET over closed sets

The loops of `get` over the lines of one set, whose lengths may differ. They read nothing
outside the set. -/
namespace PMLib

open Int32Conv

variable {V : Type} [Zero V] [Add V]

namespace Counter

/-- How many sums of `n` the summing loop reaches. A stride that hits the bound ends it
early; a stride that steps over the bound does not. -/
def summed (interval n : ℕ) : ℕ := if n % interval = 0 then n / interval else n

def fence : Reader V := fun begin fin data idx =>
  if begin ≤ idx ∧ idx < fin then readAt data idx else .undefined

def Reads (read : Reader V) : Prop :=
  ∀ (begin fin idx : ℕ) (data : List V) (v : V), begin ≤ idx → idx < fin →
    data[idx]? = some v → read begin fin data idx = .done v

omit [Zero V] [Add V] in
theorem plain_reads : Reads (plain : Reader V) := by
  intro begin fin idx data v _ _ hv
  simp [plain, readAt, hv]

omit [Zero V] [Add V] in
theorem fence_reads : Reads (fence : Reader V) := by
  intro begin fin idx data v hb hf hv
  simp [fence, readAt, hb, hf, hv]

private theorem lt_summed {i m j : ℕ} (hj : j ≤ summed i m) (hlt : j < m)
    (hne : j * i ≠ m) : j < summed i m := by
  unfold summed at hj ⊢
  split_ifs at hj ⊢ with hm
  · have hdiv : m / i * i = m := Nat.div_mul_cancel (Nat.dvd_of_mod_eq_zero hm)
    refine Nat.lt_of_le_of_ne hj ?_
    rintro rfl
    exact hne hdiv
  · exact hlt

private theorem summed_of_hit {i m j : ℕ} (hi : 1 ≤ i) (h : j * i = m) : summed i m = j := by
  subst h
  simp [summed, Nat.mul_div_cancel _ (by omega : 0 < i)]

omit [Zero V] in
theorem aggregateLine_eq {read : ℤ → Outcome V} {f : ℕ → V} {b m i : ℕ} (hi : 1 ≤ i)
    (hread : ∀ x < m, read ((b + x * i : ℕ) : ℤ) = .done (f x)) :
    ∀ (n j : ℕ) (g : ℕ → V), j + n = m → j ≤ summed i m →
      aggregateLine read ((b + m : ℕ) : ℤ) i n j ((b + j * i : ℕ) : ℤ) ((List.range m).map g) =
        .done ((List.range m).map fun x => if j ≤ x ∧ x < summed i m then g x + f x else g x) := by
  intro n
  induction n with
  | zero =>
    intro j g hj _
    rw [aggregateLine]
    congr 1
    refine List.map_congr_left fun x hx => ?_
    rw [if_neg]
    have := List.mem_range.mp hx
    omega
  | succ n ih =>
    intro j g hj hle
    rw [aggregateLine]
    by_cases hhit : j * i = m
    · -- the iterator meets the bound: the loop ends here
      rw [if_pos (by rw [hhit])]
      congr 1
      refine List.map_congr_left fun x _ => ?_
      rw [if_neg]
      have := summed_of_hit hi hhit
      omega
    · have hlt := lt_summed hle (by omega) hhit
      have hnext : ((b + j * i : ℕ) : ℤ) + i = ((b + (j + 1) * i : ℕ) : ℤ) := by
        push_cast; ring
      rw [if_neg (by omega), hread j (by omega), Outcome.done_bind, hnext, modify_map_range,
        ih (j + 1) _ (by omega) hlt]
      congr 1
      refine List.map_congr_left fun x _ => ?_
      by_cases hx : x = j
      · subst hx
        simp [hlt]
      · simp only [hx, if_false]
        congr 1
        simp only [eq_iff_iff]
        omega

omit [Zero V] [Add V] in
theorem copyLine_eq {read : ℤ → Outcome V} {f : ℕ → V} {b m i : ℕ} (hi : 1 ≤ i)
    (hread : ∀ x < m, read ((b + x : ℕ) : ℤ) = .done (f x)) :
    ∀ (n j : ℕ), j + n = m → copyLine read i n j ((b + j : ℕ) : ℤ) =
      .done (((List.range' j n).filter fun x => x % i = 0).map f) := by
  intro n
  induction n with
  | zero => intro j _; rfl
  | succ n ih =>
    intro j hj
    have hnext : ((b + j : ℕ) : ℤ) + 1 = ((b + (j + 1) : ℕ) : ℤ) := by push_cast; ring
    have hmod : (j : ℤ).tmod i = 0 ↔ j % i = 0 := by
      rw [← Int.ofNat_tmod]
      omega
    rw [copyLine, hread j (by omega), Outcome.done_bind, if_neg (by omega), hnext,
      ih (j + 1) (by omega), Outcome.done_bind, List.range'_succ, List.filter_cons]
    by_cases h : j % i = 0 <;> simp [hmod, h]

/-- Where a closed set lies in the buffers of the counter's lines. -/
def Covers (c : Counter) (dev : Device V) (p : SetT × SetT) (w : Window V) : Prop :=
  ∀ l ∈ c.lines, ∃ (ln : Line V) (b : ℕ), dev.lines[l]? = some ln ∧
    p.1.getD l 0 = (b : ℤ) ∧ p.2.getD l 0 = ((b + w.length l : ℕ) : ℤ) ∧
    b + w.length l ≤ ln.data.length ∧
    ∀ x < w.length l, ln.data[b + x]? = some (w.value l x)

def blockOf (c : Counter) (w : Window V) (m : ℕ) : List V :=
  if c.aggregate then
    (List.range m).map fun x => c.lines.foldl (fun sum l =>
      if x < summed c.interval.toNat m then
        sum + w.value l (x * c.interval.toNat) else sum) 0
  else c.lines.flatMap fun l =>
    ((List.range m).filter fun x => x % c.interval.toNat = 0).map (w.value l)

variable {c : Counter} {dev : Device V} {p : SetT × SetT} {w : Window V} {m : ℕ}

omit [Zero V] [Add V] in
theorem Covers.quotient (h : c.Covers dev p w) (hi : 1 ≤ c.interval) {l : ℕ} (hl : l ∈ c.lines) :
    (p.2.getD l 0 - p.1.getD l 0).tdiv c.interval =
      ((w.length l / c.interval.toNat : ℕ) : ℤ) := by
  obtain ⟨ln, b, _, hb, he, _⟩ := h l hl
  have hlen : p.2.getD l 0 - p.1.getD l 0 = (w.length l : ℤ) := by
    rw [hb, he]
    push_cast
    ring
  have hint : c.interval = (c.interval.toNat : ℤ) := by omega
  rw [hlen, hint, Int.toNat_natCast, ← Int.ofNat_tdiv]

omit [Zero V] [Add V] in
/-- The first line sets the quotient, and the later ones lower it. -/
theorem minLength_eq_least (hn : c.lines.Nodup) (hi : 1 ≤ c.interval) (h : c.Covers dev p w) :
    c.minLength (p.1, some p.2) =
      .done (least w.length c.lines / c.interval.toNat : ℕ) := by
  have hmono : Monotone fun n : ℕ => n / c.interval.toNat :=
    fun _ _ hle => Nat.div_le_div_right hle
  rw [← least_comp hmono (Nat.zero_div _)]
  have hq := fun l (hl : l ∈ c.lines) => h.quotient hi hl
  unfold minLength
  cases hlines : c.lines with
  | nil => rfl
  | cons l₀ rest =>
    rw [hlines] at hq hn
    refine (foldlM_least (g := fun l => l) (q := fun l => w.length l / c.interval.toNat) 0
      ?_ ?_).trans (by rw [List.map_id'])
    · rw [Outcome.ofOption_some, Outcome.done_bind, if_neg (by omega)]
      dsimp only
      rw [List.head?_cons, if_pos rfl, hq l₀ (by simp)]
    · intro m l hl
      have hne : l₀ ≠ l := by
        rintro rfl
        exact (List.nodup_cons.mp hn).1 hl
      rw [Outcome.ofOption_some, Outcome.done_bind, if_neg (by omega)]
      dsimp only
      rw [List.head?_cons, if_neg (by simpa using hne), hq l (by simp [hl])]

omit [Zero V] [Add V] in
private theorem lineBound_eq {b n len size : ℕ} (hn : n ≤ len) (hs : b + len ≤ size) :
    lineBound ((b + len : ℕ) : ℤ) (b : ℤ) (n : ℤ) (size : ℤ) = ((b + n : ℕ) : ℤ) := by
  unfold lineBound
  omega

omit [Zero V] [Add V] in
theorem lineBlock_eq {read : Reader V} (hr : Reads read) (hi : 1 ≤ c.interval)
    (h : c.Covers dev p w) {l : ℕ} (hl : l ∈ c.lines) (hm : m ≤ w.length l) :
    lineBlock read c dev (p.1, some p.2) m l =
      .done (((List.range m).filter fun x => x % c.interval.toNat = 0).map (w.value l)) := by
  obtain ⟨ln, b, hln, hb, he, hsize, hdata⟩ := h l hl
  have hint : c.interval = (c.interval.toNat : ℤ) := by omega
  have hread : ∀ x < m,
      read b ((b + w.length l : ℕ) : ℤ) ln.data ((b + x : ℕ) : ℤ) = .done (w.value l x) :=
    fun x hx => hr b (b + w.length l) (b + x) ln.data _ (by omega) (by omega)
      (hdata x (by omega))
  have hcopy := copyLine_eq (i := c.interval.toNat) (by omega) hread m 0 (by omega)
  rw [← hint, ← List.range_eq_range', Nat.add_zero] at hcopy
  simp only [lineBlock, Device.getLineData, Device.line, hln, Outcome.ofOption_some,
    Outcome.map_done, Outcome.done_bind, hb, he, lineBound_eq hm hsize]
  rw [if_neg (by omega)]
  simpa using hcopy

omit [Zero V] in
private theorem aggregate_step {read : Reader V} (hr : Reads read)
    (hi : 1 ≤ c.interval) (h : c.Covers dev p w) {l : ℕ} (hl : l ∈ c.lines)
    (hm : m * c.interval.toNat ≤ w.length l) (g : ℕ → V) :
    (do
      let line ← dev.getLineData l
      let fin ← Outcome.ofOption (some p.2)
      let first := p.1.getD l 0
      aggregateLine (read first (fin.getD l 0) line)
        (lineBound (fin.getD l 0) first m line.length) c.interval
        (m : ℤ).toNat 0 first ((List.range m).map g)) =
      .done ((List.range m).map fun x =>
        if x < summed c.interval.toNat m then
          g x + w.value l (x * c.interval.toNat) else g x) := by
  obtain ⟨ln, b, hln, hb, he, hsize, hdata⟩ := h l hl
  have hint : c.interval = (c.interval.toNat : ℤ) := by omega
  have hle : m ≤ w.length l := (Nat.le_mul_of_pos_right m (by omega)).trans hm
  have hread : ∀ x < m,
      read b ((b + w.length l : ℕ) : ℤ) ln.data ((b + x * c.interval.toNat : ℕ) : ℤ) =
        .done (w.value l (x * c.interval.toNat)) := by
    intro x hx
    have hlt : x * c.interval.toNat < m * c.interval.toNat :=
      Nat.mul_lt_mul_of_pos_right hx (by omega)
    exact hr b (b + w.length l) (b + x * c.interval.toNat) ln.data _ (by omega) (by omega)
      (hdata _ (by omega))
  have hsum := aggregateLine_eq (i := c.interval.toNat) (by omega) hread m 0 g
    (by omega) (Nat.zero_le _)
  rw [← hint, Nat.zero_mul, Nat.add_zero] at hsum
  simp only [Device.getLineData, Device.line, hln, Outcome.ofOption_some, Outcome.map_done,
    Outcome.done_bind, hb, he, lineBound_eq hle hsize, Int.toNat_natCast]
  simpa using hsum

theorem setBlock_eq_blockOf {read : Reader V} (hr : Reads read) (hi : 1 ≤ c.interval)
    (h : c.Covers dev p w) (hm : ∀ l ∈ c.lines, m * c.interval.toNat ≤ w.length l) :
    setBlock read c dev (p.1, some p.2) m = .done (c.blockOf w m) := by
  unfold setBlock blockOf
  split_ifs with hagg
  · have hloop : ∀ (rest : List ℕ) (g : ℕ → V), (∀ l ∈ rest, l ∈ c.lines) →
        rest.foldlM (fun sum l => do
          let line ← dev.getLineData l
          let fin ← Outcome.ofOption (some p.2)
          let first := p.1.getD l 0
          aggregateLine (read first (fin.getD l 0) line)
            (lineBound (fin.getD l 0) first m line.length) c.interval
            (m : ℤ).toNat 0 first sum) ((List.range m).map g) =
          .done ((List.range m).map fun x => rest.foldl (fun sum l =>
            if x < summed c.interval.toNat m then
              sum + w.value l (x * c.interval.toNat) else sum) (g x)) := by
      intro rest
      induction rest with
      | nil => intro g _; rfl
      | cons l rest ih =>
        intro g hrest
        have hl := hrest l (by simp)
        rw [List.foldlM_cons, aggregate_step hr hi h hl (hm l hl) g, Outcome.done_bind,
          ih _ fun x hx => hrest x (by simp [hx])]
        rfl
    have hzero : List.replicate (m : ℤ).toNat (0 : V) = (List.range m).map fun _ => 0 := by simp
    rw [aggregateSet, if_neg (by omega), hzero]
    exact hloop c.lines _ fun l hl => hl
  · rw [Outcome.mapM_eq_map fun l hl => lineBlock_eq hr hi h hl
      ((Nat.le_mul_of_pos_right m (by omega)).trans (hm l hl)), Outcome.map_done,
      List.flatMap_def]

end Counter

end PMLib
