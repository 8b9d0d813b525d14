import PMLib.Objects

/-! # Operations of a device

Each operation that walks over selected lines acts on every one of them in the same way.
`Mapped` states the effect line by line, and later proofs use nothing else. -/
namespace PMLib

variable {V : Type}

namespace Device

/-- The dereference `lines[l]->`; a missing line is a null pointer. -/
def line (d : Device V) (l : ℕ) : Outcome (Line V) := .ofOption d.lines[l]?

def withLine (d : Device V) (l : ℕ) (f : Line V → Line V) : Outcome (Device V) := do
  let _ ← d.line l
  .done { d with lines := d.lines.modify l f }

def forLines (d : Device V) (sel : List ℕ) (f : Line V → Line V) : Outcome (Device V) :=
  sel.foldlM (fun d l => d.withLine l f) d

def registerCounter (d : Device V) (c : Counter) : Outcome (Device V) :=
  forLines { d with counterMap := d.counterMap.insert c.id c } c.lines Line.enable

def deregisterCounter (d : Device V) (c : Counter) : Outcome (Device V) :=
  match d.counterMap[c.id]? with
  | some _ => do
    let d ← d.forLines c.lines Line.release
    .done { d with counterMap := d.counterMap.erase c.id }
  | none => .done d

def pushBackData (d : Device V) (sample : ℕ → V) : Device V :=
  { d with lines := d.lines.map fun l ln => ln.consume (sample l) }

def getLinesSizes (d : Device V) (sel : List ℕ) : Outcome SetT :=
  sel.foldlM (fun sizes l => do
    let ln ← d.line l
    .done (sizes.insert l ln.getSize)) ∅

def getLineData (d : Device V) (l : ℕ) : Outcome (List V) := Line.data <$> d.line l

def startCounter (d : Device V) (sel : List ℕ) : Outcome (Device V) :=
  d.forLines sel Line.activate

def stopCounter (d : Device V) (sel : List ℕ) : Outcome (Device V) :=
  d.forLines sel Line.deactivate

/-- `d'` has the lines of `d`, each changed by `g`, and the same fixed data. -/
structure Mapped (d d' : Device V) (g : ℕ → Line V → Line V) : Prop where
  name : d'.name = d.name
  maxFrequency : d'.maxFrequency = d.maxFrequency
  nLines : d'.nLines = d.nLines
  lines : ∀ l, d'.lines[l]? = d.lines[l]?.map (g l)

def Has (d : Device V) (sel : List ℕ) : Prop := ∀ l ∈ sel, ∃ ln, d.lines[l]? = some ln

def Complete (d : Device V) : Prop := ∀ l < d.nLines, ∃ ln, d.lines[l]? = some ln

theorem Complete.has {d : Device V} (h : d.Complete) {sel : List ℕ}
    (hs : ∀ l ∈ sel, l < d.nLines) : d.Has sel := fun l hl => h l (hs l hl)

theorem Mapped.refl (d : Device V) : Mapped d d (fun _ ln => ln) :=
  ⟨rfl, rfl, rfl, fun _ => Option.map_id'.symm⟩

theorem Mapped.complete {d d' : Device V} {g : ℕ → Line V → Line V} (h : Mapped d d' g)
    (hc : d.Complete) : d'.Complete := by
  intro l hl
  obtain ⟨ln, hln⟩ := hc l (h.nLines ▸ hl)
  exact ⟨g l ln, by rw [h.lines, hln]; rfl⟩

theorem Mapped.line {d d' : Device V} {g : ℕ → Line V → Line V} (h : Mapped d d' g)
    {l : ℕ} {ln : Line V} (hl : d'.lines[l]? = some ln) :
    ∃ ln₀, d.lines[l]? = some ln₀ ∧ ln = g l ln₀ := by
  rw [h.lines, Option.map_eq_some_iff] at hl
  obtain ⟨ln₀, h₀, rfl⟩ := hl
  exact ⟨ln₀, h₀, rfl⟩

theorem withLine_lines (d : Device V) (l : ℕ) (f : Line V → Line V) (x : ℕ) :
    ({ d with lines := d.lines.modify l f } : Device V).lines[x]? =
      d.lines[x]?.map fun ln => if x = l then f ln else ln := by
  rw [Std.TreeMap.getElem?_modify]
  by_cases h : x = l
  · subst h; simp
  · have hc : compare l x ≠ Ordering.eq := by simpa using Ne.symm h
    simp [h, hc]

theorem withLine_spec {d d' : Device V} {l : ℕ} {f : Line V → Line V}
    (h : d.withLine l f = .done d') :
    (∃ ln, d.lines[l]? = some ln) ∧ ∀ x, d'.lines[x]? =
      d.lines[x]?.map fun ln => if x = l then f ln else ln := by
  obtain ⟨ln, hln, h⟩ := Outcome.bind_eq_done.mp h
  obtain rfl := Outcome.done.inj h
  exact ⟨⟨ln, Outcome.ofOption_eq_done.mp hln⟩, withLine_lines d l f⟩

theorem forLines_cons {d : Device V} {a : ℕ} {sel : List ℕ} {f : Line V → Line V}
    {ln : Line V} (ha : d.lines[a]? = some ln) :
    d.forLines (a :: sel) f =
      forLines { d with lines := d.lines.modify a f } sel f := by
  simp [forLines, withLine, line, ha]

theorem forLines_has {d d' : Device V} {sel : List ℕ} {f : Line V → Line V}
    (h : d.forLines sel f = .done d') : d.Has sel := by
  induction sel generalizing d with
  | nil => intro l hl; simp at hl
  | cons a sel ih =>
    obtain ⟨ln, ha⟩ : ∃ ln, d.lines[a]? = some ln := by
      rw [forLines, List.foldlM_cons, Outcome.bind_eq_done] at h
      obtain ⟨e, he, _⟩ := h
      exact (withLine_spec he).1
    rw [forLines_cons ha] at h
    intro l hl
    rcases List.mem_cons.mp hl with rfl | hl
    · exact ⟨ln, ha⟩
    · obtain ⟨ln', hln'⟩ := ih h l hl
      rw [withLine_lines, Option.map_eq_some_iff] at hln'
      obtain ⟨ln₀, h₀, _⟩ := hln'
      exact ⟨ln₀, h₀⟩

theorem foldlM_withLine_mapped {d : Device V} {sel : List ℕ} (hn : sel.Nodup) (hs : d.Has sel)
    (f : ℕ → Line V → Line V) :
    ∃ d', sel.foldlM (fun d l => d.withLine l (f l)) d = .done d' ∧
      d'.counterMap = d.counterMap ∧ Mapped d d' (fun l ln => if l ∈ sel then f l ln else ln) := by
  induction sel generalizing d with
  | nil => exact ⟨d, rfl, rfl, rfl, rfl, rfl, fun l => by simp⟩
  | cons a sel ih =>
    obtain ⟨ha, hn⟩ := List.nodup_cons.mp hn
    obtain ⟨ln, hln⟩ := hs a (by simp)
    have hrest : Has { d with lines := d.lines.modify a (f a) } sel := by
      intro l hl
      obtain ⟨ln', hln'⟩ := hs l (by simp [hl])
      exact ⟨_, by rw [withLine_lines, hln']; rfl⟩
    obtain ⟨d', hd', hmap, hm⟩ := ih hn hrest
    have hfirst : d.withLine a (f a) = .done { d with lines := d.lines.modify a (f a) } := by
      simp [withLine, line, hln]
    refine ⟨d', by rw [List.foldlM_cons, hfirst, Outcome.done_bind, hd'], hmap,
      hm.name, hm.maxFrequency, hm.nLines, fun l => ?_⟩
    rw [hm.lines, withLine_lines, Option.map_map]
    congr 1
    funext ln'
    by_cases hl : l = a
    · subst hl; simp [ha]
    · simp [hl]

theorem forLines_mapped {d : Device V} {sel : List ℕ} (hn : sel.Nodup) (hs : d.Has sel)
    (f : Line V → Line V) :
    ∃ d', d.forLines sel f = .done d' ∧ d'.counterMap = d.counterMap ∧
      Mapped d d' (fun l ln => if l ∈ sel then f ln else ln) :=
  foldlM_withLine_mapped hn hs fun _ => f

theorem forLines_spec {d d' : Device V} {sel : List ℕ} {f : Line V → Line V}
    (hn : sel.Nodup) (h : d.forLines sel f = .done d') :
    d'.counterMap = d.counterMap ∧
      Mapped d d' (fun l ln => if l ∈ sel then f ln else ln) := by
  obtain ⟨e, he, hmap, hm⟩ := forLines_mapped hn (forLines_has h) f
  obtain rfl : e = d' := Outcome.done.inj (he.symm.trans h)
  exact ⟨hmap, hm⟩

theorem registerCounter_spec {d d' : Device V} {c : Counter} (hn : c.lines.Nodup)
    (h : d.registerCounter c = .done d') :
    d'.counterMap = d.counterMap.insert c.id c ∧
      Mapped d d' (fun l ln => if l ∈ c.lines then ln.enable else ln) := by
  obtain ⟨hmap, hm⟩ := forLines_spec hn h
  exact ⟨hmap, hm.name, hm.maxFrequency, hm.nLines, hm.lines⟩

theorem deregisterCounter_spec {d d' : Device V} {c : Counter} (hn : c.lines.Nodup)
    (hc : c.id ∈ d.counterMap) (h : d.deregisterCounter c = .done d') :
    d'.counterMap = d.counterMap.erase c.id ∧
      Mapped d d' (fun l ln => if l ∈ c.lines then ln.release else ln) := by
  unfold deregisterCounter at h
  obtain ⟨c₀, hc₀⟩ := Option.isSome_iff_exists.mp (Std.TreeMap.mem_iff_isSome_getElem?.mp hc)
  rw [hc₀] at h
  obtain ⟨e, he, h⟩ := Outcome.bind_eq_done.mp h
  obtain ⟨hmap, hm⟩ := forLines_spec hn he
  obtain rfl := Outcome.done.inj h
  exact ⟨by rw [hmap], hm.name, hm.maxFrequency, hm.nLines, hm.lines⟩

theorem deregisterCounter_done {d : Device V} {c : Counter} (hn : c.lines.Nodup)
    (hs : d.Has c.lines) : ∃ d', d.deregisterCounter c = .done d' := by
  unfold deregisterCounter
  split
  · obtain ⟨d', hd', _⟩ := forLines_mapped hn hs Line.release
    exact ⟨_, by rw [hd']; rfl⟩
  · exact ⟨d, rfl⟩

theorem pushBackData_mapped (d : Device V) (sample : ℕ → V) :
    Mapped d (d.pushBackData sample) (fun l ln => ln.consume (sample l)) :=
  ⟨rfl, rfl, rfl, fun l => by simp [pushBackData]⟩

/-- `push_back_data` line by line. -/
theorem exists_pass (d : Device V) (sample : ℕ → V) : ∃ d',
    d.lines.keys.foldlM (fun d l => d.withLine l fun ln => ln.consume (sample l)) d = .done d' ∧
      ∀ l : ℕ, d'.lines[l]? = (d.pushBackData sample).lines[l]? := by
  have hhas : d.Has d.lines.keys := by
    intro l hl
    rw [Std.TreeMap.mem_keys, Std.TreeMap.mem_iff_isSome_getElem?] at hl
    exact Option.isSome_iff_exists.mp hl
  obtain ⟨d', hd', -, hm⟩ := foldlM_withLine_mapped Std.TreeMap.nodup_keys hhas
    fun l ln => ln.consume (sample l)
  refine ⟨d', hd', fun l => ?_⟩
  rw [hm.lines, (pushBackData_mapped d sample).lines]
  cases hl : d.lines[l]? with
  | none => rfl
  | some ln =>
    have hmem : l ∈ d.lines.keys := by
      rw [Std.TreeMap.mem_keys, Std.TreeMap.mem_iff_isSome_getElem?, hl]
      rfl
    simp [hmem]

theorem getLinesSizes_done {d : Device V} {sel : List ℕ} (hs : d.Has sel) :
    ∃ m, d.getLinesSizes sel = .done m := by
  obtain ⟨m, hm, _⟩ := Outcome.foldlM_rule (fun (_ : SetT) rest => ∀ l ∈ rest, l ∈ sel)
    (f := fun sizes l => do
      let ln ← d.line l
      .done (sizes.insert l ln.getSize)) (s := ∅) (l := sel)
    (by
      intro sizes l rest hrest
      obtain ⟨ln, hln⟩ := hs l (hrest l (by simp))
      exact ⟨_, by rw [line, hln]; rfl, fun x hx => hrest x (by simp [hx])⟩)
    (fun l hl => hl)
  exact ⟨m, hm⟩

theorem getLinesSizes_getD {d : Device V} {sel : List ℕ} {m : SetT}
    (h : d.getLinesSizes sel = .done m) {l : ℕ} (hl : l ∈ sel) {ln : Line V}
    (hln : d.lines[l]? = some ln) : m.getD l 0 = ln.getSize := by
  have key : ∀ (rest : List ℕ) (sizes : SetT),
      rest.foldlM (fun sizes l => do
        let ln ← d.line l
        .done (sizes.insert l ln.getSize)) sizes = .done m →
      (l ∈ rest ∨ sizes.getD l 0 = ln.getSize) → m.getD l 0 = ln.getSize := by
    intro rest
    induction rest with
    | nil =>
      intro sizes hm hor
      obtain rfl : sizes = m := Outcome.done.inj hm
      exact hor.resolve_left (by simp)
    | cons a rest ih =>
      intro sizes hm hor
      rw [List.foldlM_cons] at hm
      obtain ⟨sizes', hs, hm⟩ := Outcome.bind_eq_done.mp hm
      obtain ⟨la, hla, hs⟩ := Outcome.bind_eq_done.mp hs
      obtain rfl := Outcome.done.inj hs
      have hla : d.lines[a]? = some la := Outcome.ofOption_eq_done.mp hla
      refine ih _ hm ?_
      by_cases ha : a = l
      · subst ha
        obtain rfl : ln = la := Option.some.inj (hln.symm.trans hla)
        exact .inr (by simp)
      · rcases hor with hor | hor
        · exact .inl ((List.mem_cons.mp hor).resolve_left (Ne.symm ha))
        · exact .inr (by rw [Std.TreeMap.getD_insert]; simpa [ha] using hor)
  exact key sel ∅ h (.inl hl)

theorem forLines_getLinesSizes {d : Device V} {sel : List ℕ} (hn : sel.Nodup)
    (hs : d.Has sel) (f : Line V → Line V) :
    ∃ d' sizes, d.forLines sel f = .done d' ∧ d'.getLinesSizes sel = .done sizes ∧
      d'.counterMap = d.counterMap ∧ Mapped d d' (fun l ln => if l ∈ sel then f ln else ln) ∧
      ∀ l ∈ sel, ∀ ln, d'.lines[l]? = some ln → sizes.getD l 0 = ln.getSize := by
  obtain ⟨d', hd', hmap, hm⟩ := forLines_mapped hn hs f
  have hs' : d'.Has sel := by
    intro l hl
    obtain ⟨ln, hln⟩ := hs l hl
    exact ⟨_, by rw [hm.lines, hln]; rfl⟩
  obtain ⟨sizes, hsizes⟩ := getLinesSizes_done hs'
  exact ⟨d', sizes, hd', hsizes, hmap, hm, fun l hl ln hln => getLinesSizes_getD hsizes hl hln⟩

end Device

end PMLib
