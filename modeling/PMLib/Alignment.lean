import PMLib.Interleaving
import PMLib.Lib.Tapes

/-! # Alignment of the lines of a set

The slices of a set are summed by position. They tell of one sample at each position when the
walks of its START have met the consumer between the same two samples. -/
namespace PMLib

open Tapes

def Device.tape (dev : Device ℕ) (l : ℕ) : Option (List ℕ) := dev.lines[l]?.map Line.data

/-- At every position that all slices of a closed set have, they have one sample. -/
def SameSample (data : ℕ → Option (List ℕ)) (lines : List ℕ) (begins ends : SetT) : Prop :=
  ∀ k : ℕ, (∀ l ∈ lines, (k : ℤ) < ends.getD l 0 - begins.getD l 0) →
    ∃ t, ∀ l ∈ lines, ∃ d, data l = some d ∧ Counter.readAt d (begins.getD l 0 + k) = .done t

def Shared.Aligned (s : Shared) : Prop :=
  ∀ th ∈ s.threads, ∀ begins ends, (begins, some ends) ∈ th.counter.sets →
    SameSample s.dev.tape th.counter.lines begins ends

namespace Thread

def latest (th : Thread) : SetT := (th.counter.sets.getLast?.map Prod.fst).getD ∅

/-- The offsets at which the set begins that is not closed, as far as they are taken. -/
def begins (th : Thread) : SetT :=
  match th.progress with
  | .resting => if th.counter.status = .active then th.latest else ∅
  | .activating .. => ∅
  | .opening _ _ sizes => sizes
  | .deactivating _ | .closing .. => th.latest

def ends (th : Thread) : SetT :=
  match th.progress with
  | .closing _ sizes => sizes
  | _ => ∅

def holds (th : Thread) (l : ℕ) : Bool :=
  match th.progress with
  | .resting => th.counter.status = .active && l ∈ th.counter.lines
  | .activating _ rest => l ∈ th.counter.lines && l ∉ rest
  | .opening .. => l ∈ th.counter.lines
  | .deactivating rest => l ∈ rest
  | .closing .. => false

/-- STOP has deactivated the line and not yet taken its size. -/
def lingers (th : Thread) (l : ℕ) : Prop := l ∈ th.begins ∧ th.holds l = false ∧ l ∉ th.ends

end Thread

def cut (d : List ℕ) (b : ℤ) (e : Option ℤ) : List ℕ :=
  match e with
  | none => d.drop b.toNat
  | some e => (d.take e.toNat).drop b.toNat

/-- What the open set has on a line so far. -/
def Thread.tape (th : Thread) (data : ℕ → Option (List ℕ)) (l : ℕ) : Option (List ℕ) :=
  th.begins[l]?.bind fun b => (data l).map fun d => cut d b th.ends[l]?

/-- The sizes that open a set are all taken between the same two samples, and no size is taken
of a buffer with 2^31 samples or more. -/
def Thread.Keeps (data : ℕ → Option (List ℕ)) (coming : ℕ → ℕ) (th : Thread) : Prop :=
  match th.progress with
  | .opening _ (l :: _) sizes => (∀ d ∈ data l, d.length < 2 ^ 31) ∧
      (sizes.isEmpty = true ∨ coming l = th.due)
  | .closing (l :: _) _ => ∀ d ∈ data l, d.length < 2 ^ 31
  | _ => True

namespace Shared

/-- No line that lingers gets a sample after it has missed one that another line of its set
has. -/
def Keeps (s : Shared) : Turn → Prop
  | .consumer => ∀ l ∈ s.pass.head?, ∀ ln ∈ s.dev.lines[l]?, ln.isActive = true →
      ∀ th ∈ s.threads, th.lingers l → ∀ x ∈ th.tape s.dev.tape l,
        ∀ j ∈ th.counter.lines, ∀ y ∈ th.tape s.dev.tape j, ∀ u ∈ y, u < s.taken → u ∈ x
  | .request _ _ => True
  | .thread k => ∀ th ∈ s.threads[k]?, th.Keeps s.dev.tape s.coming

end Shared

/-! ## One closed set -/

section cut

variable {d : List ℕ} {b e : ℤ} {k : ℕ}

theorem cut_snoc_none (hb : b.toNat ≤ d.length) (t : ℕ) :
    cut (d ++ [t]) b none = cut d b none ++ [t] := by
  simp only [cut]
  exact List.drop_append_of_le_length hb

theorem cut_snoc_some (he : e.toNat ≤ d.length) (t : ℕ) :
    cut (d ++ [t]) b (some e) = cut d b (some e) := by
  simp only [cut]
  rw [List.take_append_of_le_length he]

theorem length_cut (he : e.toNat ≤ d.length) :
    (cut d b (some e)).length = e.toNat - b.toNat := by
  simp [cut, he]

theorem readAt_of_cut (hb : 0 ≤ b) {t : ℕ} (h : (cut d b (some e))[k]? = some t) :
    Counter.readAt d (b + k) = .done t := by
  simp only [cut, List.getElem?_drop, List.getElem?_take] at h
  split_ifs at h
  rw [Counter.readAt, if_pos (by omega), show (b + k).toNat = b.toNat + k by omega, h]
  rfl

end cut

theorem SameSample.of_agree {data : ℕ → Option (List ℕ)} {lines : List ℕ} {begins ends : SetT}
    (hget : ∀ l ∈ lines, ∃ d b e, data l = some d ∧ begins[l]? = some b ∧ ends[l]? = some e ∧
      0 ≤ b ∧ 0 ≤ e ∧ e.toNat ≤ d.length)
    (hagree : ∀ l ∈ lines, ∀ j ∈ lines, ∀ d d' b b' e e', data l = some d → data j = some d' →
      begins[l]? = some b → begins[j]? = some b' → ends[l]? = some e → ends[j]? = some e' →
        Agree (cut d b (some e)) (cut d' b' (some e'))) :
    SameSample data lines begins ends := by
  intro k hk
  cases lines with
  | nil => exact ⟨0, by simp⟩
  | cons l₀ lines =>
    -- every slice reaches position `k`, so the one of the first line decides
    have hlong : ∀ l ∈ l₀ :: lines, ∀ d b e, data l = some d → begins[l]? = some b →
        ends[l]? = some e → 0 ≤ b → 0 ≤ e → e.toNat ≤ d.length →
          k < (cut d b (some e)).length := by
      intro l hl d b e _ hb he hb₀ he₀ hle
      have := hk l hl
      rw [Std.TreeMap.getD_eq_getD_getElem?, Std.TreeMap.getD_eq_getD_getElem?, hb, he] at this
      rw [length_cut hle]
      simp only [Option.getD_some] at this
      omega
    obtain ⟨d₀, b₀, e₀, hd₀, hb₀, he₀, hb₀', he₀', hle₀⟩ := hget l₀ (by simp)
    have h₀ := hlong l₀ (by simp) d₀ b₀ e₀ hd₀ hb₀ he₀ hb₀' he₀' hle₀
    refine ⟨(cut d₀ b₀ (some e₀))[k], fun l hl => ?_⟩
    obtain ⟨d, b, e, hd, hb, he, hb', he', hle⟩ := hget l hl
    refine ⟨d, hd, ?_⟩
    rw [Std.TreeMap.getD_eq_getD_getElem?, hb]
    apply readAt_of_cut hb'
    rw [(hagree l hl l₀ (by simp) d d₀ b b₀ e e₀ hd hd₀ hb hb₀ he he₀).getElem?_eq
      (hlong l hl d b e hd hb he hb' he' hle) h₀]
    exact List.getElem?_eq_getElem h₀

theorem SameSample.mono {data data' : ℕ → Option (List ℕ)} {lines : List ℕ}
    {begins ends : SetT} (h : SameSample data lines begins ends)
    (hgrow : ∀ l d, data l = some d → ∃ d', data' l = some d' ∧ d <+: d') :
    SameSample data' lines begins ends := by
  intro k hk
  obtain ⟨t, ht⟩ := h k hk
  refine ⟨t, fun l hl => ?_⟩
  obtain ⟨d, hd, hread⟩ := ht l hl
  obtain ⟨d', hd', hpre⟩ := hgrow l d hd
  refine ⟨d', hd', ?_⟩
  unfold Counter.readAt at hread ⊢
  split_ifs at hread with hpos
  rw [if_pos hpos]
  obtain ⟨z, rfl⟩ := hpre
  have hsome := Outcome.ofOption_eq_done.mp hread
  rw [List.getElem?_append_left (List.getElem?_eq_some_iff.mp hsome).1, hsome]
  rfl

/-! ## One handler -/

namespace Thread

def Walks (th : Thread) : Prop :=
  match th.progress with
  | .resting => th.counter.status = .active → ∀ l ∈ th.counter.lines, l ∈ th.latest
  | .activating _ rest => rest <:+ th.counter.lines
  | .opening _ rest sizes => rest <:+ th.counter.lines ∧ th.counter.status = .active ∧
      ∀ l, l ∈ sizes ↔ l ∈ th.counter.lines ∧ l ∉ rest
  | .deactivating rest => rest <:+ th.counter.lines ∧ ∀ l ∈ th.counter.lines, l ∈ th.latest
  | .closing rest sizes => rest <:+ th.counter.lines ∧ th.counter.status = .inactive ∧
      (∀ l ∈ th.counter.lines, l ∈ th.latest) ∧
      ∀ l, l ∈ sizes ↔ l ∈ th.counter.lines ∧ l ∉ rest

def Offset (data : ℕ → Option (List ℕ)) (l : ℕ) (b : ℤ) : Prop :=
  0 ≤ b ∧ ∃ d, data l = some d ∧ b.toNat ≤ d.length

structure Sound (data : ℕ → Option (List ℕ)) (coming : ℕ → ℕ) (th : Thread) : Prop where
  nodup : th.counter.lines.Nodup
  has : ∀ l ∈ th.counter.lines, ∃ d, data l = some d
  walks : th.Walks
  inside : ∀ l ∈ th.begins, l ∈ th.counter.lines
  begun : ∀ (l : ℕ) (b : ℤ), th.begins[l]? = some b → Offset data l b
  ended : ∀ (l : ℕ) (e : ℤ), th.ends[l]? = some e → Offset data l e
  recorded : Synchronous th.due coming (fun l => th.holds l = true) (th.tape data)
  closed : ∀ begins ends, (begins, some ends) ∈ th.counter.sets →
    SameSample data th.counter.lines begins ends

theorem tape_of_not_mem {th : Thread} {data : ℕ → Option (List ℕ)} {l : ℕ}
    (h : l ∉ th.begins) : th.tape data l = none := by
  rw [tape, Std.TreeMap.getElem?_eq_none h]
  rfl

theorem tape_eq_none {th : Thread} (h : th.begins = ∅) (data : ℕ → Option (List ℕ)) (l : ℕ) :
    th.tape data l = none :=
  tape_of_not_mem (by simp [h])


theorem Offset.mono {data data' : ℕ → Option (List ℕ)} {l : ℕ} {b : ℤ} (h : Offset data l b)
    (hgrow : ∀ l d, data l = some d → ∃ d', data' l = some d' ∧ d <+: d') :
    Offset data' l b := by
  obtain ⟨hb, d, hd, hle⟩ := h
  obtain ⟨d', hd', hpre⟩ := hgrow l d hd
  exact ⟨hb, d', hd', hle.trans hpre.length_le⟩

theorem holds_of_mem_ends {th : Thread} {l : ℕ} (h : l ∈ th.ends) : th.holds l = false := by
  cases hp : th.progress <;> simp_all [ends, holds]

section visit

variable {th : Thread} {data : ℕ → Option (List ℕ)} {coming : ℕ → ℕ} {l t : ℕ} {d : List ℕ}

theorem Sound.passed (h : th.Sound data coming) (hl : coming l = t)
    (hheld : th.holds l = false) : th.Sound data (Function.update coming l (t + 1)) :=
  { h with recorded := h.recorded.miss hl (by simp [hheld]) }

theorem grown (hd : data l = some d) (t : ℕ) : ∀ j x, data j = some x →
    ∃ y, Function.update data l (some (d ++ [t])) j = some y ∧ x <+: y := by
  intro j x hx
  by_cases hj : j = l
  · subst hj
    obtain rfl := Option.some.inj (hd.symm.trans hx)
    exact ⟨d ++ [t], Function.update_self .., List.prefix_append ..⟩
  · exact ⟨x, by rw [Function.update_of_ne hj, hx], List.prefix_refl x⟩

theorem Sound.tape_grown (h : th.Sound data coming) (hd : data l = some d) (t : ℕ) :
    th.tape (Function.update data l (some (d ++ [t]))) =
      if l ∈ th.ends then th.tape data
      else Function.update (th.tape data) l ((th.tape data l).map (· ++ [t])) := by
  funext j
  by_cases hj : j = l
  · subst hj
    cases hb : th.begins[j]? with
    | none => split_ifs <;> simp [tape, hb]
    | some b =>
      obtain ⟨-, d₁, hd₁, hble⟩ := h.begun j b hb
      obtain rfl := Option.some.inj (hd.symm.trans hd₁)
      cases he : th.ends[j]? with
      | none =>
        have hnot : j ∉ th.ends := by
          rw [Std.TreeMap.mem_iff_isSome_getElem?, he]
          simp
        simp [tape, hb, hnot, hd, cut_snoc_none hble]
      | some e =>
        obtain ⟨-, d₂, hd₂, hele⟩ := h.ended j e he
        obtain rfl := Option.some.inj (hd.symm.trans hd₂)
        have hmem : j ∈ th.ends := by
          rw [Std.TreeMap.mem_iff_isSome_getElem?, he]
          simp
        simp only [tape, hb, he, hd, if_pos hmem, Function.update_self, Option.bind_some,
          Option.map_some, cut_snoc_some hele]
  · split_ifs <;> simp [tape, hj]

theorem Sound.recorded_on (h : th.Sound data coming) (hd : data l = some d)
    (hl : coming l = t) (hnear : ∀ j, coming j ≤ t + 1)
    (hmissed : th.lingers l → ∀ x ∈ th.tape data l, ∀ j ∈ th.counter.lines,
      ∀ y ∈ th.tape data j, ∀ u ∈ y, u < t → u ∈ x) :
    th.Sound (Function.update data l (some (d ++ [t]))) (Function.update coming l (t + 1)) where
  nodup := h.nodup
  has j hj := by
    obtain ⟨x, hx⟩ := h.has j hj
    obtain ⟨y, hy, -⟩ := grown hd t j x hx
    exact ⟨y, hy⟩
  walks := h.walks
  inside := h.inside
  begun j b hb := (h.begun j b hb).mono (grown hd t)
  ended j e he := (h.ended j e he).mono (grown hd t)
  recorded := by
    rw [h.tape_grown hd]
    split_ifs with hend
    · exact h.recorded.miss hl (by simp [holds_of_mem_ends hend])
    · refine h.recorded.record hl hnear fun hheld x hx j y hy u hu hlt => ?_
      have hbegun : ∀ {i z}, th.tape data i = some z → i ∈ th.begins := by
        intro i z hz
        by_contra hno
        rw [tape_of_not_mem hno] at hz
        cases hz
      exact hmissed ⟨hbegun hx, by simpa using hheld, hend⟩ x hx j
        (h.inside j (hbegun hy)) y hy u hu hlt
  closed begins ends hmem := (h.closed begins ends hmem).mono (grown hd t)

end visit

section step

variable {th th' : Thread} {data : ℕ → Option (List ℕ)} {coming : ℕ → ℕ}

theorem Sound.blank (hn : th.counter.lines.Nodup)
    (hs : ∀ l ∈ th.counter.lines, ∃ d, data l = some d) (hw : th.Walks) (hb : th.begins = ∅)
    (he : th.ends = ∅) (hc : ∀ begins ends, (begins, some ends) ∈ th.counter.sets →
      SameSample data th.counter.lines begins ends) : th.Sound data coming where
  nodup := hn
  has := hs
  walks := hw
  inside l hl := by simp [hb] at hl
  begun l b hl := by simp [hb] at hl
  ended l e hl := by simp [he] at hl
  recorded := Synchronous.of_blank (tape_eq_none hb data)
  closed := hc

theorem Sound.of_same (h : th.Sound data coming) (hl : th'.counter.lines = th.counter.lines)
    (hd : th'.due = th.due) (hw : th'.Walks) (hb : th'.begins = th.begins)
    (he : th'.ends = th.ends) (hh : ∀ l, th'.holds l = true → th.holds l = true)
    (hc : ∀ begins ends, (begins, some ends) ∈ th'.counter.sets →
      (begins, some ends) ∈ th.counter.sets) : th'.Sound data coming where
  nodup := hl ▸ h.nodup
  has := hl ▸ h.has
  walks := hw
  inside := by rw [hl, hb]; exact h.inside
  begun := by rw [hb]; exact h.begun
  ended := by rw [he]; exact h.ended
  recorded := by
    have htape : th'.tape data = th.tape data := by
      funext l
      rw [tape, tape, hb, he]
    rw [hd, htape]
    exact h.recorded.weaken hh
  closed begins ends hmem := hl ▸ h.closed begins ends (hc begins ends hmem)

theorem Sound.request {c : Counter} {due : ℕ} (h : Sound data coming ⟨c, .resting, due⟩)
    (op : Operation) : Sound data coming ⟨c, Thread.request ⟨c, .resting, due⟩ op, due⟩ := by
  have hstay : Sound data coming ⟨c, .resting, due⟩ := h
  cases hst : c.status with
  | inactive =>
    have hstart : ∀ erasing, Sound data coming ⟨c, .activating erasing c.lines, due⟩ :=
      fun erasing => .blank h.nodup h.has (List.suffix_refl _) rfl rfl h.closed
    cases op <;> simp only [Thread.request, hst] <;> first | exact hstay | exact hstart _
  | active =>
    have hstop : Sound data coming ⟨c, .deactivating c.lines, due⟩ := by
      refine h.of_same rfl rfl ⟨List.suffix_refl _, h.walks hst⟩ ?_ rfl ?_ fun _ _ hm => hm
      · simp [begins, hst, latest]
      · simp [holds, hst]
    cases op <;> simp only [Thread.request, hst] <;> first | exact hstay | exact hstop

variable {c : Counter} {erasing : Bool} {l due : ℕ} {rest : List ℕ} {sizes : SetT} {d : List ℕ}

theorem mem_insert_iff {x : ℤ} (hn : (l :: rest).Nodup) (hl : l ∈ c.lines)
    (h : ∀ j, j ∈ sizes ↔ j ∈ c.lines ∧ j ∉ l :: rest) (j : ℕ) :
    j ∈ sizes.insert l x ↔ j ∈ c.lines ∧ j ∉ rest := by
  have hnot := (List.nodup_cons.mp hn).1
  rw [Std.TreeMap.mem_insert, h, Nat.compare_eq_eq, List.mem_cons]
  constructor
  · rintro (rfl | ⟨hj, hne⟩)
    · exact ⟨hl, hnot⟩
    · exact ⟨hj, fun hr => hne (.inr hr)⟩
  · rintro ⟨hj, hr⟩
    by_cases hlj : l = j
    · exact .inl hlj
    · exact .inr ⟨hj, by rintro (rfl | h) <;> contradiction⟩

theorem offset_insert {x : ℤ} (h : ∀ (j : ℕ) (b : ℤ), sizes[j]? = some b → Offset data j b)
    (hx : Offset data l x) (j : ℕ) (b : ℤ) (hb : (sizes.insert l x)[j]? = some b) :
    Offset data j b := by
  rw [Std.TreeMap.getElem?_insert] at hb
  split_ifs at hb with hlj
  · obtain rfl := Nat.compare_eq_eq.mp hlj
    obtain rfl := Option.some.inj hb
    exact hx
  · exact h j b hb

/-- The size that opens the set on a line is the begin of an empty slice. -/
theorem Sound.opened (h : Sound data coming ⟨c, .opening erasing (l :: rest) sizes, due⟩)
    (hd : data l = some d) (hdue : sizes.isEmpty = true ∨ coming l = due) :
    Sound data coming ⟨c, .opening erasing rest (sizes.insert l (d.length : ℤ)),
      if sizes.isEmpty then coming l else due⟩ := by
  obtain ⟨hsuf, hst, hsizes⟩ := h.walks
  have hl : l ∈ c.lines := hsuf.subset (by simp)
  have hn : (l :: rest).Nodup := h.nodup.sublist hsuf.sublist
  have hmem := mem_insert_iff (x := (d.length : ℤ)) hn hl hsizes
  have hoffset : Offset data l (d.length : ℤ) := ⟨by omega, d, hd, by simp⟩
  refine ⟨h.nodup, h.has, ⟨(List.suffix_cons l rest).trans hsuf, hst, hmem⟩,
    fun j hj => ((hmem j).mp hj).1, offset_insert h.begun hoffset, h.ended, ?_, h.closed⟩
  have htape : tape ⟨c, .opening erasing rest (sizes.insert l (d.length : ℤ)),
        if sizes.isEmpty then coming l else due⟩ data =
      Function.update (tape ⟨c, .opening erasing (l :: rest) sizes, due⟩ data) l (some []) := by
    funext j
    by_cases hj : j = l
    · subst hj
      simp [tape, begins, ends, hd, cut]
    · have hne : compare l j ≠ .eq := by simpa using Ne.symm hj
      rw [Function.update_of_ne hj]
      simp [tape, begins, ends, Std.TreeMap.getElem?_insert, hne]
  have hrec : Synchronous (if sizes.isEmpty then coming l else due) coming
      (fun j => holds ⟨c, .opening erasing (l :: rest) sizes, due⟩ j = true)
      (tape ⟨c, .opening erasing (l :: rest) sizes, due⟩ data) := by
    split_ifs with hempty
    · -- the first line of the walk: nothing is on a tape yet
      refine .of_blank fun j => tape_of_not_mem ?_
      exact Std.TreeMap.isEmpty_iff_forall_not_mem.mp hempty j
    · exact h.recorded
  show Synchronous _ coming _ _
  rw [htape]
  apply hrec.begin
  split_ifs with hempty
  · rfl
  · exact hdue.resolve_left hempty

theorem Sound.measured (h : Sound data coming ⟨c, .closing (l :: rest) sizes, due⟩)
    (hd : data l = some d) :
    Sound data coming ⟨c, .closing rest (sizes.insert l (d.length : ℤ)), due⟩ := by
  obtain ⟨hsuf, hst, hlatest, hsizes⟩ := h.walks
  have hl : l ∈ c.lines := hsuf.subset (by simp)
  have hn : (l :: rest).Nodup := h.nodup.sublist hsuf.sublist
  have hmem := mem_insert_iff (x := (d.length : ℤ)) hn hl hsizes
  have hoffset : Offset data l (d.length : ℤ) := ⟨by omega, d, hd, by simp⟩
  refine ⟨h.nodup, h.has, ⟨(List.suffix_cons l rest).trans hsuf, hst, hlatest, hmem⟩, h.inside,
    h.begun, offset_insert h.ended hoffset, ?_, h.closed⟩
  have htape : tape ⟨c, .closing rest (sizes.insert l (d.length : ℤ)), due⟩ data =
      tape ⟨c, .closing (l :: rest) sizes, due⟩ data := by
    funext j
    by_cases hj : j = l
    · subst hj
      have hnone : sizes[j]? = none :=
        Std.TreeMap.getElem?_eq_none fun hin => ((hsizes j).mp hin).2 (by simp)
      simp [tape, begins, ends, latest, hd, hnone, cut]
    · have hne : compare l j ≠ .eq := by simpa using Ne.symm hj
      simp [tape, begins, ends, latest, Std.TreeMap.getElem?_insert, hne]
  show Synchronous _ coming _ _
  rw [htape]
  exact h.recorded

theorem Sound.ended_set (h : Sound data coming ⟨c, .closing [] sizes, due⟩) {last : CounterSet}
    (hlast : c.sets.getLast? = some last) : SameSample data c.lines last.1 sizes := by
  obtain ⟨-, -, hlatest, hsizes⟩ := h.walks
  have hlat : latest ⟨c, .closing [] sizes, due⟩ = last.1 := by simp [latest, hlast]
  have htape : ∀ {l d b e}, data l = some d → last.1[l]? = some b → sizes[l]? = some e →
      tape ⟨c, .closing [] sizes, due⟩ data l = some (cut d b (some e)) := by
    intro l d b e hd hb he
    simp only [tape, begins, ends, hlat, hb, he, hd, Option.bind_some, Option.map_some]
  apply SameSample.of_agree
  · intro l hl
    have hbin : l ∈ last.1 := hlat ▸ hlatest l hl
    have hein : l ∈ sizes := (hsizes l).mpr ⟨hl, by simp⟩
    have hb := Std.TreeMap.getElem?_eq_some_getElem hbin
    have he := Std.TreeMap.getElem?_eq_some_getElem hein
    have hbegun : (latest ⟨c, .closing [] sizes, due⟩)[l]? = some last.1[l] := by rw [hlat, hb]
    obtain ⟨hb₀, -⟩ := h.begun l _ hbegun
    obtain ⟨he₀, d, hd, hle⟩ := h.ended l _ he
    exact ⟨d, _, _, hd, hb, he, hb₀, he₀, hle⟩
  · intro l hl j hj d d' b b' e e' hd hd' hb hb' he he'
    exact h.recorded.agree (htape hd hb he) (htape hd' hb' he')

theorem request_holds (op : Operation) (l : ℕ) :
    holds ⟨c, Thread.request ⟨c, .resting, due⟩ op, due⟩ l = holds ⟨c, .resting, due⟩ l := by
  cases hst : c.status <;> cases op <;> simp [Thread.request, holds, hst]

end step

end Thread

end PMLib
