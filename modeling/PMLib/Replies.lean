import PMLib.Recording
import PMLib.ClosedSets

/-! # What a data reply contains

`windowReply` is the reply as a function of the recorded windows alone. The loops of `get`
compute it from the shared buffers, and they read nothing outside the counter's own sets. -/
namespace PMLib

open Int32Conv

variable {V : Type} [Zero V] [Add V]

namespace Counter

def column (l : ℕ) (w : List (ℕ → V)) (x : ℕ) : V := (readings l w).getD x 0

def setSize (c : Counter) (w : List (ℕ → V)) : ℕ :=
  if c.lines = [] then 0 else w.length / c.interval.toNat

def windowBlock (c : Counter) (w : List (ℕ → V)) : List V :=
  if c.aggregate then
    (List.range (c.setSize w)).map fun x => c.lines.foldl (fun sum l =>
      if x < summed c.interval.toNat (c.setSize w) then
        sum + column l w (x * c.interval.toNat) else sum) 0
  else c.lines.flatMap fun l =>
    ((List.range (c.setSize w)).filter fun x => x % c.interval.toNat = 0).map (column l w)

def windowReply (c : Counter) (ws : List (List (ℕ → V))) : GetReply V :=
  let wattsSets := (ws.map fun w => (c.setSize w : ℤ)).scanl
    (fun back m => wrap32 (m + back)) 0
  let watts := ws.flatMap c.windowBlock
  { wattsSize := wrap32 watts.length
    wattsSetsSize := wrap32 wattsSets.length
    linesLen := wrap32 c.lines.length
    wattsSets, watts }

def Holds (c : Counter) (dev : Device V) (p : SetT × SetT) (w : List (ℕ → V)) : Prop :=
  ∀ l ∈ c.lines, ∃ (ln : Line V) (b : ℕ), dev.lines[l]? = some ln ∧
    p.1.getD l 0 = (b : ℤ) ∧ p.2.getD l 0 = ((b + w.length : ℕ) : ℤ) ∧
    b + w.length ≤ ln.data.length ∧
    ∀ x < w.length, ln.data[b + x]? = some (column l w x)

variable {c : Counter} {dev : Device V} {p : SetT × SetT} {w : List (ℕ → V)}

omit [Zero V] [Add V] in
theorem setSize_eq_least (c : Counter) (w : List (ℕ → V)) :
    c.setSize w = least (fun _ => w.length) c.lines / c.interval.toNat := by
  unfold setSize
  split_ifs with hnil
  · rw [hnil, least_nil, Nat.zero_div]
  · obtain ⟨l, _, hmin⟩ := exists_least (fun _ => w.length) hnil
    rw [hmin]

omit [Add V] in
theorem minLength_eq (hn : c.lines.Nodup) (hi : 1 ≤ c.interval) (h : c.Holds dev p w) :
    c.minLength (p.1, some p.2) = .done (c.setSize w : ℤ) := by
  rw [minLength_eq_least (w := ⟨fun _ => w.length, fun l => column l w⟩) hn hi h,
    setSize_eq_least]

omit [Zero V] [Add V] in
theorem setSize_mul_le : c.setSize w * c.interval.toNat ≤ w.length := by
  unfold setSize
  split_ifs
  · simp
  · exact Nat.div_mul_le_self _ _

theorem setBlock_eq {read : Reader V} (hr : Reads read) (hi : 1 ≤ c.interval)
    (h : c.Holds dev p w) :
    setBlock read c dev (p.1, some p.2) (c.setSize w) = .done (c.windowBlock w) :=
  setBlock_eq_blockOf (w := ⟨fun _ => w.length, fun l => column l w⟩) hr hi h
    fun _ _ => setSize_mul_le

private theorem sets_eq {read : Reader V} (hr : Reads read) (hn : c.lines.Nodup)
    (hi : 1 ≤ c.interval)
    {ended : List (SetT × SetT)} {ws : List (List (ℕ → V))}
    (h : List.Forall₂ (c.Holds dev) ended ws) :
    (setsOf ended none).mapM c.minLength = .done (ws.map fun w => (c.setSize w : ℤ)) ∧
      ((setsOf ended none).zip (ws.map fun w => (c.setSize w : ℤ))).mapM
        (fun se => setBlock read c dev se.1 se.2) = .done (ws.map c.windowBlock) := by
  simp only [setsOf, Option.toList_none, List.map_nil, List.append_nil]
  induction h with
  | nil => exact ⟨rfl, rfl⟩
  | cons hw _ ih =>
    obtain ⟨hlen, hblocks⟩ := ih
    constructor
    · rw [List.map_cons, List.mapM_cons, minLength_eq hn hi hw, hlen]
      rfl
    · rw [List.map_cons, List.map_cons, List.zip_cons_cons, List.mapM_cons,
        setBlock_eq hr hi hw, hblocks]
      rfl

omit [Add V] in
/-- The offsets of a counter in step with its recorder point at the recorded windows. -/
theorem holds_of_tracks {r : Recorder (ℕ → V)} {ended : List (SetT × SetT)}
    {pending : Option SetT} (ht : Tracks c dev r ended pending) (hs : dev.Has c.lines)
    (hfit : ∀ (l : ℕ) (ln : Line V), dev.lines[l]? = some ln → ln.data.length < 2 ^ 31) :
    List.Forall₂ (c.Holds dev) ended r.closed := by
  refine List.forall₂_of_length_eq_of_get ht.length fun i h₁ h₂ l hl => ?_
  obtain ⟨ln, hln⟩ := hs l hl
  obtain ⟨spans, hspans⟩ := ht.lines l hl ln hln
  have hlen : spans.length = r.closed.length := by
    simpa using congrArg List.length hspans.recorded.content
  have h₃ : i < spans.length := by omega
  have hoff : (ended[i].1.getD l 0, ended[i].2.getD l 0) =
      (wrap32 (spans[i].1 : ℤ), wrap32 (spans[i].2 : ℤ)) := by
    simpa [h₁, h₃] using congrArg (·[i]?) hspans.offsets
  have hcontent : Windows.slice ln.data spans[i] = readings l r.closed[i] := by
    simpa [h₂, h₃] using congrArg (·[i]?) hspans.recorded.content
  obtain ⟨hle, hsize⟩ := hspans.recorded.inside _ (List.getElem_mem h₃)
  have hw : spans[i].2 = spans[i].1 + r.closed[i].length := by
    have hslice := Windows.length_slice hsize
    rw [hcontent, readings, List.length_map] at hslice
    omega
  obtain ⟨hb, he⟩ := Prod.mk.inj hoff
  have hfits := hfit l ln hln
  refine ⟨ln, spans[i].1, hln, ?_, ?_, by simpa [← hw] using hsize, fun x hx => ?_⟩
  · rw [List.get_eq_getElem, hb, wrap32_natCast (by omega)]
  · rw [List.get_eq_getElem, List.get_eq_getElem, he, wrap32_natCast (by omega), hw]
  · change x < r.closed[i].length at hx
    have hget : (Windows.slice ln.data spans[i])[x]? = (readings l r.closed[i])[x]? := by
      rw [hcontent]
    rw [Windows.getElem?_slice (by omega)] at hget
    rw [hget, List.get_eq_getElem, column, List.getD_eq_getElem?_getD]
    have : x < (readings l r.closed[i]).length := by simpa [readings] using hx
    simp [this]

/-- `get` answers with the recorded windows, whichever way it reads the buffers. -/
theorem getData_eq {read : Reader V} (hr : Reads read) (hn : c.lines.Nodup)
    (hi : 1 ≤ c.interval)
    {r : Recorder (ℕ → V)} {ended : List (SetT × SetT)} (ht : Tracks c dev r ended none)
    (hs : dev.Has c.lines)
    (hfit : ∀ (l : ℕ) (ln : Line V), dev.lines[l]? = some ln → ln.data.length < 2 ^ 31) :
    getData read c dev = .done (c.windowReply r.closed) := by
  obtain ⟨hlen, hblocks⟩ := sets_eq hr hn hi (holds_of_tracks ht hs hfit)
  rw [← ht.sets] at hlen hblocks
  simp only [getData, hlen, Outcome.done_bind, hblocks]
  rfl

end Counter

end PMLib
