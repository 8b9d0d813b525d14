import PMLib.LegacyBooks
import PMLib.Frequency
import PMLib.Lib.Simulation
import Mathlib.Algebra.BigOperators.Ring.List

/-! # The server beside the one it was ported from

While its clients keep to the protocol, a run of the legacy server is a run of the server: the
same counters, the same recordings and the same answers. -/
namespace PMLib

open Int32Conv

variable {V : Type}

/-! ## Requests -/

theorem roundAway_quotient {k a b : ℕ} (hb : 0 < b) (hab : b ≤ a) (ha : a < 2 ^ k) :
    Binary32.roundAway (Rounding.ofRat k (Rounding.ofRat k a / Rounding.ofRat k b)) =
      ⌊(a / b : ℚ) + 1 / 2⌋ := by
  have hpow : (2 : ℕ) ^ k < 2 ^ (k + 1) := Nat.pow_lt_pow_right (by norm_num) (by omega)
  have hdiv : (0 : ℚ) < a / b :=
    div_pos (by exact_mod_cast (show 0 < a by omega)) (by exact_mod_cast hb)
  rw [Rounding.ofRat_natCast k (by omega), Rounding.ofRat_natCast k (by omega),
    Binary32.roundAway, if_pos (Rounding.ofRat_pos k hdiv).le,
    Rounding.floor_ofRat_div k hb (by omega) ha]

theorem setFrequency_same {m f : ℤ} (hm : 0 < m) (hm' : m < 2 ^ 23) (hf : 0 ≤ f) (hfm : f ≤ m) :
    ∃ interval, 1 ≤ interval ∧ Counter.setFrequency m f = .done interval ∧
      Legacy.Counter.setFrequency m f = .done interval := by
  obtain ⟨a, rfl⟩ := Int.eq_ofNat_of_zero_le hm.le
  obtain ⟨b, hb⟩ : ∃ b : ℕ, Counter.effectiveFrequency a f = b ∧ 0 < b ∧ b ≤ a := by
    unfold Counter.effectiveFrequency
    split_ifs
    · exact ⟨a, rfl, by omega, le_rfl⟩
    · exact ⟨f.toNat, by omega, by omega, by omega⟩
  obtain ⟨heff, hpos, hle⟩ := hb
  have ha : a < 2 ^ 23 := by exact_mod_cast hm'
  have hone : (1 : ℚ) ≤ a / b :=
    (one_le_div (by exact_mod_cast hpos)).mpr (by exact_mod_cast hle)
  have hbig : (a : ℚ) / b ≤ a :=
    div_le_self (by positivity) (by exact_mod_cast hpos)
  have hlow : 1 ≤ ⌊(a / b : ℚ) + 1 / 2⌋ := by
    rw [Int.le_floor]
    push_cast
    linarith
  have hhigh : ⌊(a / b : ℚ) + 1 / 2⌋ ≤ a := by
    rw [← Int.lt_add_one_iff, Int.floor_lt]
    push_cast
    linarith
  refine ⟨⌊(a / b : ℚ) + 1 / 2⌋, hlow, ?_, ?_⟩
  · have hround := roundAway_quotient (k := 23) hpos hle ha
    rw [Counter.setFrequency_eq hfm (by omega), heff, if_pos]
    · exact congrArg Outcome.done hround
    · rw [show Binary32.roundAway (Counter.quotient a b) = _ from hround]
      exact ⟨by omega, by omega⟩
  · have hround := roundAway_quotient (k := 52) hpos hle (by omega)
    have hchosen : (if f = 0 then (a : ℤ) else f) = b := heff
    rw [Legacy.Counter.setFrequency, if_neg (by omega)]
    dsimp only
    rw [hchosen, if_neg (by omega)]
    exact congrArg Outcome.done hround

theorem setLines_same {nLines : ℕ} {mask : List Byte} (hlen : mask.length * 8 ≤ 2 ^ 31)
    (hsome : selectedLines nLines mask ≠ []) :
    Counter.setLines nLines mask = .done (selectedLines nLines mask) ∧
      Legacy.Counter.setLines nLines mask = .done (selectedLines nLines mask) := by
  rw [Counter.setLines_eq, Legacy.Counter.setLines_eq, if_neg (by omega), if_neg hsome]
  exact ⟨rfl, rfl⟩

/-! ## The same state -/

namespace Port

structure SameLine (ln : Line V) (old : Legacy.Line V) : Prop where
  enabled : (ln.enabled : ℤ) = old.enabled
  active : (ln.active : ℤ) = old.active
  data : ln.data = old.powerData.samples

structure SameDevice (dev : Device V) (old : Legacy.Device V) : Prop where
  name : dev.name = old.name
  maxFrequency : dev.maxFrequency = old.maxFrequency
  nLines : dev.nLines = old.lines.size
  lines : ∀ l : ℕ, Option.Rel SameLine dev.lines[l]? old.lines[l]?

def SameOffsets (lines : List ℕ) (m old : SetT) : Prop :=
  ∀ l ∈ lines, old[l]? = some (m.getD l 0)

def SameSet (lines : List ℕ) (se old : CounterSet) : Prop :=
  SameOffsets lines se.1 old.1 ∧ Option.Rel (SameOffsets lines) se.2 old.2

structure SameCounter (c : Counter) (old : Legacy.Counter) : Prop where
  registered : c.registered = true
  running : c.running = true
  aggregate : c.aggregate = old.aggregate
  interval : c.interval = old.interval
  status : c.status = old.status
  lines : c.lines = old.lines
  selected : old.lines ≠ []
  sets : List.Forall₂ (SameSet old.lines) c.sets old.sets

/-- A data answer of one server carries the readings of the other one. With the lines summed the
answers are the same; otherwise one lists the sets with their lines, and the other one the lines
with their sets. -/
structure SameReadings (aggregate : Bool) (lines : List ℕ) (r old : GetReply V)
    (ws : List (List (ℕ → V))) [Zero V] [Add V] : Prop where
  sizes : r = { old with watts := r.watts }
  watts : r.watts = ws.flatMap (windowReadings aggregate lines)
  oldWatts : old.watts = if aggregate then r.watts
    else lines.flatMap fun l => ws.flatMap (readings l)

inductive SameAnswer [Zero V] [Add V] (aggregate : Bool) (lines : List ℕ) :
    Reply V → Reply V → Prop where
  | retval (r : Retval) : SameAnswer aggregate lines (.retval r) (.retval r)
  | data (r old : GetReply V) (ws : List (List (ℕ → V))) :
      SameReadings aggregate lines r old ws → SameAnswer aggregate lines (.data r) (.data old)

/-- The legacy server removes a counter before it answers to FINALIZE. -/
inductive SameSession [Zero V] [Add V] : Session V → Legacy.Session V → Prop where
  | created (c : Counter) (old : Legacy.Counter) : SameCounter c old →
      SameSession ⟨c, .replying (.retval .success)⟩ ⟨old, true, .created⟩
  | serving (c : Counter) (old : Legacy.Counter) : SameCounter c old →
      SameSession ⟨c, .serving⟩ ⟨old, true, .serving⟩
  | replying (c : Counter) (old : Legacy.Counter) (r r' : Reply V) : SameCounter c old →
      SameAnswer old.aggregate old.lines r r' →
      SameSession ⟨c, .replying r⟩ ⟨old, true, .replying r'⟩
  | finalized (c : Counter) (old : Legacy.Counter) :
      SameSession ⟨c, .destroyed⟩ ⟨old, false, .replying (.retval .success)⟩
  | left (c : Counter) (old : Legacy.Counter) :
      SameSession ⟨c, .destroyed⟩ ⟨old, false, .left⟩

structure InStep [Zero V] [Add V] (s : Server V) (t : Legacy.Server V) : Prop where
  device : SameDevice s.dev t.dev
  free : t.dev.counterLock = false
  sessions : ∀ k : ℕ, Option.Rel SameSession s.sessions[k]? t.sessions[k]?

namespace SameLine

variable {ln : Line V} {old : Legacy.Line V}

theorem enable (h : SameLine ln old) : SameLine ln.enable old.enable :=
  ⟨by simp [h.enabled], h.active, h.data⟩

theorem activate (h : SameLine ln old) : SameLine ln.activate old.activate :=
  ⟨h.enabled, by simp [h.active], h.data⟩

theorem deactivate (h : SameLine ln old) : SameLine ln.deactivate old.inactivate := by
  have hactive := h.active
  refine ⟨by simpa using h.enabled, ?_, by simpa using h.data⟩
  rw [Line.deactivate_active, Legacy.Line.inactivate]
  dsimp only
  split_ifs <;> omega

theorem release (h : SameLine ln old) : SameLine ln.release old.leave := by
  have henabled := h.enabled
  refine ⟨?_, by simpa using h.active, ?_⟩
  · rw [Line.release_enabled]
    unfold Legacy.Line.leave Legacy.Line.disable
    split_ifs <;> simp only <;> omega
  · rw [Line.release_data, Legacy.Line.leave_samples, h.data]
    have hiff : 1 < ln.enabled ↔ 1 < old.enabled := by omega
    simp only [hiff]

theorem consume (h : SameLine ln old) (hroom : old.hasRoom = true) (v : V) :
    SameLine (ln.consume v) (old.appendData v) := by
  have hactive := h.active
  refine ⟨by simpa using h.enabled, by simpa using h.active, ?_⟩
  rw [Line.consume_data, h.data, Legacy.Line.appendData]
  by_cases hon : 0 < ln.active
  · have hold : old.isActive = true := by simp [Legacy.Line.isActive]; omega
    have hlen : (old.powerData.samples ++ [v]).length < 2 ^ 53 := by
      simpa [Legacy.Line.hasRoom, hold] using hroom
    rw [if_pos hon, if_pos hold, Legacy.PowerData.append, dif_pos hlen]
  · have hold : ¬ old.isActive = true := by simp [Legacy.Line.isActive]; omega
    rw [if_neg hon, if_neg hold]

end SameLine

namespace SameDevice

variable {dev dev' : Device V} {old old' : Legacy.Device V}

theorem line (h : SameDevice dev old) {l : ℕ} {ln : Line V} (hl : dev.lines[l]? = some ln) :
    ∃ oln, old.lines[l]? = some oln ∧ SameLine ln oln := by
  have hrel := h.lines l
  rw [hl] at hrel
  cases hold : old.lines[l]? with
  | none => rw [hold] at hrel; cases hrel
  | some oln =>
    rw [hold] at hrel
    cases hrel with
    | some hsame => exact ⟨oln, rfl, hsame⟩

theorem mapped (h : SameDevice dev old) {g : ℕ → Line V → Line V}
    {g' : ℕ → Legacy.Line V → Legacy.Line V} (hm : Device.Mapped dev dev' g)
    (hm' : Legacy.Device.Mapped old old' g')
    (hg : ∀ l ln oln, old.lines[l]? = some oln → SameLine ln oln →
      SameLine (g l ln) (g' l oln)) : SameDevice dev' old' where
  name := by rw [hm.name, hm'.name, h.name]
  maxFrequency := by rw [hm.maxFrequency, hm'.maxFrequency, h.maxFrequency]
  nLines := by rw [hm.nLines, hm'.size, h.nLines]
  lines l := by
    have hrel := h.lines l
    rw [hm.lines, hm'.lines]
    cases hln : dev.lines[l]? with
    | none =>
      rw [hln] at hrel
      cases hold : old.lines[l]? with
      | none => exact .none
      | some oln => rw [hold] at hrel; cases hrel
    | some ln =>
      obtain ⟨oln, hold, hsame⟩ := h.line hln
      rw [hold]
      exact .some (hg l ln oln hold hsame)

theorem walked (h : SameDevice dev old) {sel : List ℕ} {f : Line V → Line V}
    {f' : Legacy.Line V → Legacy.Line V}
    (hm : Device.Mapped dev dev' (fun l ln => if l ∈ sel then f ln else ln))
    (hm' : Legacy.Device.Mapped old old' (fun l ln => if l ∈ sel then f' ln else ln))
    (hf : ∀ ln oln, SameLine ln oln → SameLine (f ln) (f' oln)) : SameDevice dev' old' := by
  refine h.mapped hm hm' fun l ln oln _ hsame => ?_
  by_cases hl : l ∈ sel
  · simpa only [hl, if_true] using hf ln oln hsame
  · simpa only [hl, if_false] using hsame

end SameDevice

/-! ## The same answer to GET -/

section answer

def Agrees [Zero V] (lines : List ℕ) (w : List (ℕ → V)) (W : Window V) : Prop :=
  ∀ l ∈ lines, W.length l = w.length ∧ ∀ x < w.length, W.value l x = Counter.column l w x

section window

variable [Zero V] {lines : List ℕ} {w : List (ℕ → V)} {W : Window V}

theorem Agrees.count (h : Agrees lines w W) (hne : lines ≠ []) : W.count 1 lines = w.length := by
  have hall : ∀ l ∈ lines, W.length l ⌈/⌉ 1 = w.length := by
    intro l hl
    rw [(h l hl).1]
    simp
  obtain ⟨l, rest, rfl⟩ := List.exists_cons_of_ne_nil hne
  rw [Window.count, least_cons, hall l (by simp)]
  have hrest : ∀ l ∈ rest, W.length l ⌈/⌉ 1 = w.length := fun l hl => hall l (by simp [hl])
  clear hall hne h
  induction rest with
  | nil => rfl
  | cons a rest ih =>
    rw [List.foldl_cons, hrest a (by simp), min_self]
    exact ih fun l hl => hrest l (by simp [hl])

theorem column_map (l : ℕ) (w : List (ℕ → V)) :
    (List.range w.length).map (Counter.column l w) = readings l w := by
  refine List.ext_getElem (by simp [readings]) fun x hx hx' => ?_
  have hlt : x < w.length := by simpa using hx
  simp [Counter.column, readings, hlt]

theorem Agrees.block (h : Agrees lines w W) {l : ℕ} (hl : l ∈ lines) :
    W.block 1 w.length l = readings l w := by
  rw [Window.block, ← column_map]
  refine List.map_congr_left fun x hx => ?_
  rw [mul_one]
  exact (h l hl).2 x (List.mem_range.mp hx)

theorem Agrees.sums [Add V] (h : Agrees lines w W) (hne : lines ≠ []) :
    W.sums 1 w.length lines = windowReadings true lines w := by
  rw [Window.sums, windowReadings, if_pos rfl, if_neg hne]
  refine List.ext_getElem (by simp) fun x hx hx' => ?_
  have hlt : x < w.length := by simpa using hx
  rw [List.getElem_map, List.getElem_map, List.getElem_range, mul_one]
  refine List.foldl_ext _ _ _ fun sum l hl => ?_
  rw [(h l hl).2 x hlt, Counter.column_eq hlt]

end window

abbrev oldLines (odev : Legacy.Device V) : Legacy.Lines V := odev.lines.map fun _ ln => ln.powerData

section sets

variable [Zero V] {lines : List ℕ} {ws : List (List (ℕ → V))} {Ws : List (Window V)}

theorem counts_eq (h : List.Forall₂ (Agrees lines) ws Ws) (hne : lines ≠ []) :
    Legacy.counts 1 lines Ws = ws.map List.length := by
  rw [Legacy.counts, ← List.forall₂_eq_eq_eq, List.forall₂_map_left_iff, List.forall₂_map_right_iff]
  exact h.flip.imp fun W w (hw : Agrees lines w W) => hw.count hne

theorem lineMajor_eq (h : List.Forall₂ (Agrees lines) ws Ws) :
    Legacy.lineMajor 1 lines Ws = lines.flatMap fun l => ws.flatMap (readings l) := by
  rw [Legacy.lineMajor]
  refine List.flatMap_congr fun l hl => ?_
  have hne : lines ≠ [] := List.ne_nil_of_mem hl
  induction h with
  | nil => rfl
  | cons hw _ ih => rw [List.flatMap_cons, List.flatMap_cons, hw.count hne, hw.block hl, ih]

theorem setSums_eq [Add V] (h : List.Forall₂ (Agrees lines) ws Ws) (hne : lines ≠ []) :
    Legacy.setSums 1 lines Ws = ws.flatMap (windowReadings true lines) := by
  rw [Legacy.setSums]
  induction h with
  | nil => rfl
  | cons hw _ ih => rw [List.flatMap_cons, List.flatMap_cons, hw.count hne, hw.sums hne, ih]

omit [Zero V] in
theorem length_orders (lines : List ℕ) (ws : List (List (ℕ → V))) :
    (ws.flatMap fun w => lines.flatMap fun l => readings l w).length =
      (lines.flatMap fun l => ws.flatMap (readings l)).length := by
  simp only [List.length_flatMap, readings, List.length_map, List.map_const', List.sum_replicate,
    smul_eq_mul]
  rw [List.sum_map_mul_left]

end sets

section sameSets

variable {c : Counter} {old : Legacy.Counter} {dev : Device V} {odev : Legacy.Device V}

theorem SameCounter.closed (h : SameCounter c old) {ended : List (SetT × SetT)}
    (hsets : c.sets = setsOf ended none) : ∃ ended',
      old.sets = ended'.map (fun p => (p.1, some p.2)) ∧
      List.Forall₂ (fun p p' : SetT × SetT => SameOffsets old.lines p.1 p'.1 ∧
        SameOffsets old.lines p.2 p'.2) ended ended' := by
  have hall := h.sets
  rw [hsets, setsOf, Option.toList_none, List.map_nil, List.append_nil] at hall
  generalize old.sets = sets at hall ⊢
  clear hsets
  induction ended generalizing sets with
  | nil =>
    cases hall
    exact ⟨[], rfl, .nil⟩
  | cons p ended ih =>
    rw [List.map_cons] at hall
    cases hall with
    | cons hfirst hrest =>
      rename_i se sets
      obtain ⟨ended', rfl, hended⟩ := ih sets hrest
      obtain ⟨hbegin, hend⟩ := hfirst
      obtain ⟨begin', fin'⟩ := se
      cases hend with
      | some hfin => exact ⟨(begin', _) :: ended', rfl, .cons ⟨hbegin, hfin⟩ hended⟩

variable [Zero V]

theorem covers (hd : SameDevice dev odev) (hc : SameCounter c old) {p p' : SetT × SetT}
    {w : List (ℕ → V)} (h : c.Holds dev p w)
    (hp : SameOffsets old.lines p.1 p'.1 ∧ SameOffsets old.lines p.2 p'.2) :
    Legacy.Covers (oldLines odev) old.lines p' ∧
      Agrees old.lines w (Window.ofSet (Legacy.buffer (oldLines odev)) p') := by
  have hline : ∀ l ∈ old.lines, ∃ (power : Legacy.PowerData V) (b : ℕ),
      (oldLines odev)[l]? = some power ∧ p'.1[l]? = some (b : ℤ) ∧
      p'.2[l]? = some ((b + w.length : ℕ) : ℤ) ∧ b + w.length ≤ power.samples.length ∧
      ∀ x < w.length, power.samples[b + x]? = some (Counter.column l w x) := by
    intro l hl
    obtain ⟨ln, b, hln, hbegin, hend, hsize, hdata⟩ := h l (hc.lines ▸ hl)
    obtain ⟨oln, hold, hsame⟩ := hd.line hln
    refine ⟨oln.powerData, b, by simp [oldLines, hold], ?_, ?_, ?_, ?_⟩
    · rw [hp.1 l hl, hbegin]
    · rw [hp.2 l hl, hend]
    · rwa [← hsame.data]
    · rwa [← hsame.data]
  refine ⟨fun l hl => ?_, fun l hl => ?_⟩
  · obtain ⟨power, b, hpower, hbegin, hend, hsize, -⟩ := hline l hl
    exact ⟨power, b, b + w.length, hpower, hbegin, hend, by omega, hsize⟩
  · obtain ⟨power, b, hpower, hbegin, hend, hsize, hdata⟩ := hline l hl
    have hbegin' : p'.1.getD l 0 = b := by
      rw [Std.TreeMap.getD_eq_getD_getElem?, hbegin, Option.getD_some]
    have hend' : p'.2.getD l 0 = (b + w.length : ℕ) := by
      rw [Std.TreeMap.getD_eq_getD_getElem?, hend, Option.getD_some]
    constructor
    · simp only [Window.ofSet, hbegin', hend']
      omega
    · intro x hx
      dsimp only [Window.ofSet]
      rw [hbegin', Int.toNat_natCast, Legacy.buffer, hpower, Option.map_some, Option.getD_some,
        List.getD_eq_getElem?_getD, hdata x hx, Option.getD_some]

end sameSets

private theorem forall₂_join {α β γ : Type} {R : α → β → Prop} {S : α → γ → Prop}
    {T : β → γ → Prop} (h : ∀ a b c, R a b → S a c → T b c) {as : List α} {bs : List β}
    {cs : List γ} (hR : List.Forall₂ R as bs) (hS : List.Forall₂ S as cs) :
    List.Forall₂ T bs cs := by
  induction hR generalizing cs with
  | nil =>
    cases hS
    exact .nil
  | cons hr _ ih =>
    cases hS with
    | cons hs hS => exact .cons (h _ _ _ hr hs) (ih hS)

private theorem forall₂_getLast {α β : Type} {R : α → β → Prop} {as : List α} {bs : List β}
    {b : β} (h : List.Forall₂ R as bs) (hb : bs.getLast? = some b) :
    ∃ a, as.getLast? = some a ∧ R a b ∧ List.Forall₂ R as.dropLast bs.dropLast := by
  obtain ⟨bs, rfl⟩ := List.getLast?_eq_some_iff.mp hb
  have hearlier := List.forall₂_take_append as bs [b] h
  have hlast := List.forall₂_drop_append as bs [b] h
  have hsplit := List.take_append_drop bs.length as
  generalize as.take bs.length = earlier at hearlier hsplit
  generalize as.drop bs.length = rest at hlast hsplit
  cases hlast with
  | cons hab hnil =>
    cases hnil
    subst hsplit
    exact ⟨_, List.getLast?_concat, hab, by simpa using hearlier⟩

/-- What the legacy server answers to GET at native frequency, when its counts fit the message,
is what the server answers. -/
theorem get_same [Zero V] [Add V] {c : Counter} {old : Legacy.Counter} {dev : Device V}
    {odev : Legacy.Device V} (hd : SameDevice dev odev) (hc : SameCounter c old)
    (hne : old.lines ≠ []) (hi : c.interval = 1) (hst : c.status = .inactive)
    {ended : List (SetT × SetT)} {ws : List (List (ℕ → V))} (hsets : c.sets = setsOf ended none)
    (hholds : List.Forall₂ (c.Holds dev) ended ws) {r : Reply V}
    (hget : old.get (oldLines odev) = .done r) :
    ∃ e, r = .data e ∧ SameReadings old.aggregate old.lines (c.windowReply ws) e ws := by
  obtain ⟨ended', hsets', hended⟩ := hc.closed hsets
  have hcovers : List.Forall₂ (fun (p' : SetT × SetT) _ =>
      Legacy.Covers (oldLines odev) old.lines p') ended' ws :=
    forall₂_join (T := fun p' _ => Legacy.Covers (oldLines odev) old.lines p')
      (fun (p : SetT × SetT) p' (w : List (ℕ → V)) hp (hw : c.Holds dev p w) =>
        (covers hd hc hw hp).1) hended hholds
  have hagrees : List.Forall₂ (Agrees old.lines) ws (Legacy.windows (oldLines odev) ended') := by
    rw [Legacy.windows, List.forall₂_map_right_iff]
    exact forall₂_join (R := c.Holds dev)
      (S := fun (p p' : SetT × SetT) => SameOffsets old.lines p.1 p'.1 ∧
        SameOffsets old.lines p.2 p'.2)
      (fun p w p' hw hp => (covers hd hc hw hp).2) hholds hended
  have hall : ∀ p ∈ ended', Legacy.Covers (oldLines odev) old.lines p := by
    intro p hp
    obtain ⟨i, hlt, rfl⟩ := List.mem_iff_getElem.mp hp
    have hlen := hcovers.length_eq
    exact (List.forall₂_iff_get.mp hcovers).2 i hlt (hlen ▸ hlt)
  obtain ⟨e, he, hcarries⟩ := Legacy.get_eq one_pos (by rw [← hc.interval, hi]; rfl)
    (hc.status ▸ hst) hsets' hall
  rw [he] at hget
  split_ifs at hget with hpack
  obtain rfl := Outcome.done.inj hget
  refine ⟨e, rfl, ?_⟩
  rw [counts_eq hagrees hne, lineMajor_eq hagrees, setSums_eq hagrees hne] at hcarries
  have hwatts := Counter.windowReply_watts hi ws
  rw [hc.aggregate, hc.lines] at hwatts
  have holdWatts : e.watts = if old.aggregate then (c.windowReply ws).watts
      else old.lines.flatMap fun l => ws.flatMap (readings l) := by
    rw [hcarries.watts, hwatts]
    cases old.aggregate <;> rfl
  have hlength : (c.windowReply ws).watts.length = e.watts.length := by
    rw [holdWatts]
    split_ifs with hagg
    · rfl
    · rw [hwatts, ← length_orders, Bool.eq_false_of_not_eq_true hagg]
      rfl
  obtain ⟨hwattsFit, hsetsFit, hlinesFit, -⟩ := hpack
  rw [hcarries.wattsSize, ← hlength] at hwattsFit
  have hfit : (c.windowReply ws).watts.length < 2 ^ 31 := by
    have hlt := hwattsFit.2
    omega
  have hwindowSize : ws.map (windowSize c.lines) = ws.map List.length := by
    refine List.map_congr_left fun w _ => ?_
    rw [windowSize, hc.lines, if_neg hne]
  have hwattsSets : (c.windowReply ws).wattsSets = e.wattsSets := by
    rw [Counter.windowReply_wattsSets hi hfit, hwindowSize, hcarries.announces.wattsSets]
  refine ⟨?_, hwatts, holdWatts⟩
  have hwattsSize : (c.windowReply ws).wattsSize = e.wattsSize := by
    have hsize : (c.windowReply ws).wattsSize = wrap32 (c.windowReply ws).watts.length := by
      simp only [Counter.windowReply]
    rw [hsize, hcarries.wattsSize, ← hlength, wrap32_of_fits hwattsFit]
  have hsetsSize : (c.windowReply ws).wattsSetsSize = e.wattsSetsSize := by
    have hlen : ((c.windowReply ws).wattsSets.length : ℤ) = e.wattsSetsSize := by
      rw [hwattsSets, hcarries.announces.wattsSets, hcarries.announces.wattsSetsSize]
      simp [List.length_scanl]
    have hsize : (c.windowReply ws).wattsSetsSize =
        wrap32 (c.windowReply ws).wattsSets.length := by
      simp only [Counter.windowReply]
    rw [← hlen] at hsetsFit ⊢
    rw [hsize, wrap32_of_fits hsetsFit]
  have hlinesLen : (c.windowReply ws).linesLen = e.linesLen := by
    have hsize : (c.windowReply ws).linesLen = wrap32 c.lines.length := by
      simp only [Counter.windowReply]
    rw [hcarries.linesLen, ← hc.lines] at hlinesFit ⊢
    rw [hsize, wrap32_of_fits hlinesFit]
  rw [← hwattsSize, ← hsetsSize, ← hlinesLen, ← hwattsSets]

end answer

/-! ## In step -/

theorem sameOffsets {dev : Device V} {odev : Legacy.Device V} (hd : SameDevice dev odev)
    (hfit : ∀ (l : ℕ) (ln : Line V), dev.lines[l]? = some ln → ln.data.length < 2 ^ 31)
    {sel : List ℕ} (hs : dev.Has sel) {m old : SetT}
    (hm : ∀ l ∈ sel, ∀ ln, dev.lines[l]? = some ln → m.getD l 0 = ln.getSize)
    (hold : ∀ l ∈ sel, ∀ oln, odev.lines[l]? = some oln →
      old[l]? = some (oln.powerData.samples.length : ℤ)) : SameOffsets sel m old := by
  intro l hl
  obtain ⟨ln, hln⟩ := hs l hl
  obtain ⟨oln, holn, hsame⟩ := hd.line hln
  rw [hold l hl oln holn, hm l hl ln hln, Line.getSize, wrap32_natCast (by
    have hlt := hfit l ln hln
    omega), hsame.data]

section steps

variable [Zero V] [Add V] {s : Server V} {t : Legacy.Server V}

theorem InStep.serving (h : InStep s t) {k : ℕ} {old : Legacy.Counter}
    (hk : t.sessions[k]? = some ⟨old, true, .serving⟩) :
    ∃ c, s.sessions[k]? = some ⟨c, .serving⟩ ∧ SameCounter c old := by
  have hrel := h.sessions k
  rw [hk] at hrel
  generalize s.sessions[k]? = x at hrel ⊢
  cases hrel with
  | some hsame =>
    cases hsame with
    | serving c old hc => exact ⟨c, rfl, hc⟩

theorem InStep.length_eq (h : InStep s t) : s.sessions.length = t.sessions.length := by
  have hnone : ∀ k : ℕ, s.sessions[k]? = none ↔ t.sessions[k]? = none := by
    intro k
    have hrel := h.sessions k
    generalize s.sessions[k]? = x at hrel ⊢
    generalize t.sessions[k]? = y at hrel ⊢
    cases hrel <;> simp
  have hleft := (hnone t.sessions.length).mpr (List.getElem?_eq_none le_rfl)
  have hright := (hnone s.sessions.length).mp (List.getElem?_eq_none le_rfl)
  rw [List.getElem?_eq_none_iff] at hleft hright
  omega

theorem InStep.set (h : InStep s t) {dev : Device V} {odev : Legacy.Device V}
    (hd : SameDevice dev odev) (hfree : odev.counterLock = false) (k : ℕ) {ss : Session V}
    {old : Legacy.Session V} (hsame : SameSession ss old) (main : Legacy.Main) :
    InStep ⟨dev, s.sessions.set k ss⟩ ⟨odev, t.sessions.set k old, main⟩ where
  device := hd
  free := hfree
  sessions j := by
    have hrel := h.sessions j
    by_cases hj : j = k
    · subst hj
      rw [List.getElem?_set_self', List.getElem?_set_self']
      generalize s.sessions[j]? = x at hrel ⊢
      generalize t.sessions[j]? = y at hrel ⊢
      cases hrel with
      | some => exact .some hsame
      | none => exact .none
    · rw [List.getElem?_set_ne (Ne.symm hj), List.getElem?_set_ne (Ne.symm hj)]
      exact hrel

theorem InStep.join (h : InStep s t) {dev : Device V} {odev : Legacy.Device V}
    (hd : SameDevice dev odev) (hfree : odev.counterLock = false) {ss : Session V}
    {old : Legacy.Session V} (hsame : SameSession ss old) (main : Legacy.Main) :
    InStep ⟨dev, s.sessions ++ [ss]⟩ ⟨odev, t.sessions ++ [old], main⟩ where
  device := hd
  free := hfree
  sessions j := by
    rcases lt_trichotomy j s.sessions.length with hlt | rfl | hgt
    · rw [List.getElem?_append_left hlt, List.getElem?_append_left (h.length_eq ▸ hlt)]
      exact h.sessions j
    · rw [List.getElem?_concat_length, h.length_eq, List.getElem?_concat_length]
      exact .some hsame
    · have hlen := h.length_eq
      rw [List.getElem?_eq_none (by simp; omega), List.getElem?_eq_none (by simp; omega)]
      exact .none

theorem next_receive {k : ℕ} {c : Counter} (hk : s.sessions[k]? = some ⟨c, .serving⟩) (n : ℤ) :
    s.next (.receive k (some n)) = s.serve k c n := by
  simp only [Server.next, hk]

theorem serve_eq {k : ℕ} {c c' : Counter} {n : ℤ} {dev : Device V} {r : Reply V}
    (h : c.dispatch s.dev n = .done (c', dev, r)) :
    s.serve k c n = .done ⟨dev, s.sessions.set k ⟨c', .replying r⟩⟩ := by
  simp only [Server.serve, h]

variable {k : ℕ} {c : Counter} {old : Legacy.Counter} {n : ℤ}

theorem step_sample (h : InStep s t)
    (hroom : (t.dev.lines.toList.all fun line => line.2.hasRoom) = true) (x : ℕ → V) :
    InStep { s with dev := s.dev.pushBackData x }
      { t with dev := t.dev.lineAppendData x } where
  device := h.device.mapped (s.dev.pushBackData_mapped x) (t.dev.lineAppendData_mapped x)
    fun l _ oln hl hsame => hsame.consume
      (List.all_eq_true.mp hroom (l, oln)
        (Std.TreeMap.mem_toList_iff_getElem?_eq_some.mpr hl)) (x l)
  free := h.free
  sessions := h.sessions

theorem step_open (hw : s.WellFormed) (hwt : t.WellFormed) (hfit : s.BuffersFit) (h : InStep s t)
    (hk : s.sessions[k]? = some ⟨c, .serving⟩) (hk' : t.sessions[k]? = some ⟨old, true, .serving⟩)
    (hc : SameCounter c old) {earlier earlier' : List CounterSet}
    (hsets : List.Forall₂ (SameSet old.lines) earlier earlier')
    (hd : c.dispatch s.dev n = if c.status = .inactive then do
        let dev ← s.dev.startCounter c.lines
        let sizes ← dev.getLinesSizes c.lines
        .done ({ c with status := .active, sets := earlier ++ [(sizes, none)] }, dev,
          .retval .success)
      else .done (c, s.dev, .retval .error))
    (hopens : Legacy.Opens (V := V) k old n earlier') :
    ∃ s', s.serve k c n = .done s' ∧ InStep s' (t.serve k old n) := by
  cases hst : c.status with
  | active =>
    rw [if_neg (by simp [hst])] at hd
    refine ⟨_, serve_eq hd, ?_⟩
    rw [Legacy.serve_opening_refused (hc.status ▸ hst) hopens]
    exact h.set h.device h.free k (.replying c old _ _ hc (.retval .error)) _
  | inactive =>
    obtain ⟨dev, sizes, hdev, hsizes, -, hm, hget⟩ :=
      Device.forLines_getLinesSizes (hw.sessions k _ hk).nodup (hw.has hk) Line.activate
    obtain ⟨odev, m, hserve, -, hfree, hm', hlengths⟩ :=
      Legacy.serve_opening hwt hk' h.free (hc.status ▸ hst) hopens
    rw [if_pos hst, Device.startCounter, hdev, Outcome.done_bind, hsizes, Outcome.done_bind] at hd
    refine ⟨_, serve_eq hd, ?_⟩
    rw [hserve]
    dsimp only at hm hget
    rw [hc.lines] at hm hget
    have hdev' : SameDevice dev odev :=
      h.device.walked hm hm' fun ln oln hsame => hsame.activate
    have hoffsets : SameOffsets old.lines sizes m := by
      refine sameOffsets hdev' (fun l ln hl => ?_) ?_ hget hlengths
      · obtain ⟨ln₀, h₀, rfl⟩ := hm.line hl
        have hlt := hfit l ln₀ h₀
        split_ifs <;> exact hlt
      · intro l hl
        obtain ⟨ln, hln⟩ := hw.has hk l (hc.lines ▸ hl)
        exact ⟨_, by rw [hm.lines, hln]; rfl⟩
    have hc' : SameCounter { c with status := .active, sets := earlier ++ [(sizes, none)] }
        { old with status := .active, sets := earlier' ++ [(m, none)] } :=
      ⟨hc.registered, hc.running, hc.aggregate, hc.interval, rfl, hc.lines, hc.selected,
        List.rel_append hsets (.cons ⟨hoffsets, .none⟩ .nil)⟩
    exact h.set hdev' hfree k (.replying _ _ _ _ hc' (.retval .success)) _

theorem step_stop (hw : s.WellFormed) (hwt : t.WellFormed) (hfit : s.BuffersFit) (h : InStep s t)
    (hk : s.sessions[k]? = some ⟨c, .serving⟩) (hk' : t.sessions[k]? = some ⟨old, true, .serving⟩)
    (hc : SameCounter c old) (hop : Operation.ofInt n = some .stop) :
    ∃ s', s.serve k c n = .done s' ∧ InStep s' (t.serve k old n) := by
  have hd : c.dispatch s.dev n = c.stop s.dev := by simp [Counter.dispatch, hop]
  cases hst : c.status with
  | inactive =>
    rw [Counter.stop, if_neg (by simp [hst])] at hd
    refine ⟨_, serve_eq hd, ?_⟩
    rw [Legacy.serve_stop_refused (hc.status ▸ hst) hop]
    exact h.set h.device h.free k (.replying c old _ _ hc (.retval .error)) _
  | active =>
    obtain ⟨dev, sizes, hdev, hsizes, -, hm, hget⟩ :=
      Device.forLines_getLinesSizes (hw.sessions k _ hk).nodup (hw.has hk) Line.deactivate
    obtain ⟨odev, m, last', hlast', hserve, -, hfree, hm', hlengths⟩ :=
      Legacy.serve_stop hwt hk' h.free (hc.status ▸ hst) hop
    obtain ⟨last, hlast, hsame, hearlier⟩ := forall₂_getLast hc.sets hlast'
    rw [Counter.stop, if_pos hst, Device.stopCounter, hdev, Outcome.done_bind, hsizes,
      Outcome.done_bind, hlast, Outcome.ofOption, Outcome.done_bind] at hd
    refine ⟨_, serve_eq hd, ?_⟩
    rw [hserve]
    dsimp only at hm hget
    rw [hc.lines] at hm hget
    have hdev' : SameDevice dev odev :=
      h.device.walked hm hm' fun ln oln hsame => hsame.deactivate
    have hoffsets : SameOffsets old.lines sizes m := by
      refine sameOffsets hdev' (fun l ln hl => ?_) ?_ hget hlengths
      · obtain ⟨ln₀, h₀, rfl⟩ := hm.line hl
        have hlt := hfit l ln₀ h₀
        split_ifs
        · simpa using hlt
        · exact hlt
      · intro l hl
        obtain ⟨ln, hln⟩ := hw.has hk l (hc.lines ▸ hl)
        exact ⟨_, by rw [hm.lines, hln]; rfl⟩
    have hc' : SameCounter
        { c with status := .inactive, sets := c.sets.dropLast ++ [(last.1, some sizes)] }
        { old with status := .inactive, sets := old.sets.dropLast ++ [(last'.1, some m)] } :=
      ⟨hc.registered, hc.running, hc.aggregate, hc.interval, rfl, hc.lines, hc.selected,
        List.rel_append hearlier (.cons ⟨hsame.1, .some hoffsets⟩ .nil)⟩
    exact h.set hdev' hfree k (.replying _ _ _ _ hc' (.retval .success)) _

theorem step_get (hw : s.WellFormed) (hfit : s.BuffersFit) (h : InStep s t)
    (hk : s.sessions[k]? = some ⟨c, .serving⟩) (hc : SameCounter c old)
    (hop : Operation.ofInt n = some .get) (hi : old.interval = 1)
    (hget : (old.get (oldLines t.dev)).Returns) {r : Recorder (ℕ → V)}
    (htracked : c.status = .inactive → ∃ ended, Tracks c s.dev r ended none) :
    ∃ s', s.serve k c n = .done s' ∧ InStep s' (t.serve k old n) := by
  have hd : c.dispatch s.dev n = c.get s.dev := by simp [Counter.dispatch, hop]
  obtain ⟨reply, hreply⟩ := hget
  have hserve := Legacy.serve_get (s := t) (k := k) (c := old) hop
  simp only [show old.get (t.dev.lines.map fun _ ln => ln.powerData) = _ from hreply] at hserve
  rw [hserve]
  cases hst : c.status with
  | active =>
    rw [Counter.get, if_neg (by simp [hst])] at hd
    refine ⟨_, serve_eq hd, ?_⟩
    have hrefused : reply = .retval .error := by
      rw [Legacy.Counter.get, if_neg (by simp [← hc.status, hst])] at hreply
      exact (Outcome.done.inj hreply).symm
    subst hrefused
    exact h.set h.device h.free k (.replying c old _ _ hc (.retval .error)) _
  | inactive =>
    obtain ⟨ended, htracks⟩ := htracked hst
    have hone : c.interval = 1 := hc.interval.trans hi
    have hdata := Counter.getData_eq Counter.plain_reads (hw.sessions k _ hk).nodup hone.ge
      htracks (hw.has hk) hfit
    have hholds := Counter.holds_of_tracks htracks (hw.has hk) hfit
    obtain ⟨e, rfl, hsame⟩ :=
      get_same h.device hc hc.selected hone hst htracks.sets hholds hreply
    rw [Counter.get, if_pos hst, hdata, Outcome.done_bind] at hd
    refine ⟨_, serve_eq hd, ?_⟩
    exact h.set h.device h.free k (.replying c old _ _ hc (.data _ _ _ hsame)) _

theorem step_leave (hw : s.WellFormed) (h : InStep s t) {ph : Phase V}
    (hk : s.sessions[k]? = some ⟨c, ph⟩) (hlive : ph.live = true) (hc : SameCounter c old)
    (hst : c.status = .inactive) {odev : Legacy.Device V} (hfree : odev.counterLock = false)
    (hm' : Legacy.Device.Mapped t.dev odev
      (fun l ln => if l ∈ old.lines then old.leaves ln else ln)) {ss : Legacy.Session V}
    {c' : Counter} (hsame : SameSession ⟨c', .destroyed⟩ ss) (hreg : c'.registered = true)
    (hid : c'.id = c.id) (hlines : c'.lines = c.lines) (main : Legacy.Main) :
    ∃ s', s.destroy k c' = .done s' ∧ InStep s' ⟨odev, t.sessions.set k ss, main⟩ := by
  have hok := hw.sessions k _ hk
  have hn : c'.lines.Nodup := hlines ▸ hok.nodup
  obtain ⟨dev, hdev⟩ := Device.deregisterCounter_done hn (hlines ▸ hw.has hk)
  have hmem : c'.id ∈ s.dev.counterMap := by
    rw [hid, hw.counterMap]
    exact ⟨k, _, hok.id, hk, by rw [Session.attached_eq (Phase.ne_destroyed hlive), hc.registered]⟩
  obtain ⟨-, hm⟩ := Device.deregisterCounter_spec hn hmem hdev
  refine ⟨⟨dev, s.sessions.set k ⟨c', .destroyed⟩⟩, ?_, ?_⟩
  · rw [Server.destroy, if_pos hreg, hdev, Outcome.done_bind]
  · rw [hlines, hc.lines] at hm
    refine h.set (h.device.walked hm hm' fun ln oln hln => ?_) hfree k hsame main
    rw [Legacy.Counter.leaves, if_neg (by simp [← hc.status, hst])]
    exact hln.release

theorem step_finalize (hw : s.WellFormed) (hwt : t.WellFormed) (h : InStep s t)
    (hk : s.sessions[k]? = some ⟨c, .serving⟩) (hk' : t.sessions[k]? = some ⟨old, true, .serving⟩)
    (hc : SameCounter c old) (hop : Operation.ofInt n = some .finalize)
    (hst : c.status = .inactive) :
    ∃ s', Trace.exec Server.next s [.receive k (some n), .send k true] = .done s' ∧
      InStep s' (t.serve k old n) := by
  have hd : c.dispatch s.dev n =
      .done ({ c with running := false }, s.dev, .retval .success) := by
    simp [Counter.dispatch, hop, Counter.finalize, hst]
  obtain ⟨odev, hserve, -, hfree, hm'⟩ := Legacy.serve_finalize hwt hk' h.free hop
  obtain ⟨s', hs', hin⟩ := step_leave hw h hk rfl hc hst hfree hm'
    (.finalized { c with running := false } old) hc.registered rfl rfl t.main
  refine ⟨s', ?_, by rwa [hserve]⟩
  rw [Trace.exec_cons]
  refine ⟨_, (next_receive hk n).trans (serve_eq hd), ?_⟩
  have hlt : k < s.sessions.length := (List.getElem?_eq_some_iff.mp hk).1
  rw [Trace.exec_singleton, ← hs']
  simp [Server.next, Server.destroy, hlt]

theorem step_close (hw : s.WellFormed) (hwt : t.WellFormed) (h : InStep s t)
    (hk : s.sessions[k]? = some ⟨c, .serving⟩) (hk' : t.sessions[k]? = some ⟨old, true, .serving⟩)
    (hc : SameCounter c old) (hst : c.status = .inactive) :
    ∃ s', Trace.exec Server.next s [.receive k none, .send k true] = .done s' ∧
      InStep s' (t.close k old) := by
  obtain ⟨odev, hclose, -, hfree, hm'⟩ := Legacy.close_left hwt hk' h.free
  obtain ⟨s', hs', hin⟩ := step_leave hw h hk rfl hc hst hfree hm' (.left c old)
    hc.registered rfl rfl t.main
  refine ⟨s', ?_, by rwa [hclose]⟩
  have hlt : k < s.sessions.length := (List.getElem?_eq_some_iff.mp hk).1
  rw [Trace.exec_cons]
  refine ⟨s.setSession k ⟨c, .catching⟩, by simp [Server.next, hk], ?_⟩
  rw [Trace.exec_singleton, ← hs']
  simp [Server.next, Server.setSession, Server.destroy, hlt]

/-- A request that both constructors take. It names the device, a frequency that it has and one
of its lines at least. -/
def Takes (t : Legacy.Server V) (req : CreateRequest) : Prop :=
  req.deviceName ≠ [] ∧ req.deviceName = t.dev.name ∧
    (0 ≤ req.frequency ∧ req.frequency ≤ t.dev.maxFrequency) ∧
    req.linesMask.length * 8 ≤ 2 ^ 31 ∧ selectedLines t.dev.lines.size req.linesMask ≠ []

instance (t : Legacy.Server V) (req : CreateRequest) : Decidable (Takes t req) :=
  inferInstanceAs (Decidable (_ ∧ _))

theorem step_create (hw : s.WellFormed) (hwt : t.WellFormed) (h : InStep s t)
    (hpos : 0 < t.dev.maxFrequency) (hmax : t.dev.maxFrequency < 2 ^ 23) {req : CreateRequest}
    (hreq : Takes t req) :
    ∃ s', s.construct (some req) = .done s' ∧ InStep s' (t.construct (.whole req)) := by
  obtain ⟨hnamed, hname, ⟨hlow, hhigh⟩, hlen, hselects⟩ := hreq
  obtain ⟨interval, -, hfreq, hfreq'⟩ := setFrequency_same hpos hmax hlow hhigh
  obtain ⟨hlines, hlines'⟩ := setLines_same hlen hselects
  have hmask : req.linesMask ≠ [] := by
    intro hempty
    have hnone : selectedLines t.dev.lines.size req.linesMask = [] := by
      simp [hempty, selectedLines, selects, testMask]
    exact hselects hnone
  rw [← h.device.maxFrequency] at hfreq
  rw [← h.device.nLines] at hlines
  obtain ⟨c, dev, hdone, hagg, hinterval, hsel⟩ := Counter.construct_done
    (s.sessions.length + 1) req s.dev (hname.trans h.device.name.symm) hfreq hlines
    (hw.complete.has (Counter.setLines_sorted hlines).2)
  obtain ⟨⟨-, hrun, hst, hsets, hregistered⟩, -, -, -, -, hm⟩ := Counter.construct_spec hdone
  obtain ⟨odev, hrequest, -, hfree, hm'⟩ := Legacy.Counter.request_run
    h.free t.sessions.length hwt.complete hmask hfreq' hlines'
  have hinit := (Legacy.Counter.init_whole hnamed hname).trans hrequest
  rw [h.device.nLines] at hsel
  have hc : SameCounter c ⟨.inactive, req.aggregate, interval,
      selectedLines t.dev.lines.size req.linesMask, []⟩ :=
    ⟨hregistered, hrun, hagg, hinterval, hst, hsel, hselects, by rw [hsets]; exact .nil⟩
  rw [hsel] at hm
  refine ⟨⟨dev, s.sessions ++ [⟨c, .replying (.retval .success)⟩]⟩, ?_, ?_⟩
  · simp only [Server.construct, hdone]
  · rw [Legacy.Server.construct, hinit]
    exact h.join (h.device.walked hm hm' fun ln oln hln => hln.enable) hfree (.created c _ hc) _

theorem step_send (h : InStep s t) {ss : Legacy.Session V} (hk : t.sessions[k]? = some ss)
    {u : Legacy.Server V} (hu : t.next (.send k true) = .done u) :
    ∃ s', Trace.exec Server.next s (if ss.running then [.send k true] else []) = .done s' ∧
      InStep s' u := by
  have hrel := h.sessions k
  rw [hk] at hrel
  generalize hx : s.sessions[k]? = x at hrel
  cases hrel with
  | some hsame =>
    cases hsame with
    | created c old hc =>
      simp only [Legacy.Server.next, hk, if_true] at hu
      obtain rfl := Outcome.done.inj hu
      refine ⟨s.setSession k ⟨c, .serving⟩, ?_, h.set h.device h.free k (.serving c old hc) _⟩
      simp [Server.next, hx, hc.running]
    | serving c old hc => simp [Legacy.Server.next, hk] at hu
    | replying c old r r' hc hanswer =>
      simp only [Legacy.Server.next, hk, if_true] at hu
      obtain rfl := Outcome.done.inj hu
      refine ⟨s.setSession k ⟨c, .serving⟩, ?_, h.set h.device h.free k (.serving c old hc) _⟩
      simp [Server.next, hx, hc.running]
    | finalized c old =>
      simp only [Legacy.Server.next, hk] at hu
      obtain rfl := Outcome.done.inj hu
      refine ⟨s, rfl, ?_⟩
      have hset := h.set h.device h.free k (.left c old) t.main
      obtain ⟨_, hget⟩ := List.getElem?_eq_some_iff.mp hx
      rwa [← hget, List.set_getElem_self] at hset
    | left c old => simp [Legacy.Server.next, hk] at hu

/-- A message in the order of the protocol. A GET comes at the native frequency of the device, and
a client leaves after STOP. -/
def orderlyMessage (t : Legacy.Server V) (old : Legacy.Counter) : Legacy.Message → Bool
  | .op n =>
    match Operation.ofInt n with
    | some .start | some .continue_ | some .stop => true
    | some .get => old.interval = 1 && (old.get (oldLines t.dev)).check fun _ => true
    | some .finalize => old.status = .inactive
    | _ => false
  | .closed => old.status = .inactive
  | .reset | .short => false

def orderly (t : Legacy.Server V) : Legacy.Event V → Bool
  | .sample _ => true
  | .connection op incoming => Operation.ofInt op ≠ some .create ||
    match incoming with
    | .whole req => Takes t req
    | _ => false
  | .receive k m => t.sessions[k]?.all fun ss => orderlyMessage t ss.counter m
  | .send _ ok => ok

def short (t : Legacy.Server V) : Bool :=
  t.dev.lines.toList.all fun line => line.2.powerData.samples.length < 2 ^ 31

/-- What an event at the legacy server is at the server. A client that leaves is removed there with
the send that follows; the legacy server has removed it by then. -/
def view (t : Legacy.Server V) : Legacy.Event V → List (Event V)
  | .sample x => [.sample x]
  | .connection op incoming =>
    match incoming with
    | .whole req => [.connection op (some req)]
    | _ => [.connection op none]
  | .receive k (.op n) =>
    if Operation.ofInt n = some .finalize then [.receive k (some n), .send k true]
    else [.receive k (some n)]
  | .receive k _ => [.receive k none, .send k true]
  | .send k ok => if (t.sessions[k]?.any fun ss => ss.running) then [.send k ok] else []

theorem InStep.buffersFit (h : InStep s t) (hshort : short t = true) : s.BuffersFit := by
  intro l ln hl
  obtain ⟨oln, hold, hsame⟩ := h.device.line hl
  have hfit := List.all_eq_true.mp hshort (l, oln)
    (Std.TreeMap.mem_toList_iff_getElem?_eq_some.mpr hold)
  rw [hsame.data]
  simpa using hfit

/-- The turn of a session that serves. -/
theorem step_receive (hw : s.WellFormed) (hwt : t.WellFormed) (hfit : s.BuffersFit)
    (h : InStep s t) (hk : s.sessions[k]? = some ⟨c, .serving⟩)
    (hk' : t.sessions[k]? = some ⟨old, true, .serving⟩) (hc : SameCounter c old)
    (horder : orderlyMessage t old (.op n) = true) {r : Recorder (ℕ → V)}
    (htracked : c.status = .inactive → ∃ ended, Tracks c s.dev r ended none) :
    ∃ s', Trace.exec Server.next s (view t (.receive k (.op n))) = .done s' ∧
      InStep s' (t.serve k old n) := by
  have hone : ∀ {s'}, Operation.ofInt n ≠ some .finalize → s.serve k c n = .done s' →
      Trace.exec Server.next s (view t (.receive k (.op n))) = .done s' := by
    intro s' hstay hs'
    rw [view, if_neg hstay, Trace.exec_singleton, next_receive hk, hs']
  cases hop : Operation.ofInt n with
  | none => simp [orderlyMessage, hop] at horder
  | some op =>
    simp only [orderlyMessage, hop] at horder
    cases op with
    | start =>
      obtain ⟨s', hs', hin⟩ := step_open hw hwt hfit h hk hk' hc .nil
        (by simp [Counter.dispatch, hop, Counter.start]) (Legacy.opens_start hop)
      exact ⟨s', hone (by simp [hop]) hs', hin⟩
    | continue_ =>
      obtain ⟨s', hs', hin⟩ := step_open hw hwt hfit h hk hk' hc hc.sets
        (by simp [Counter.dispatch, hop, Counter.restart]) (Legacy.opens_continue hop)
      exact ⟨s', hone (by simp [hop]) hs', hin⟩
    | stop =>
      obtain ⟨s', hs', hin⟩ := step_stop hw hwt hfit h hk hk' hc hop
      exact ⟨s', hone (by simp [hop]) hs', hin⟩
    | get =>
      rw [Bool.and_eq_true, decide_eq_true_eq, Outcome.check_eq_true] at horder
      obtain ⟨hi, reply, hreply, -⟩ := horder
      obtain ⟨s', hs', hin⟩ := step_get hw hfit h hk hc hop hi ⟨reply, hreply⟩ htracked
      exact ⟨s', hone (by simp [hop]) hs', hin⟩
    | finalize =>
      have hst : c.status = .inactive := hc.status.trans (of_decide_eq_true horder)
      rw [view, if_pos hop]
      exact step_finalize hw hwt h hk hk' hc hop hst
    | create | infoDevice | listDevices | cmdStatus | readDevice => cases horder

theorem step (hw : s.WellFormed) (hwt : t.WellFormed) (h : InStep s t)
    (hpos : 0 < t.dev.maxFrequency) (hmax : t.dev.maxFrequency < 2 ^ 23)
    (htracked : ∀ (k : ℕ) c, s.sessions[k]? = some ⟨c, .serving⟩ → c.status = .inactive →
      ∃ (r : Recorder (ℕ → V)) (ended : List (SetT × SetT)), Tracks c s.dev r ended none)
    {e : Legacy.Event V} (horder : orderly t e = true) (hshort : short t = true)
    {u : Legacy.Server V} (hu : t.next e = .done u) :
    ∃ s', Trace.exec Server.next s (view t e) = .done s' ∧ InStep s' u := by
  have hfit := h.buffersFit hshort
  cases e with
  | sample x =>
    simp only [Legacy.Server.next] at hu
    split_ifs at hu with hroom
    obtain rfl := Outcome.done.inj hu
    exact ⟨_, rfl, step_sample h hroom x⟩
  | connection op incoming =>
    simp only [Legacy.Server.next] at hu
    split_ifs at hu with hmain hop
    · obtain rfl := Outcome.done.inj hu
      simp only [orderly, hop, ne_eq, not_true_eq_false, decide_false, Bool.false_or] at horder
      cases incoming with
      | whole req =>
        obtain ⟨s', hs', hin⟩ := step_create hw hwt h hpos hmax (of_decide_eq_true horder)
        exact ⟨s', by simp [view, Server.next, hop, hs'], hin⟩
      | closed | reset | short => simp at horder
    · obtain rfl := Outcome.done.inj hu
      refine ⟨s, ?_, h⟩
      cases incoming <;> simp [view, Server.next, hop]
  | receive k m =>
    simp only [Legacy.Server.next] at hu
    split at hu
    case h_2 => simp at hu
    rename_i old running hk'
    obtain rfl : running = true := (hwt.sessions k _ hk').running (.inl rfl)
    obtain ⟨c, hk, hc⟩ := h.serving hk'
    obtain rfl := Outcome.done.inj hu
    simp only [orderly, hk', Option.all_some] at horder
    cases m with
    | op n =>
      by_cases hst : c.status = .inactive
      · obtain ⟨r, ended, htracks⟩ := htracked k c hk hst
        exact step_receive hw hwt hfit h hk hk' hc horder fun _ => ⟨ended, htracks⟩
      · exact step_receive (r := .empty) hw hwt hfit h hk hk' hc horder fun h => absurd h hst
    | closed =>
      exact step_close hw hwt h hk hk' hc (hc.status.trans (of_decide_eq_true horder))
    | reset | short => cases horder
  | send k ok =>
    obtain rfl : ok = true := horder
    cases hk : t.sessions[k]? with
    | none => simp [Legacy.Server.next, hk] at hu
    | some ss =>
      have hsend := step_send h hk hu
      simpa only [view, hk, Option.any_some] using hsend

theorem configured_inStep (name : Name) (maxFrequency : ℤ) (nLines : ℕ) :
    InStep (V := V) (.configured name maxFrequency nLines)
      (.configured name maxFrequency nLines) where
  device := by
    obtain ⟨hsize, hlines⟩ := Legacy.Server.configured_dev (V := V) name maxFrequency nLines
    refine ⟨rfl, rfl, hsize.symm, fun l => ?_⟩
    rw [Server.configured_lines, hlines]
    split_ifs
    · exact .some ⟨rfl, rfl, rfl⟩
    · exact .none
  free := rfl
  sessions k := .none

variable {name : Name} {maxFrequency : ℤ} {nLines : ℕ} {es : List (Legacy.Event V)}

/-- As long as its clients keep to the protocol, whatever the legacy server does with the device,
its counters and their recordings, and whatever it answers, the server does and answers when the
same comes in. -/
theorem in_step (hpos : 0 < maxFrequency) (hmax : maxFrequency < 2 ^ 23)
    (h : Trace.exec Legacy.Server.next (.configured name maxFrequency nLines) es = .done t)
    (hok : Trace.AlwaysStep Legacy.Server.next (.configured name maxFrequency nLines) es
      fun t e => orderly t e = true ∧ short t = true) :
    ∃ s, Trace.exec Server.next (.configured name maxFrequency nLines)
      (Simulation.viewed Legacy.Server.next view (.configured name maxFrequency nLines) es) =
        .done s ∧ InStep s t := by
  have hall : t.dev.maxFrequency = maxFrequency ∧ ∃ s, Trace.exec Server.next
      (.configured name maxFrequency nLines) (Simulation.viewed Legacy.Server.next view
        (.configured name maxFrequency nLines) es) = .done s ∧ InStep s t := by
    refine Trace.exec_invariant_of_alwaysStep Legacy.Server.next
      (I := fun es t => t.dev.maxFrequency = maxFrequency ∧ ∃ s, Trace.exec Server.next
        (.configured name maxFrequency nLines) (Simulation.viewed Legacy.Server.next view
          (.configured name maxFrequency nLines) es) = .done s ∧ InStep s t)
      ⟨rfl, _, rfl, configured_inStep name maxFrequency nLines⟩ ?_ hok h
    rintro pre t e u ht ⟨hfreq, s, hs, hin⟩ ⟨horder, hshort⟩ hu
    let ρ : Run V := ⟨_, _, s, Server.configured_initial name maxFrequency nLines, hs⟩
    have hwt := Legacy.Server.exec_wellFormed
      (Legacy.Server.configured_wellFormed name maxFrequency nLines) ht
    obtain ⟨s', hs', hin'⟩ := step (ρ.follows hs).1 hwt hin (hfreq ▸ hpos) (hfreq ▸ hmax)
      (fun k c hk hst => ⟨_, ρ.tracks_of_serving hs hk hst⟩) horder hshort hu
    refine ⟨(Legacy.next_change hwt hu).maxFrequency.trans hfreq, s', ?_, hin'⟩
    rw [Simulation.viewed_snoc ht]
    exact (Trace.exec_append_eq_done Server.next).mpr ⟨s, hs, hs'⟩
  exact hall.2

end steps

def twoSets : List (Legacy.Event ℤ) :=
  [.connection 0 (.whole ⟨ascii "d", 0, false, [3#8]⟩), .send 0 true, .receive 0 (.op 1),
    .send 0 true, .sample fun l => l + 1, .receive 0 (.op 3), .send 0 true, .receive 0 (.op 2),
    .send 0 true, .sample fun l => l + 5, .receive 0 (.op 3), .send 0 true, .receive 0 (.op 4)]

theorem in_step_twoSets : ∃ (s : Server ℤ) (t : Legacy.Server ℤ) (r : GetReply ℤ),
    Trace.exec Legacy.Server.next (.configured (ascii "d") 1 2) twoSets = .done t ∧
      (t.sessions[0]?.any fun ss => ss.phase = .replying (.data r)) = true ∧
      r.watts = [1, 5, 2, 6] ∧ InStep s t := by
  have hrun : (Trace.exec Legacy.Server.next (.configured (ascii "d") 1 2) twoSets).check
      (fun t => t.sessions[0]?.any fun ss => ss.phase = .replying
        (.data ⟨4, 3, 2, [0, 1, 2], [1, 5, 2, 6]⟩)) = true := by
    decide +kernel
  have hok : Trace.obeys Legacy.Server.next (fun t e => orderly t e = true ∧ short t = true)
      (.configured (ascii "d") 1 2) twoSets = true := by
    decide +kernel
  obtain ⟨t, ht, hreply⟩ := Outcome.check_eq_true.mp hrun
  obtain ⟨s, -, hin⟩ := in_step (by norm_num) (by norm_num) ht
    (Trace.alwaysStep_of_obeys Legacy.Server.next hok)
  exact ⟨s, t, _, ht, hreply, rfl, hin⟩

end Port

end PMLib
