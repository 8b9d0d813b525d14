import PMLib.Legacy
import PMLib.Lib.Trailer
import Mathlib.Data.List.GetD

/-! # The DC2 reader

The meter sends eight or ten bits for each of its active lines, its time if it is told to, and two
marks. The legacy driver asks for the configuration, looks for two marks and unpacks from there. -/
namespace PMLib.Legacy.DC2

/-- What fills the six low bits of a conversion. -/
def relleno : ℤ := 21

def marca : Byte := 170#8

/-! ## The configuration -/

def has (b : Byte) (bit : ℕ) : Bool := b.toNat &&& bit == bit

def bits : List ℕ :=
  [1, 128, 64, 32, 16, 8, 4, 2, 1, 128, 64, 32, 16, 8, 4, 2, 1, 128, 64, 32, 16, 8, 4, 2, 1]

structure Config where
  nLines : ℕ
  tenBits : Bool
  tamTime : ℕ
  active : 0 < nLines
  deriving DecidableEq, Repr

abbrev Datos := Fin 4 → Byte

def Datos.nLines (datos : Datos) : ℕ :=
  (List.range 25).countP fun i => has (datos ⟨3 - (24 - i) / 8, by omega⟩) (bits.getD i 0)

def Datos.tamTime (datos : Datos) : ℕ := [64, 32, 16, 8].countP (has (datos 0))

/-- Without an active line the driver does not get to its sampling loop. -/
def Datos.config (datos : Datos) : Option Config :=
  if h : 0 < datos.nLines then some ⟨datos.nLines, has (datos 0) 128, datos.tamTime, h⟩ else none

namespace Config

variable (c : Config)

def tamData : ℕ := if c.tenBits then 2 else 1

def bodySize : ℕ := c.nLines * c.tamData + c.tamTime

def size : ℕ := c.nLines * c.tamData + c.tamTime + 2

def maxFrequency : ℕ := 1000000 / (90 * c.size)

end Config

/-! ## Unpacking -/

/-- `byte1 * 4 + (byte2 - RELLENO) / 64`, which rounds down. -/
def ten (byte1 byte2 : Byte) : ℤ := byte1.toNat * 4 + (byte2.toNat - relleno) / 64

def eight (dato : Byte) : ℤ := dato.toNat * 4

section watts

variable {V : Type} [IntCast V] [OfScientific V] [OfNat V 12] [Mul V]

abbrev Voltages (V : Type) := ℕ → Option V

def powers (voltage : Voltages V) (vecDatos : List ℤ) : List V :=
  vecDatos.mapIdx fun i dato => (dato : V) * 0.03 * (voltage i).getD 12

end watts

/-! ## Reading -/

inductive Phase where
  | ignoring (k : ℕ)
  | searching (antMarca : Bool)
  | high
  | low (byte1 : Byte)
  | time (k : ℕ)
  | firstMark
  | secondMark (encontrado : Bool)
  deriving DecidableEq, Repr

structure Reader (V : Type) where
  phase : Phase
  vecDatos : List ℤ
  cont : ℕ
  yielded : List (List V)
  deriving DecidableEq, Repr

namespace Reader

variable {V : Type} (c : Config) (voltage : Voltages V)

def timing (k : ℕ) : Phase := if k = 0 then .firstMark else .time k

def store (r : Reader V) (dato : ℤ) : Reader V :=
  let vecDatos := r.vecDatos.set r.cont dato
  if r.cont + 1 = c.nLines then { r with phase := timing c.tamTime, vecDatos, cont := 0 }
  else { r with phase := .high, vecDatos, cont := r.cont + 1 }

variable [IntCast V] [OfScientific V] [OfNat V 12] [Mul V]

def next (r : Reader V) (b : Byte) : Reader V :=
  match r.phase with
  | .ignoring k => { r with phase := if k ≤ 1 then .searching false else .ignoring (k - 1) }
  | .searching antMarca =>
    { r with phase := if b = marca then if antMarca then .high else .searching true
                      else .searching false }
  | .high => if c.tenBits then { r with phase := .low b } else r.store c (eight b)
  | .low byte1 => r.store c (ten byte1 b)
  | .time k => { r with phase := timing (k - 1) }
  | .firstMark => { r with phase := .secondMark (b == marca) }
  | .secondMark encontrado =>
    if encontrado && b == marca then
      { r with phase := .high, yielded := r.yielded ++ [powers voltage r.vecDatos] }
    else { r with phase := .searching (b == marca) }

end Reader

variable {V : Type}

/-- `read`, behind the configuration: the first cycle is ignored. -/
def start (c : Config) : Reader V :=
  ⟨.ignoring c.size, List.replicate c.nLines 0, 0, []⟩

def read [IntCast V] [OfScientific V] [OfNat V 12] [Mul V] (c : Config) (voltage : Voltages V)
    (port : List Byte) : Reader V :=
  port.foldl (Reader.next c voltage) (start c)

/-! ## The reader and the marks -/

section tracks

variable {c : Config} {voltage : Voltages V} {r : Reader V}

def mark (b : Byte) : Bool := b == marca

def Config.value (c : Config) (w : List Byte) (i : ℕ) : ℤ :=
  if c.tenBits then ten (w.getD (2 * i) 0) (w.getD (2 * i + 1) 0) else eight (w.getD i 0)

def Config.values (c : Config) (w : List Byte) : List ℤ := (List.range c.nLines).map (c.value w)

theorem value_append {w : List Byte} {i : ℕ} (h : (i + 1) * c.tamData ≤ w.length) (v : List Byte) :
    c.value (w ++ v) i = c.value w i := by
  unfold Config.value
  unfold Config.tamData at h
  split_ifs at h ⊢
  · rw [List.getD_append _ _ _ _ (by omega), List.getD_append _ _ _ _ (by omega)]
  · rw [List.getD_append _ _ _ _ (by omega)]

structure Unpacked (c : Config) (r : Reader V) (w : List Byte) (k : ℕ) : Prop where
  length : r.vecDatos.length = c.nLines
  values : ∀ i < k, r.vecDatos[i]? = some (c.value w i)

theorem Unpacked.append {w : List Byte} {k : ℕ} (h : Unpacked c r w k)
    (hk : k * c.tamData ≤ w.length) (v : List Byte) : Unpacked c r (w ++ v) k := by
  refine ⟨h.length, fun i hi => ?_⟩
  rw [h.values i hi, value_append ((Nat.mul_le_mul_right _ hi).trans hk)]

theorem Unpacked.vecDatos_eq {w : List Byte} (h : Unpacked c r w c.nLines) :
    r.vecDatos = c.values w := by
  apply List.ext_getElem?
  intro i
  by_cases hi : i < c.nLines
  · rw [h.values i hi, Config.values, List.getElem?_map, List.getElem?_range hi, Option.map_some]
  · rw [List.getElem?_eq_none (by rw [h.length]; omega),
      List.getElem?_eq_none (by simp [Config.values]; omega)]

inductive Tracks (c : Config) (r : Reader V) : Trailer.Reader Byte → Prop where
  | searching (seen : Bool) : r.phase = .searching seen → r.cont = 0 →
      r.vecDatos.length = c.nLines → Tracks c r (.seeking seen)
  | high (w : List Byte) : r.phase = .high → r.cont < c.nLines →
      w.length = r.cont * c.tamData → Unpacked c r w r.cont → Tracks c r (.taking w)
  | low (u : List Byte) (b : Byte) : r.phase = .low b → c.tenBits = true → r.cont < c.nLines →
      u.length = r.cont * c.tamData → Unpacked c r u r.cont → Tracks c r (.taking (u ++ [b]))
  | time (w : List Byte) (k : ℕ) : r.phase = .time k → 0 < k → r.cont = 0 →
      w.length + k = c.bodySize → c.nLines * c.tamData ≤ w.length → Unpacked c r w c.nLines →
      Tracks c r (.taking w)
  | firstMark (w : List Byte) : r.phase = .firstMark → r.cont = 0 → w.length = c.bodySize →
      Unpacked c r w c.nLines → Tracks c r (.taking w)
  | secondMark (w : List Byte) (b : Byte) : r.phase = .secondMark (mark b) → r.cont = 0 →
      w.length = c.bodySize → Unpacked c r w c.nLines → Tracks c r (.taking (w ++ [b]))

theorem le_bodySize (c : Config) : c.nLines * c.tamData ≤ c.bodySize := Nat.le_add_right _ _

theorem tracks_timing {w : List Byte} {k : ℕ} (hphase : r.phase = Reader.timing k)
    (hcont : r.cont = 0) (hlen : w.length + k = c.bodySize)
    (hdata : c.nLines * c.tamData ≤ w.length) (h : Unpacked c r w c.nLines) :
    Tracks c r (.taking w) := by
  unfold Reader.timing at hphase
  split_ifs at hphase with hk
  · exact .firstMark w hphase hcont (by omega) h
  · exact .time w k hphase (Nat.pos_of_ne_zero hk) hcont hlen hdata h

theorem tracks_store {w : List Byte} (hcont : r.cont < c.nLines)
    (hlen : w.length = (r.cont + 1) * c.tamData) (h : Unpacked c r w r.cont) :
    Tracks c (r.store c (c.value w r.cont)) (.taking w) := by
  have hset : ∀ i < r.cont + 1,
      (r.vecDatos.set r.cont (c.value w r.cont))[i]? = some (c.value w i) := by
    intro i hi
    rcases Nat.lt_succ_iff_lt_or_eq.mp hi with hlt | rfl
    · rw [List.getElem?_set_ne (Nat.ne_of_gt hlt), h.values i hlt]
    · rw [List.getElem?_set_self (by rw [h.length]; exact hcont)]
  unfold Reader.store
  dsimp only
  split_ifs with hlast
  · rw [hlast] at hset hlen
    exact tracks_timing rfl rfl (by rw [hlen]; rfl) hlen.ge ⟨by simpa using h.length, hset⟩
  · exact .high w rfl (by simp only; omega) hlen ⟨by simpa using h.length, hset⟩

theorem value_ten {u : List Byte} {i : ℕ} (hten : c.tenBits = true) (hu : u.length = i * c.tamData)
    (b₁ b₂ : Byte) : c.value (u ++ [b₁] ++ [b₂]) i = ten b₁ b₂ := by
  have hlen : u.length = 2 * i := by rw [hu, Config.tamData, if_pos hten, Nat.mul_comm]
  rw [Config.value, if_pos hten, ← hlen]
  simp

theorem value_eight {w : List Byte} {i : ℕ} (height : c.tenBits = false)
    (hw : w.length = i * c.tamData) (b : Byte) : c.value (w ++ [b]) i = eight b := by
  have hlen : w.length = i := by simpa [Config.tamData, height] using hw
  rw [Config.value, if_neg (by simp [height]), ← hlen]
  simp

theorem store_yielded (dato : ℤ) : (r.store c dato).yielded = r.yielded := by
  unfold Reader.store
  dsimp only
  split_ifs <;> rfl

variable [IntCast V] [OfScientific V] [OfNat V 12] [Mul V]

def Goes (c : Config) (voltage : Voltages V) (r : Reader V) (a : Trailer.Reader Byte) (b : Byte) :
    Prop :=
  Tracks c (r.next c voltage b) (a.next mark c.bodySize b).1 ∧
    (r.next c voltage b).yielded = r.yielded ++
      (a.next mark c.bodySize b).2.map fun w => powers voltage (c.values w)

theorem next_taking {w : List Byte} {b : Byte} (hlen : w.length ≤ c.bodySize)
    (h : Tracks c (r.next c voltage b) (.taking (w ++ [b])))
    (hyield : (r.next c voltage b).yielded = r.yielded) : Goes c voltage r (.taking w) b := by
  rw [Goes, Trailer.Reader.next, if_pos hlen]
  exact ⟨h, by simpa using hyield⟩

theorem next_searching {seen : Bool} (hphase : r.phase = .searching seen) (hcont : r.cont = 0)
    (hlen : r.vecDatos.length = c.nLines) (b : Byte) : Goes c voltage r (.seeking seen) b := by
  have hhigh : Tracks c { r with phase := .high } (.taking []) := by
    refine .high [] rfl (hcont.symm ▸ c.active) (by simp [hcont]) ⟨hlen, fun i hi => ?_⟩
    exact absurd hi (by simp [hcont])
  by_cases hb : b = marca
  · have hmark : mark b = true := beq_iff_eq.mpr hb
    cases seen with
    | false =>
      simp only [Goes, Reader.next, hphase, Trailer.Reader.next, hb, if_true, Bool.false_and,
        Bool.false_eq_true, if_false, List.map_nil, List.append_nil, and_true]
      exact .searching true rfl hcont hlen
    | true =>
      simp only [Goes, Reader.next, hphase, Trailer.Reader.next, hb, if_true,
        List.map_nil, List.append_nil, and_true]
      exact hhigh
  · have hmark : mark b = false := beq_eq_false_iff_ne.mpr hb
    simp only [Goes, Reader.next, hphase, Trailer.Reader.next, hmark, hb, if_false,
      Bool.and_false, Bool.false_eq_true, List.map_nil, List.append_nil, and_true]
    exact .searching false rfl hcont hlen

theorem next_secondMark {w : List Byte} {b₁ : Byte} (hphase : r.phase = .secondMark (mark b₁))
    (hcont : r.cont = 0) (hlen : w.length = c.bodySize) (h : Unpacked c r w c.nLines) (b : Byte) :
    Goes c voltage r (.taking (w ++ [b₁])) b := by
  have hlong : ¬ (w ++ [b₁]).length ≤ c.bodySize := by simp [hlen]
  have htake : (w ++ [b₁]).take c.bodySize = w := List.take_left' hlen
  have hnext : Trailer.Reader.next mark c.bodySize (.taking (w ++ [b₁])) b =
      if mark b₁ && mark b then (.taking [], [w]) else (.seeking (mark b), []) := by
    rw [Trailer.Reader.next, if_neg hlong, htake]
    simp
  have hstep : r.next c voltage b =
      if mark b₁ && mark b then
        { r with phase := .high, yielded := r.yielded ++ [powers voltage r.vecDatos] }
      else { r with phase := .searching (mark b) } := by
    simp only [Reader.next, hphase, mark]
    rfl
  rw [Goes, hnext, hstep]
  split_ifs
  · refine ⟨.high [] rfl ?_ (by simp [hcont]) ⟨h.length, fun i hi => ?_⟩, ?_⟩
    · exact hcont.symm ▸ c.active
    · exact absurd hi (by simp [hcont])
    · rw [h.vecDatos_eq, List.map_singleton]
  · exact ⟨.searching _ rfl hcont h.length, (List.append_nil _).symm⟩

theorem next_tracks {a : Trailer.Reader Byte} (h : Tracks c r a) (b : Byte) :
    Goes c voltage r a b := by
  have hbody := le_bodySize c
  cases h with
  | searching seen hphase hcont hlen => exact next_searching hphase hcont hlen b
  | high w hphase hcont hlen hun =>
    have hlt : (r.cont + 1) * c.tamData ≤ c.nLines * c.tamData := Nat.mul_le_mul_right _ hcont
    rw [Nat.succ_mul] at hlt
    cases hten : c.tenBits with
    | true =>
      have hnext : r.next c voltage b = { r with phase := .low b } := by
        simp [Reader.next, hphase, hten]
      apply next_taking (by omega) <;> rw [hnext]
      exact .low w b rfl hten hcont hlen ⟨hun.length, hun.values⟩
    | false =>
      have hone : c.tamData = 1 := by simp [Config.tamData, hten]
      have hnext : r.next c voltage b = r.store c (c.value (w ++ [b]) r.cont) := by
        simp [Reader.next, hphase, hten, value_eight hten hlen]
      apply next_taking (by omega) <;> rw [hnext]
      · apply tracks_store hcont _ (hun.append hlen.ge [b])
        rw [List.length_append, hlen, List.length_singleton, Nat.succ_mul, hone]
      · exact store_yielded _
  | low u b₁ hphase hten hcont hlen hun =>
    have hlt : (r.cont + 1) * c.tamData ≤ c.nLines * c.tamData := Nat.mul_le_mul_right _ hcont
    have htwo : c.tamData = 2 := by simp [Config.tamData, hten]
    rw [Nat.succ_mul] at hlt
    have hnext : r.next c voltage b = r.store c (c.value (u ++ [b₁] ++ [b]) r.cont) := by
      simp only [Reader.next, hphase, value_ten hten hlen]
    apply next_taking (by simp; omega) <;> rw [hnext]
    · rw [List.append_assoc]
      apply tracks_store hcont _ (hun.append hlen.ge _)
      rw [List.length_append, hlen, Nat.succ_mul, htwo]
      rfl
    · exact store_yielded _
  | time w k hphase hk hcont hlen hdata hun =>
    have hnext : r.next c voltage b = { r with phase := Reader.timing (k - 1) } := by
      simp [Reader.next, hphase]
    apply next_taking (by omega) <;> rw [hnext]
    have happ := hun.append hdata [b]
    exact tracks_timing rfl hcont (by simp; omega) (by simp; omega) ⟨happ.length, happ.values⟩
  | firstMark w hphase hcont hlen hun =>
    have hnext : r.next c voltage b = { r with phase := .secondMark (mark b) } := by
      simp only [Reader.next, hphase, mark]
    apply next_taking hlen.le <;> rw [hnext]
    exact .secondMark w b rfl hcont hlen ⟨hun.length, hun.values⟩
  | secondMark w b₁ hphase hcont hlen hun => exact next_secondMark hphase hcont hlen hun b

theorem foldl_tracks (voltage : Voltages V) {a : Trailer.Reader Byte} (h : Tracks c r a)
    (port : List Byte) :
    Tracks c (port.foldl (Reader.next c voltage) r) (a.run mark c.bodySize port).1 ∧
      (port.foldl (Reader.next c voltage) r).yielded = r.yielded ++
        (a.run mark c.bodySize port).2.map fun w => powers voltage (c.values w) := by
  induction port generalizing r a with
  | nil => exact ⟨h, (List.append_nil _).symm⟩
  | cons b port ih =>
    obtain ⟨hstep, hyield⟩ := next_tracks h b
    obtain ⟨hrun, hall⟩ := ih hstep
    refine ⟨hrun, ?_⟩
    rw [List.foldl_cons, hall, hyield, List.append_assoc, ← List.map_append]
    rfl

theorem foldl_ignoring {k : ℕ} (hphase : r.phase = .ignoring k) (hk : 0 < k) {port : List Byte}
    (hlen : port.length = k) :
    port.foldl (Reader.next c voltage) r = { r with phase := .searching false } := by
  induction port generalizing r k with
  | nil => exact absurd hlen hk.ne
  | cons b port ih =>
    rw [List.length_cons] at hlen
    rcases Nat.eq_zero_or_pos port.length with hzero | hpos
    · obtain rfl := List.eq_nil_of_length_eq_zero hzero
      simp [Reader.next, hphase, ← hlen]
    · have hstep : r.next c voltage b = { r with phase := .ignoring (k - 1) } := by
        simp only [Reader.next, hphase]
        rw [if_neg (by omega)]
      rw [List.foldl_cons, hstep, ih rfl (by omega) (by omega)]

/-- Behind the first cycle, the driver is a reader of frames. -/
theorem read_tracks (voltage : Voltages V) {port : List Byte} (h : c.size ≤ port.length) :
    ∃ a : Trailer.Reader Byte, a.Fits c.bodySize ∧ Tracks c (read c voltage port) a := by
  have hlen : (port.take c.size).length = c.size := by rw [List.length_take, Nat.min_eq_left h]
  have hfirst : (port.take c.size).foldl (Reader.next c voltage) (start c) =
      { start c with phase := .searching false } :=
    foldl_ignoring rfl (Nat.succ_pos _) hlen
  have htracks : Tracks c ({ start c with phase := .searching false } : Reader V)
      (.seeking false) := .searching false rfl rfl (by simp [start])
  refine ⟨_, Trailer.Reader.Fits.run (r := .seeking false) trivial mark (port.drop c.size), ?_⟩
  rw [read, ← List.take_append_drop c.size port, List.foldl_append, hfirst,
    List.drop_append_of_le_length hlen.ge, List.drop_of_length_le hlen.le, List.nil_append]
  exact (foldl_tracks voltage htracks _).1

/-- Whatever came before, the driver loses one frame at most, and yields what the others hold. -/
theorem frames_yielded (voltage : Voltages V) {g : List Byte} (hg : c.size ≤ g.length)
    {fs : List (Trailer.Frame mark c.bodySize)} (hne : fs ≠ []) (h : ∀ f ∈ fs, f.Apart) :
    ∃ k ≤ 1, (read c voltage (g ++ fs.flatMap Trailer.Frame.elements)).yielded =
      (read c voltage g).yielded ++ (fs.drop k).map fun f => powers voltage (c.values f.body) := by
  obtain ⟨a, hfit, htracks⟩ := read_tracks voltage hg
  obtain ⟨k, hk, hrun⟩ := Trailer.Reader.run_resync hfit h hne
  refine ⟨k, hk, ?_⟩
  have hall := (foldl_tracks voltage htracks (fs.flatMap Trailer.Frame.elements)).2
  rw [hrun, List.map_map] at hall
  rw [read, List.foldl_append]
  exact hall

end tracks

/-! ## Ten bits -/

def conversion (v : ℕ) : List Byte := [BitVec.ofNat 8 (v / 4), BitVec.ofNat 8 (v % 4 * 64 + 21)]

/-- What a meter of ten bits measures on its `n` lines at a time. -/
structure Cycle (n : ℕ) where
  values : List ℕ
  length : values.length = n
  lt : ∀ v ∈ values, v < 1024

namespace Cycle

variable {n : ℕ}

def sent (cy : Cycle n) : List Byte := cy.values.flatMap conversion ++ [marca, marca]

def Marked (cy : Cycle n) : Prop := ∃ v, cy.values.head? = some v ∧ v / 4 = 170

theorem any_head?_iff {cy : Cycle n} :
    cy.values.head?.any (fun v => v / 4 == 170) = true ↔ cy.Marked := by
  rw [Option.any_eq_true, Marked]
  simp only [beq_iff_eq]

instance (cy : Cycle n) : Decidable cy.Marked := decidable_of_iff _ any_head?_iff

end Cycle

theorem ten_conversion {v : ℕ} (hv : v < 1024) :
    ten (BitVec.ofNat 8 (v / 4)) (BitVec.ofNat 8 (v % 4 * 64 + 21)) = v := by
  simp only [ten, relleno, BitVec.toNat_ofNat]
  omega

theorem mark_high {v : ℕ} (hv : v < 1024) :
    mark (BitVec.ofNat 8 (v / 4)) = true ↔ v / 4 = 170 := by
  rw [mark, beq_iff_eq, ← BitVec.toNat_inj, BitVec.toNat_ofNat, marca]
  simp only [BitVec.toNat_ofNat]
  omega

theorem mark_low (v : ℕ) : mark (BitVec.ofNat 8 (v % 4 * 64 + 21)) = false := by
  rw [mark, beq_eq_false_iff_ne, ne_eq, ← BitVec.toNat_inj, BitVec.toNat_ofNat, marca]
  simp only [BitVec.toNat_ofNat]
  omega

/-- A low byte stands between any two that could be marks. -/
theorem quiet_conversions (vs : List ℕ) :
    (vs.flatMap conversion ++ [marca]).IsChain fun x y => (mark x && mark y) = false := by
  induction vs with
  | nil => exact List.isChain_singleton _
  | cons v vs ih =>
    rw [List.flatMap_cons, conversion, List.append_assoc, List.cons_append, List.cons_append,
      List.nil_append]
    refine .cons_cons (by rw [mark_low, Bool.and_false]) (ih.cons fun y _ => ?_)
    rw [mark_low, Bool.false_and]

theorem length_conversions (vs : List ℕ) : (vs.flatMap conversion).length = vs.length * 2 := by
  induction vs with
  | nil => rfl
  | cons v vs ih =>
    rw [List.flatMap_cons, List.length_append, ih, List.length_cons, Nat.succ_mul, Nat.add_comm]
    rfl

theorem getElem?_conversions {vs : List ℕ} {i v : ℕ} (h : vs[i]? = some v) (rest : List Byte) :
    (vs.flatMap conversion ++ rest)[2 * i]? = some (BitVec.ofNat 8 (v / 4)) ∧
      (vs.flatMap conversion ++ rest)[2 * i + 1]? = some (BitVec.ofNat 8 (v % 4 * 64 + 21)) := by
  induction vs generalizing i with
  | nil => simp at h
  | cons u vs ih =>
    cases i with
    | zero =>
      obtain rfl : u = v := by simpa using h
      simp [List.flatMap_cons, conversion]
    | succ i =>
      obtain ⟨hhigh, hlow⟩ := ih (by simpa using h)
      rw [List.flatMap_cons, conversion, List.append_assoc]
      exact ⟨hhigh, hlow⟩

section ten

variable {c : Config} (hten : c.tenBits = true) (htime : c.tamTime = 0)
include hten htime

theorem bodySize_ten : c.bodySize = c.nLines * 2 := by
  simp [Config.bodySize, Config.tamData, hten, htime]

def Cycle.frame (cy : Cycle c.nLines) : Trailer.Frame mark c.bodySize where
  body := cy.values.flatMap conversion
  first := marca
  second := marca
  length := by rw [length_conversions, cy.length, bodySize_ten hten htime]
  first_mark := rfl
  second_mark := rfl
  quiet := quiet_conversions cy.values

theorem elements_frame (cy : Cycle c.nLines) : (cy.frame hten htime).elements = cy.sent := rfl

theorem values_frame (cy : Cycle c.nLines) :
    c.values (cy.frame hten htime).body = cy.values.map fun v : ℕ => (v : ℤ) := by
  apply List.ext_getElem?
  intro i
  by_cases hi : i < c.nLines
  · obtain ⟨v, hv⟩ : ∃ v, cy.values[i]? = some v :=
      ⟨_, List.getElem?_eq_getElem (cy.length.symm ▸ hi)⟩
    obtain ⟨hhigh, hlow⟩ := getElem?_conversions hv []
    rw [List.append_nil] at hhigh hlow
    rw [Config.values, List.getElem?_map, List.getElem?_range hi, List.getElem?_map, hv,
      Option.map_some, Option.map_some, Config.value, if_pos hten, List.getD_eq_getElem?_getD,
      List.getD_eq_getElem?_getD]
    change some (ten ((cy.values.flatMap conversion)[2 * i]?.getD 0)
      ((cy.values.flatMap conversion)[2 * i + 1]?.getD 0)) = _
    rw [hhigh, hlow, Option.getD_some, Option.getD_some,
      ten_conversion (cy.lt v (List.mem_of_getElem? hv))]
  · rw [List.getElem?_eq_none (by simp [Config.values]; omega),
      List.getElem?_eq_none (by simp [cy.length]; omega)]

theorem head?_frame (cy : Cycle c.nLines) : ∃ v, cy.values.head? = some v ∧ v < 1024 ∧
    (cy.frame hten htime).elements.head? = some (BitVec.ofNat 8 (v / 4)) := by
  have hne : cy.values ≠ [] := by
    have hactive := c.active
    rw [← cy.length] at hactive
    exact List.ne_nil_of_length_pos hactive
  obtain ⟨v, vs, hvs⟩ := List.exists_cons_of_ne_nil hne
  refine ⟨v, by rw [hvs]; rfl, cy.lt v (by simp [hvs]), ?_⟩
  rw [elements_frame, Cycle.sent, hvs]
  rfl

theorem apart_frame {cy : Cycle c.nLines} (h : ¬ cy.Marked) : (cy.frame hten htime).Apart := by
  obtain ⟨v, hhead, hv, hframe⟩ := head?_frame hten htime cy
  intro x hx
  obtain rfl := Option.some.inj (hframe.symm.trans hx)
  exact Bool.eq_false_iff.mpr fun hmark => h ⟨v, hhead, (mark_high hv).mp hmark⟩

end ten

variable [IntCast V] [OfScientific V] [OfNat V 12] [Mul V] {c : Config} {voltage : Voltages V}

/-- In front of a meter of ten bits that does not send its time, the driver loses one cycle at
most, whatever it has read before, and yields the watts of all others: as long as the first line
does not measure what has a mark for its high bits. -/
theorem readings_yielded (hten : c.tenBits = true) (htime : c.tamTime = 0) {g : List Byte}
    (hg : c.size ≤ g.length) {cs : List (Cycle c.nLines)} (hne : cs ≠ [])
    (h : ∀ cy ∈ cs, ¬ cy.Marked) :
    ∃ k ≤ 1, (read c voltage (g ++ cs.flatMap Cycle.sent)).yielded = (read c voltage g).yielded ++
      (cs.drop k).map fun cy => powers voltage (cy.values.map fun v : ℕ => (v : ℤ)) := by
  have hapart : ∀ f ∈ cs.map fun cy => cy.frame hten htime, f.Apart := by
    intro f hf
    obtain ⟨cy, hcy, rfl⟩ := List.mem_map.mp hf
    exact apart_frame hten htime (h cy hcy)
  obtain ⟨k, hk, hall⟩ := frames_yielded voltage hg (List.map_eq_nil_iff.not.mpr hne) hapart
  refine ⟨k, hk, ?_⟩
  rw [List.flatMap_map, ← List.map_drop, List.map_map] at hall
  simpa only [elements_frame, Function.comp_def, values_frame] using hall

def twoLines : Config := ⟨2, true, 0, by decide⟩

example : Datos.config (fun k => [128, 0, 0, 3].getD k 0) = some twoLines := by decide

def cycle (v w : Fin 1024) : Cycle twoLines.nLines := ⟨[v, w], rfl, by simp⟩

theorem readings_yielded_twoLines : ∃ k ≤ 1,
    (read twoLines (V := ℚ) (fun _ => none) ([170, 0, 3, 170, 9, 21, 21] ++
      [cycle 100 200, cycle 1023 680].flatMap Cycle.sent)).yielded =
      (read twoLines (V := ℚ) (fun _ => none) [170, 0, 3, 170, 9, 21, 21]).yielded ++
        ([cycle 100 200, cycle 1023 680].drop k).map fun cy =>
          powers (fun _ => none) (cy.values.map fun v : ℕ => (v : ℤ)) :=
  readings_yielded rfl rfl (by decide) (List.cons_ne_nil _ _) (by decide)

end PMLib.Legacy.DC2
