import PMLib.Messages
import PMLib.Lib.Trace
import Mathlib.Data.Nat.Cast.Defs
import Mathlib.Data.List.TakeDrop

/-! # The NI reader

The acquisition host sends messages of 32 doubles over a socket, which hands them out in pieces.
The legacy driver puts the pieces together and yields the power of every seventh message. -/
namespace PMLib.Legacy.NI

def rLines : ℕ := 32

def dSize : ℕ := 8

variable {V : Type}

abbrev LinesAdjust (V : Type) := ℕ → V × V

def transf [Add V] [Mul V] (linesAdjust : LinesAdjust V) (v : V) (i : ℕ) : V :=
  (linesAdjust i).1 * v + (linesAdjust i).2

def voltages [Zero V] [OfNat V 12] (i : ℕ) : V := if i < 8 then 12 else 0

/-- `struct.unpack(self.r_lines * 'd', msg)` -/
def unpack (val : Double → V) (msg : List Byte) : List V :=
  (List.range rLines).map fun i => val (Double.ofBytes ((msg.drop (i * dSize)).take dSize))

def power [Zero V] [OfNat V 12] [Add V] [Mul V] (linesAdjust : LinesAdjust V)
    (received : List V) : V :=
  (List.range rLines).foldl
    (fun power i => power + transf linesAdjust (received.getD i 0) i * voltages i) 0

structure Reader (V : Type) where
  msg : List Byte
  count : ℕ
  yielded : List V
  deriving DecidableEq, Repr

namespace Reader

variable (value : List Byte → V)

def complete (r : Reader V) (msg : List Byte) : Reader V :=
  if r.count = 0 then ⟨[], 7 - 1, r.yielded ++ [value msg]⟩ else ⟨[], r.count - 1, r.yielded⟩

/-- `recv` has returned `w`, which is no more than was asked for. -/
def next (r : Reader V) (w : List Byte) : Outcome (Reader V) :=
  if (r.msg ++ w).length < rLines * dSize then .done { r with msg := r.msg ++ w }
  else if (r.msg ++ w).length = rLines * dSize then .done (r.complete value (r.msg ++ w))
  else .failed

end Reader

def read [Zero V] [OfNat V 12] [Add V] [Mul V] (val : Double → V) (linesAdjust : LinesAdjust V)
    (ws : List (List Byte)) : Outcome (Reader V) :=
  Trace.exec (Reader.next fun msg => power linesAdjust (unpack val msg)) ⟨[], 0, []⟩ ws

/-! ## Messages -/

def message (i : ℕ) (bs : List Byte) : List Byte :=
  (bs.drop (i * (rLines * dSize))).take (rLines * dSize)

theorem message_append {i : ℕ} {bs : List Byte} (h : (i + 1) * (rLines * dSize) ≤ bs.length)
    (w : List Byte) : message i (bs ++ w) = message i bs := by
  rw [Nat.succ_mul] at h
  rw [message, message, List.drop_append_of_le_length (by omega), List.take_append_of_le_length]
  rw [List.length_drop]
  omega

structure Tracks (value : List Byte → V) (bs : List Byte) (r : Reader V) : Prop where
  msg : r.msg = bs.drop (bs.length / (rLines * dSize) * (rLines * dSize))
  count : (r.count + bs.length / (rLines * dSize)) % 7 = 0
  bound : r.count < 7
  yielded : r.yielded = (List.range ((bs.length / (rLines * dSize) + 6) / 7)).map fun j =>
    value (message (7 * j) bs)

theorem messages_append (value : List Byte → V) (bs w : List Byte) :
    (List.range ((bs.length / (rLines * dSize) + 6) / 7)).map
        (fun j => value (message (7 * j) (bs ++ w))) =
      (List.range ((bs.length / (rLines * dSize) + 6) / 7)).map fun j =>
        value (message (7 * j) bs) := by
  apply List.map_congr_left
  intro j hj
  rw [List.mem_range] at hj
  rw [message_append]
  calc (7 * j + 1) * (rLines * dSize)
    _ ≤ bs.length / (rLines * dSize) * (rLines * dSize) := Nat.mul_le_mul_right _ (by omega)
    _ ≤ bs.length := Nat.div_mul_le_self _ _

theorem next_tracks {value : List Byte → V} {bs w : List Byte} {r r' : Reader V}
    (h : Tracks value bs r) (hn : r.next value w = .done r') : Tracks value (bs ++ w) r' := by
  have hmsg : r.msg ++ w =
      (bs ++ w).drop (bs.length / (rLines * dSize) * (rLines * dSize)) := by
    rw [h.msg, List.drop_append_of_le_length (Nat.div_mul_le_self _ _)]
  have hlen : (r.msg ++ w).length = bs.length % (rLines * dSize) + w.length := by
    rw [List.length_append, h.msg, List.length_drop]
    simp only [rLines, dSize]
    omega
  have hcount := h.count
  have hbound := h.bound
  unfold Reader.next at hn
  split_ifs at hn with hshort hfull
  · obtain rfl := Outcome.done.inj hn
    have hsame : (bs ++ w).length / (rLines * dSize) = bs.length / (rLines * dSize) := by
      rw [List.length_append]
      simp only [rLines, dSize] at hlen hshort ⊢
      omega
    constructor
    · rw [hsame]
      exact hmsg
    · rwa [hsame]
    · exact hbound
    · rw [hsame, messages_append]
      exact h.yielded
  · obtain rfl := Outcome.done.inj hn
    have hnext : (bs ++ w).length / (rLines * dSize) = bs.length / (rLines * dSize) + 1 := by
      rw [List.length_append]
      simp only [rLines, dSize] at hlen hfull ⊢
      omega
    have hempty : [] = (bs ++ w).drop
        ((bs ++ w).length / (rLines * dSize) * (rLines * dSize)) := by
      rw [List.drop_of_length_le]
      rw [hnext, List.length_append]
      simp only [rLines, dSize] at hlen hfull ⊢
      omega
    have hlast : message (bs.length / (rLines * dSize)) (bs ++ w) = r.msg ++ w := by
      rw [message, ← hmsg, List.take_of_length_le hfull.le]
    have hold := messages_append value bs w
    rw [← h.yielded] at hold
    unfold Reader.complete
    split_ifs with hzero
    · rw [hzero, Nat.zero_add] at hcount
      refine ⟨hempty, by rw [hnext]; simp only; omega, by simp only; omega, ?_⟩
      have hmore : (bs.length / (rLines * dSize) + 1 + 6) / 7 =
          (bs.length / (rLines * dSize) + 6) / 7 + 1 := by omega
      have hindex : 7 * ((bs.length / (rLines * dSize) + 6) / 7) =
          bs.length / (rLines * dSize) := by omega
      rw [hnext, hmore, List.range_succ, List.map_append, hold, List.map_singleton, hindex, hlast]
    · refine ⟨hempty, by rw [hnext]; simp only; omega, by simp only; omega, ?_⟩
      have hsame : (bs.length / (rLines * dSize) + 1 + 6) / 7 =
          (bs.length / (rLines * dSize) + 6) / 7 := by omega
      rw [hnext, hsame, hold]

/-- Whatever the pieces are, every seventh message is yielded, the first one included. -/
theorem every_seventh [Zero V] [OfNat V 12] [Add V] [Mul V] {val : Double → V}
    {linesAdjust : LinesAdjust V} {ws : List (List Byte)} {r : Reader V}
    (h : read val linesAdjust ws = .done r) :
    r.yielded = (List.range ((ws.flatten.length / (rLines * dSize) + 6) / 7)).map (fun j =>
        power linesAdjust (unpack val (message (7 * j) ws.flatten))) ∧
      r.msg = ws.flatten.drop (ws.flatten.length / (rLines * dSize) * (rLines * dSize)) := by
  have htracks : Tracks (fun msg => power linesAdjust (unpack val msg)) ws.flatten r := by
    refine Trace.exec_invariant _ (fun ws r =>
      Tracks (fun msg => power linesAdjust (unpack val msg)) ws.flatten r) ?_ ?_ h
    · exact ⟨rfl, rfl, Nat.succ_pos 6, rfl⟩
    · intro ws t w u _ ht hn
      rw [List.flatten_concat]
      exact next_tracks ht hn
  exact ⟨htracks.yielded, htracks.msg⟩

def pieces : List (List Byte) :=
  [List.replicate 100 0, List.replicate 156 0, List.replicate 256 1, List.replicate 5 0]

theorem every_seventh_pieces : ∃ r,
    read (fun x => (x.image.toNat : ℕ)) (fun _ => (1, 2)) pieces = .done r ∧
      r.yielded = [192] ∧ r.msg = List.replicate 5 0 := by
  have hrun : (read (fun x => (x.image.toNat : ℕ)) (fun _ => (1, 2)) pieces).check
    (fun r => r.count == 5) = true := by decide +kernel
  obtain ⟨r, h, -⟩ := Outcome.check_eq_true.mp hrun
  obtain ⟨hyielded, hmsg⟩ := every_seventh h
  exact ⟨r, h, hyielded.trans (by decide +kernel), hmsg.trans (by decide +kernel)⟩

end PMLib.Legacy.NI
