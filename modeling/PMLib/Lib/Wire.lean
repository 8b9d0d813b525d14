import PMLib.Lib.Outcome
import PMLib.Lib.Int32
import Mathlib.Data.List.Forall2

/-! # Messages on a byte stream

A receiver takes bytes off the front of what is still to come. `Reads` says that it gives a
value on a message and stops where the message stops, whatever follows. -/
namespace Wire

open Int32Conv

abbrev Bytes := List (BitVec 8)

/-- `failed` when the stream ends before the value is complete. -/
abbrev Receive (α : Type) := StateT Bytes Outcome α

variable {α β : Type}

def recv (n : ℕ) : Receive Bytes := fun s =>
  if n ≤ s.length then .done (s.take n, s.drop n) else .failed

def lift (x : Outcome α) : Receive α := fun s => x >>= fun a => .done (a, s)

def times (r : Receive α) : ℕ → Receive (List α)
  | 0 => pure []
  | n + 1 => do
    let a ← r
    let as ← times r n
    pure (a :: as)

def Reads (r : Receive α) (msg : Bytes) (a : α) : Prop :=
  ∀ rest, r (msg ++ rest) = .done (a, rest)

theorem bind_apply (r : Receive α) (f : α → Receive β) (s : Bytes) :
    (r >>= f) s = (r s >>= fun p => f p.1 p.2) := rfl

@[simp] theorem pure_apply (a : α) (s : Bytes) : (pure a : Receive α) s = .done (a, s) := rfl

@[simp] theorem lift_done (a : α) : lift (.done a) = pure a := rfl
@[simp] theorem lift_failed (s : Bytes) : (lift .failed : Receive α) s = .failed := rfl
@[simp] theorem lift_undefined (s : Bytes) : (lift .undefined : Receive α) s = .undefined := rfl

theorem bind_eq_done {r : Receive α} {f : α → Receive β} {s t : Bytes} {b : β} :
    (r >>= f) s = .done (b, t) ↔ ∃ a u, r s = .done (a, u) ∧ f a u = .done (b, t) := by
  rw [bind_apply, Outcome.bind_eq_done]
  constructor
  · rintro ⟨⟨a, u⟩, ha, hb⟩
    exact ⟨a, u, ha, hb⟩
  · rintro ⟨a, u, ha, hb⟩
    exact ⟨(a, u), ha, hb⟩

theorem lift_eq_done {x : Outcome α} {s t : Bytes} {a : α} :
    lift x s = .done (a, t) ↔ x = .done a ∧ s = t := by
  cases x with
  | done b => simp
  | failed => simp
  | undefined => simp

theorem recv_eq_done {n : ℕ} {s t b : Bytes} :
    recv n s = .done (b, t) ↔ b.length = n ∧ s = b ++ t := by
  unfold recv
  constructor
  · intro h
    split_ifs at h with hle
    obtain ⟨rfl, rfl⟩ := Prod.mk.inj (Outcome.done.inj h)
    exact ⟨by simp [hle], (List.take_append_drop n s).symm⟩
  · rintro ⟨rfl, rfl⟩
    simp

namespace Reads

variable {r : Receive α} {f : α → Receive β} {msg msg' : Bytes} {a a' : α} {b : β}

theorem pure (a : α) : Reads (Pure.pure a) [] a := fun _ => rfl

theorem bind (h : Reads r msg a) (hf : Reads (f a) msg' b) :
    Reads (r >>= f) (msg ++ msg') b := by
  intro rest
  rw [bind_apply, List.append_assoc, h, Outcome.done_bind]
  exact hf rest

theorem bind_nil (h : Reads r msg a) (hf : Reads (f a) [] b) : Reads (r >>= f) msg b := by
  have hbind := h.bind hf
  rwa [List.append_nil] at hbind

theorem map (h : Reads r msg a) (g : α → β) : Reads (g <$> r) msg (g a) := by
  intro rest
  change (r (msg ++ rest) >>= fun p => Outcome.done (g p.1, p.2)) = _
  rw [h, Outcome.done_bind]

theorem unique (h : Reads r msg a) (h' : Reads r msg a') : a = a' :=
  congrArg Prod.fst (Outcome.done.inj ((h []).symm.trans (h' [])))

theorem recv {n : ℕ} (h : msg.length = n) : Reads (Wire.recv n) msg msg :=
  fun _ => recv_eq_done.mpr ⟨h, rfl⟩

theorem times_forall₂ {ε : Type} {enc : ε → Bytes} {xs : List ε} {as : List α}
    (h : List.Forall₂ (fun x a => Reads r (enc x) a) xs as) :
    Reads (Wire.times r xs.length) (xs.flatMap enc) as := by
  induction h with
  | nil => exact Reads.pure []
  | @cons x a xs as hx _ ih =>
    intro rest
    rw [List.length_cons, Wire.times, bind_apply, List.flatMap_cons, List.append_assoc, hx,
      Outcome.done_bind, bind_apply, ih, Outcome.done_bind]
    rfl

theorem times {ε : Type} {enc : ε → Bytes} {dec : ε → α} {xs : List ε}
    (h : ∀ x ∈ xs, Reads r (enc x) (dec x)) :
    Reads (Wire.times r xs.length) (xs.flatMap enc) (xs.map dec) :=
  times_forall₂ (List.forall₂_map_right_iff.mpr (List.forall₂_same.mpr h))

end Reads

def Takes (k : ℕ) (r : Receive α) (size : α → ℕ) : Prop :=
  ∀ s a t, r s = .done (a, t) → ∃ msg, s = msg ++ t ∧ k + msg.length = size a

namespace Takes

variable {k : ℕ} {r : Receive α} {f : α → Receive β} {size : α → ℕ} {size' : β → ℕ}

theorem pure {a : α} (h : k = size a) : Takes k (Pure.pure a) size := by
  rintro s b t hb
  obtain ⟨rfl, rfl⟩ := Prod.mk.inj (Outcome.done.inj hb)
  exact ⟨[], rfl, h⟩

theorem bind (h : Takes 0 r size) (hf : ∀ a, Takes (k + size a) (f a) size') :
    Takes k (r >>= f) size' := by
  intro s b t hb
  obtain ⟨a, u, ha, hf'⟩ := bind_eq_done.mp hb
  obtain ⟨msg, rfl, hmsg⟩ := h s a u ha
  obtain ⟨msg', rfl, hmsg'⟩ := hf a u b t hf'
  exact ⟨msg ++ msg', (List.append_assoc ..).symm, by rw [List.length_append]; omega⟩

theorem failed : Takes k (lift .failed : Receive α) size := by
  intro s a t h
  cases h

theorem recv (n : ℕ) : Takes 0 (Wire.recv n) List.length := by
  intro s b t h
  obtain ⟨_, rfl⟩ := recv_eq_done.mp h
  exact ⟨b, rfl, Nat.zero_add _⟩

theorem times (h : Takes 0 r size) (n : ℕ) :
    Takes 0 (Wire.times r n) fun as => (as.map size).sum := by
  induction n with
  | zero => exact Takes.pure rfl
  | succ n ih =>
    apply h.bind
    intro a
    apply ih.bind
    intro as
    apply Takes.pure
    rw [List.map_cons, List.sum_cons, Nat.zero_add]

theorem suffix (h : Takes k r size) {s t : Bytes} {a : α} (hr : r s = .done (a, t)) :
    t <:+ s := by
  obtain ⟨msg, rfl, -⟩ := h s a t hr
  exact List.suffix_append msg t

theorem length_eq (h : Takes 0 r size) {msg : Bytes} {a : α} (hr : Reads r msg a) :
    msg.length = size a := by
  obtain ⟨msg', heq, hlen⟩ := h _ _ _ (hr [])
  rw [List.append_nil, List.append_nil] at heq
  rw [heq, ← hlen, Nat.zero_add]

end Takes

section littleEndian

def littleEndian : ℕ → ℕ → Bytes
  | 0, _ => []
  | n + 1, x => BitVec.ofNat 8 x :: littleEndian n (x / 256)

def ofLittleEndian : Bytes → ℕ
  | [] => 0
  | b :: bs => b.toNat + 256 * ofLittleEndian bs

@[simp] theorem littleEndian_length (n x : ℕ) : (littleEndian n x).length = n := by
  induction n generalizing x with
  | zero => rfl
  | succ n ih => simp [littleEndian, ih]

theorem ofLittleEndian_littleEndian (n x : ℕ) :
    ofLittleEndian (littleEndian n x) = x % 256 ^ n := by
  induction n generalizing x with
  | zero => simp [littleEndian, ofLittleEndian, Nat.mod_one]
  | succ n ih =>
    have hbyte : (BitVec.ofNat 8 x).toNat = x % 256 := BitVec.toNat_ofNat x 8
    rw [littleEndian, ofLittleEndian, ih, hbyte, Nat.pow_succ', Nat.mod_mul]

end littleEndian

section int

def int32 (x : ℤ) : Bytes := littleEndian 4 (x % 2 ^ 32).toNat

@[irreducible] def ofInt32 (bs : Bytes) : ℤ := wrap32 (ofLittleEndian bs)

def recvInt : Receive ℤ := ofInt32 <$> recv 4

@[simp] theorem int32_length (x : ℤ) : (int32 x).length = 4 := littleEndian_length _ _

theorem ofInt32_int32 (x : ℤ) : ofInt32 (int32 x) = wrap32 x := by
  have hpos : 0 ≤ x % 2 ^ 32 := Int.emod_nonneg x (by decide)
  have hlt : x % 2 ^ 32 < 2 ^ 32 := Int.emod_lt_of_pos x (by decide)
  have hnat : ofLittleEndian (int32 x) = (x % 2 ^ 32).toNat := by
    rw [int32, ofLittleEndian_littleEndian]
    exact Nat.mod_eq_of_lt (by omega)
  unfold ofInt32 wrap32
  rw [hnat, Int.toNat_of_nonneg hpos]
  have hmod : x % 2 ^ 32 = x % ((2 ^ 32 : ℕ) : ℤ) := by norm_cast
  rw [hmod, Int.emod_bmod]

theorem recvInt_eq_done {x : ℤ} {s t : Bytes} :
    recvInt s = .done (x, t) ↔ ∃ b, b.length = 4 ∧ s = b ++ t ∧ x = ofInt32 b := by
  have hmap : recvInt s = (recv 4 s >>= fun p => .done (ofInt32 p.1, p.2)) := rfl
  rw [hmap, Outcome.bind_eq_done]
  constructor
  · rintro ⟨⟨b, u⟩, hb, heq⟩
    obtain ⟨hx, rfl⟩ := Prod.mk.inj (Outcome.done.inj heq)
    obtain ⟨hlen, rfl⟩ := recv_eq_done.mp hb
    exact ⟨b, hlen, by dsimp only, hx.symm⟩
  · rintro ⟨b, hlen, hs, hx⟩
    exact ⟨(b, t), recv_eq_done.mpr ⟨hlen, hs⟩, by rw [hx]⟩

theorem takes_int : Takes 0 recvInt fun _ => 4 := by
  intro s x t h
  obtain ⟨b, hlen, rfl, _⟩ := recvInt_eq_done.mp h
  exact ⟨b, rfl, by rw [hlen]⟩

theorem reads_int (x : ℤ) : Reads recvInt (int32 x) (wrap32 x) := by
  rw [← ofInt32_int32]
  exact (Reads.recv (int32_length x)).map ofInt32

theorem reads_int_of_fits {x : ℤ} (h : FitsInt x) : Reads recvInt (int32 x) x := by
  have := reads_int x
  rwa [wrap32_of_fits h] at this

end int

end Wire
