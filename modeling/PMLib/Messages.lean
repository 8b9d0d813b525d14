import PMLib.Counter
import PMLib.Lib.Wire

/-! # Wire forms of the server

Each `send` writes the object representation of its argument, strings and vectors after
their length. The numbers are little endian, as on the hosts the server is built for. -/
namespace PMLib

open Int32Conv
open Wire (Receive Reads int32)

/-- A double, by its object representation. -/
structure Double where
  image : BitVec 64
  deriving DecidableEq, Repr

namespace Double

def toFloat (x : Double) : Float := .ofBits (.ofBitVec x.image)

def ofFloat (x : Float) : Double := ⟨x.toBits.toBitVec⟩

instance : Zero Double := ⟨⟨0⟩⟩
instance : Add Double := ⟨fun x y => ofFloat (x.toFloat + y.toFloat)⟩

def bytes (x : Double) : List Byte := Wire.littleEndian 8 x.image.toNat

def ofBytes (bs : List Byte) : Double := ⟨BitVec.ofNat 64 (Wire.ofLittleEndian bs)⟩

@[simp] theorem bytes_length (x : Double) : x.bytes.length = 8 := Wire.littleEndian_length _ _

@[simp] theorem ofBytes_bytes (x : Double) : ofBytes x.bytes = x := by
  have hlt : x.image.toNat % 256 ^ 8 = x.image.toNat :=
    Nat.mod_eq_of_lt x.image.isLt
  rw [ofBytes, bytes, Wire.ofLittleEndian_littleEndian, hlt, BitVec.ofNat_toNat,
    BitVec.setWidth_eq]

end Double

def GetReply.bytes (r : GetReply Double) : List Byte :=
  int32 r.wattsSize ++ (int32 r.wattsSetsSize ++ (int32 r.linesLen ++
    (r.wattsSets.flatMap int32 ++ r.watts.flatMap Double.bytes)))

def sendString (str : List Byte) : List Byte := int32 str.length ++ str

/-- `receive` into an empty string. It reads a body only when the length is positive. -/
def receiveString : Receive (List Byte) := do
  let length ← Wire.recvInt
  if length > 0 then Wire.recv length.toNat else pure []

theorem reads_receiveString {str : List Byte} (h : str.length < 2 ^ 31) :
    Reads receiveString (sendString str) str := by
  apply (Wire.reads_int_of_fits ⟨by omega, by omega⟩).bind
  cases str with
  | nil => exact Reads.pure []
  | cons b str =>
    rw [if_pos (by simp)]
    exact Reads.recv (by simp)

end PMLib
