import PMLib.Streaming
import PMLib.TraceStart

/-! # When both exports agree

The streaming export counts the values from one on and compares that number with the bounds,
which count from zero on; and it counts over all lines, where the bounds are those of one. -/
namespace PMLib

open Int32Conv
open Wire (Receive Reads int32 recvInt)

variable {V : Type}

/-! ## The bounds -/

namespace Announces

variable {sizes : List ℕ} {r : GetReply V} {set : ℤ}

end Announces

/-! ## The two exports -/

section exports

variable [Zero V] [Add V] [Sub V] [Mul V] [Div V] [IntCast V] {c : CounterT V} {nLines : ℕ}
  {sizes : List ℕ} {r : GetReply Double} {val : Double → V} {sel : LineT} {set : ℤ}
  {unit : TimeUnit}

def CounterT.received (c : CounterT V) (val : Double → V) (r : GetReply Double) : CounterT V :=
  { c with energy := r.map val }

/-- A reply with `int` counts to the counter `c`, with any number of values. -/
structure CounterT.Gets (c : CounterT V) (val : Double → V) (r : GetReply Double) (nLines : ℕ)
    (sizes : List ℕ) : Prop where
  wellFormed : r.WellFormed
  holds : (c.received val r).Holds nLines sizes

namespace CounterT.Gets

omit [Zero V] [Add V] [Sub V] [Mul V] [Div V] [IntCast V] in
theorem wattsSize (h : c.Gets val r nLines sizes) : r.wattsSize = r.watts.length := by
  have hsize : r.wattsSize = ((r.watts.map val).length : ℤ) := h.holds.wattsSize
  rwa [List.length_map] at hsize

end CounterT.Gets

/-! ## What the buffered export writes -/

end exports

/-! ## When the values are the same -/

section comparison

variable [Zero V]

end comparison

/-! ## Agreement -/

section agreement

variable [Zero V] [Add V] [Sub V] [Mul V] [Div V] [IntCast V] {c : CounterT V} {nLines : ℕ}
  {sizes : List ℕ} {r : GetReply Double} {val : Double → V} {sel : LineT} {set : ℤ}
  {unit : TimeUnit}

end agreement

/-! ## Two sets -/

end PMLib
