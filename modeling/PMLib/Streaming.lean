import PMLib.CounterData
import PMLib.Holding

/-! # A trace while the reply arrives

`pm_get_and_print_data_paraver` asks for the values one at a time and writes a record for
those that counters of the values say are of the set. `val` is what a received double stands
for in the arithmetic of the times. -/
namespace PMLib

open Int32Conv
open Wire (Receive Reads int32 recvInt)
open Energy (recvBlock unpack pmGetCounterData)

variable {V : Type}

def GetReply.map (val : Double → V) (r : GetReply Double) : GetReply V :=
  ⟨r.wattsSize, r.wattsSetsSize, r.linesLen, r.wattsSets, r.watts.map val⟩

section loops

variable [Add V]

end loops

section functions

variable [Zero V] [Add V] [Sub V] [Mul V] [Div V] [IntCast V]

end functions

/-! ## What the loops write -/

section written

variable [Add V] {val : Double → V} {ini fin : ℕ} {incTime : V}

def passed (ini fin read : ℕ) (values : List V) : List V :=
  (values.take (fin - 1 - read)).drop (ini - 1 - read)

variable [Zero V] {t : SelectionTables} {n : ℕ}

end written

end PMLib
