import PMLib.EnergyPerSet
import PMLib.Stretches

/-! # From the samples to what is printed

A client that gets a reply of the server prints what the lines of the device were given, where the
strides of the printers find it. -/
namespace PMLib

/-! ## Where the strides find the samples -/

section strides

variable {V : Type} {m sel : LineT} {nLines : ℕ} {ws : List (List (ℕ → V))} {r : GetReply V}
  {set : ℤ}

end strides

namespace Daemon

variable {V : Type} [Field V] {register : Name → Option Driver} {text : Json → List Byte}
  {takesDisk : DiskCheck} {conf : Json} {dn : Name} {es : List (DaemonEvent V)} {d : Daemon V}
  {k : ℕ} {c : Counter} {r : GetReply V} {m : LineT} {dev : Device V}

end Daemon

end PMLib
