import PMLib.Lib.Outcome
import PMLib.Lib.Int32

/-! # Objects of the measurement server

Counters, lines and devices with the fields that sessions read and write. A sample value
has an arbitrary type; only aggregation adds values up. -/
namespace PMLib

open Int32Conv

abbrev Byte := BitVec 8

inductive Operation where
  | create | start | continue_ | stop | get | finalize
  | infoDevice | listDevices | cmdStatus | readDevice
  deriving DecidableEq, Repr

def Operation.ofInt : ℤ → Option Operation
  | 0 => some .create
  | 1 => some .start
  | 2 => some .continue_
  | 3 => some .stop
  | 4 => some .get
  | 5 => some .finalize
  | 6 => some .infoDevice
  | 7 => some .listDevices
  | 8 => some .cmdStatus
  | 9 => some .readDevice
  | _ => none

inductive State where
  | inactive | active
  deriving DecidableEq, Repr

inductive Retval where
  | success | error | errorf
  deriving DecidableEq, Repr

def Retval.toInt : Retval → ℤ
  | .success => 0
  | .error => -1
  | .errorf => -2

/-- Buffer offsets by line id, as taken when a set is opened or closed. -/
abbrev SetT := Std.TreeMap ℕ ℤ

/-- A recorded set: offsets at its start and, once it is closed, at its end. -/
abbrev CounterSet := SetT × Option SetT

structure Counter where
  id : ℕ
  running : Bool
  aggregate : Bool
  interval : ℤ
  status : State
  frequency : ℤ
  lines : List ℕ
  sets : List CounterSet
  registered : Bool

/-- A counter as its constructor leaves it when the request fails. The members that were
not reached keep no meaning, and nothing reads them. -/
def Counter.unregistered (id : ℕ) : Counter where
  id := id
  running := true
  aggregate := false
  interval := 0
  status := .inactive
  frequency := 0
  lines := []
  sets := []
  registered := false

structure Line (V : Type) where
  enabled : ℕ
  active : ℕ
  data : List V
  deriving DecidableEq, Repr

namespace Line

variable {V : Type}

def fresh : Line V := ⟨0, 0, []⟩
def enable (l : Line V) : Line V := { l with enabled := l.enabled + 1 }
def disable (l : Line V) : Line V :=
  if l.enabled > 0 then { l with enabled := l.enabled - 1 } else { l with enabled := 0 }
def isEnabled (l : Line V) : Bool := l.enabled > 0
def activate (l : Line V) : Line V := { l with active := l.active + 1 }
def deactivate (l : Line V) : Line V :=
  if l.active > 0 then { l with active := l.active - 1 } else { l with active := 0 }
def isActive (l : Line V) : Bool := l.active > 0
def clearData (l : Line V) : Line V := { l with data := [] }
def pushBackData (l : Line V) (d : V) : Line V := { l with data := l.data ++ [d] }
def getSize (l : Line V) : ℤ := wrap32 l.data.length

/-- What leaving a line does to it: the buffer goes with its last user. -/
def release (l : Line V) : Line V :=
  if l.disable.isEnabled then l.disable else l.disable.clearData

def consume (l : Line V) (d : V) : Line V := if l.isActive then l.pushBackData d else l

@[simp] theorem enable_enabled (l : Line V) : l.enable.enabled = l.enabled + 1 := rfl
@[simp] theorem enable_active (l : Line V) : l.enable.active = l.active := rfl
@[simp] theorem enable_data (l : Line V) : l.enable.data = l.data := rfl
@[simp] theorem activate_enabled (l : Line V) : l.activate.enabled = l.enabled := rfl
@[simp] theorem activate_active (l : Line V) : l.activate.active = l.active + 1 := rfl
@[simp] theorem activate_data (l : Line V) : l.activate.data = l.data := rfl

@[simp] theorem deactivate_enabled (l : Line V) : l.deactivate.enabled = l.enabled := by
  unfold deactivate; split_ifs <;> rfl
@[simp] theorem deactivate_active (l : Line V) : l.deactivate.active = l.active - 1 := by
  unfold deactivate
  split_ifs
  · rfl
  · simp only; omega
@[simp] theorem deactivate_data (l : Line V) : l.deactivate.data = l.data := by
  unfold deactivate; split_ifs <;> rfl

@[simp] theorem disable_enabled (l : Line V) : l.disable.enabled = l.enabled - 1 := by
  unfold disable
  split_ifs
  · rfl
  · simp only; omega

@[simp] theorem release_enabled (l : Line V) : l.release.enabled = l.enabled - 1 := by
  unfold release; split_ifs <;> simp [clearData]
@[simp] theorem release_active (l : Line V) : l.release.active = l.active := by
  unfold release disable clearData; split_ifs <;> rfl

theorem release_data (l : Line V) :
    l.release.data = if 1 < l.enabled then l.data else [] := by
  have he : l.disable.isEnabled = decide (1 < l.enabled) := by
    simp only [isEnabled, disable_enabled, decide_eq_decide]
    omega
  have hd : l.disable.data = l.data := by unfold disable; split_ifs <;> rfl
  unfold release
  rw [he]
  by_cases h : 1 < l.enabled <;> simp [h, hd, clearData]

@[simp] theorem consume_enabled (l : Line V) (d : V) : (l.consume d).enabled = l.enabled := by
  unfold consume; split_ifs <;> rfl
@[simp] theorem consume_active (l : Line V) (d : V) : (l.consume d).active = l.active := by
  unfold consume; split_ifs <;> rfl

theorem consume_data (l : Line V) (d : V) :
    (l.consume d).data = if 0 < l.active then l.data ++ [d] else l.data := by
  by_cases h : 0 < l.active <;> simp [consume, isActive, h, pushBackData]

end Line

structure Device (V : Type) where
  name : List Byte
  maxFrequency : ℤ
  nLines : ℕ
  lines : Std.TreeMap ℕ (Line V)
  counterMap : Std.TreeMap ℕ Counter

end PMLib
