import StackCompiler.Assembly.Error
import StackCompiler.Assembly.Line

/-!
# Emissions

Code generation writes lines to a device, which may take only so many bytes. It stops at the first
error, and at the line that does not fit any more.

* `Device`: where the lines go.
* `Emitted`: the lines that came out, and what they lead to.
* `Emission`: a part of code generation.
* `Emission.write`, `Emission.fail`: writing lines, and stopping.
-/

namespace StackCompiler

/-- **Where assembly goes.** -/
structure Device where
  /-- How many bytes it takes; without a number, any. -/
  capacity : Option Nat := none
  /-- Why it takes no more. -/
  reason : String := ""
  deriving DecidableEq, Repr

namespace Device

/-- Do lines fit on the device? -/
def fits (device : Device) (lines : List Line) : Bool :=
  match device.capacity with
  | none => true
  | some capacity => linesSize lines ≤ capacity

/-- The device that is left after lines. -/
def after (device : Device) (lines : List Line) : Device :=
  match device.capacity with
  | none => device
  | some capacity => { device with capacity := some (capacity - linesSize lines) }

end Device

/-- **What comes out of a part of code generation.** -/
structure Emitted (α : Type) where
  /-- The lines in order. The last of them is the one that did not fit, if that was the error. -/
  lines : List Line
  /-- What is left of the device. -/
  device : Device
  /-- What the lines lead to, or the error that stopped them. -/
  outcome : Except EmitError α

/-- **A part of code generation**, which writes to the device it is given. -/
def Emission (α : Type) : Type := Device → Emitted α

namespace Emission

/-- Writes nothing. -/
def pure (a : α) : Emission α := fun device => ⟨[], device, .ok a⟩

/-- Goes on after a result; an error keeps the lines before it. -/
def bind (e : Emission α) (f : α → Emission β) : Emission β := fun device =>
  let first := e device
  match first.outcome with
  | .ok a =>
    let next := f a first.device
    ⟨first.lines ++ next.lines, next.device, next.outcome⟩
  | .error cause => ⟨first.lines, first.device, .error cause⟩

instance : Monad Emission where
  pure := pure
  bind := bind

/-- **Writes lines**, all of them if they fit. -/
def write (lines : List Line) : Emission Unit := fun device =>
  if device.fits lines then ⟨lines, device.after lines, .ok ()⟩
  else ⟨lines, device.after lines, .error ⟨.output device.reason, none⟩⟩

/-- **Stops with an error.** -/
def fail (cause : EmitFault) (location : Option Location) : Emission α := fun device =>
  ⟨[], device, .error ⟨cause, location⟩⟩

end Emission

end StackCompiler
