import StackCompiler.Assembly.Lowering

/-!
# Output

A device that is full keeps the bytes it has taken.

* `Device.taken`: the bytes that a device takes of a sequence of lines.
* `emitUnit`: the assembly of a unit, written to a device.
-/

namespace StackCompiler

/-- **What was written**, and whether all went well. -/
structure Written where
  /-- The bytes on the device. -/
  bytes : List UInt8
  /-- The first error, if there was one. -/
  outcome : Except EmitError Unit

/-- **The bytes that a device has taken.** Of a line that did not fit it took what it could. -/
def Device.taken (device : Device) (lines : List Line) : List UInt8 :=
  let bytes := Utf8.encode (assemblyText lines).toList
  match device.capacity with
  | none => bytes
  | some capacity => bytes.take capacity

/-- Levels of blocks that are worth following: a tree of blocks is no deeper than their number, and
blocks that lie inside themselves fill a device before this depth, if they write anything. -/
def emitLevels (store : Store) (device : Device) : Nat :=
  (store.blocks.size + 1) * (device.capacity.getD 0 + 1)

/-- **Writes the assembly of a unit to a device.** -/
def emitUnit (options : EmitOptions) (store : Store) (unit : List DefId) (device : Device) :
    Written :=
  let emitted := lowerUnit options store (emitLevels store device) unit device
  ⟨device.taken emitted.lines, emitted.outcome⟩

end StackCompiler
