/-!
# Durations

A duration is shown in the largest unit that it fills at least once.

* `Duration`: a number of nanoseconds.
* `TimeUnit`: seconds and their parts.
* `Duration.text`: the wording, such as `1.5ms`.
-/

namespace StackCompiler

/-- **A span of time.** -/
structure Duration where
  /-- Its length in nanoseconds. -/
  nanoseconds : Nat
  deriving DecidableEq, Repr

/-- Units that a span of time is shown in. -/
inductive TimeUnit where
  | second
  | millisecond
  | microsecond
  | nanosecond
  deriving DecidableEq, Repr

namespace TimeUnit

/-- The places of a fraction of the unit: `10 ^ places` nanoseconds are one unit. -/
def places : TimeUnit → Nat
  | .second => 9
  | .millisecond => 6
  | .microsecond => 3
  | .nanosecond => 0

/-- The unit as it is shown. -/
def text : TimeUnit → String
  | .second => "s"
  | .millisecond => "ms"
  | .microsecond => "µs"
  | .nanosecond => "ns"

end TimeUnit

namespace Duration

/-- No time at all. -/
def zero : Duration := ⟨0⟩

/-- The largest unit that the span fills at least once, or else nanoseconds. -/
def unit (d : Duration) : TimeUnit :=
  if Nat.pow 10 9 ≤ d.nanoseconds then .second
  else if Nat.pow 10 6 ≤ d.nanoseconds then .millisecond
  else if Nat.pow 10 3 ≤ d.nanoseconds then .microsecond
  else .nanosecond

/-- The digits of a fraction with a given number of places, without zeros at the end. -/
def fractionDigits (places fraction : Nat) : List Char :=
  let digits := Nat.toDigits 10 fraction
  let padded := List.replicate (places - digits.length) '0' ++ digits
  (padded.reverse.dropWhile (· == '0')).reverse

/-- **The span as it is shown.** A fraction that is zero is left out. -/
def text (d : Duration) : String :=
  let scale := Nat.pow 10 d.unit.places
  let whole := toString (d.nanoseconds / scale)
  let fraction := fractionDigits d.unit.places (d.nanoseconds % scale)
  let number := if fraction.isEmpty then whole else whole ++ "." ++ String.ofList fraction
  number ++ d.unit.text

end Duration

end StackCompiler
