import TextGrammar.Text.Basic

/-!
# Numbers

An unsigned numeral denotes an integer if it is written without a point and fits into 63 bits, and
otherwise the nearest floating-point number.
-/

namespace TextGrammar

/-- A floating-point number given by its 64 bits. A value that is not a number keeps all of them,
which arithmetic would not promise. -/
structure Double where
  bits : UInt64
  deriving DecidableEq

namespace Double

def ofFloat (f : Float) : Double := ⟨f.toBits⟩

def toFloat (d : Double) : Float := Float.ofBits d.bits

end Double

inductive Number where
  | int (i : Int)
  | float (d : Double)
  deriving DecidableEq

namespace Number

def maxInt : Nat := 0x7fffffffffffffff

def toDouble : Number → Double
  | int i => .ofFloat (Float.ofInt i)
  | float d => d

/-- The floating-point number nearest to the value of `whole` followed by a point and
`fraction`. -/
def nearestDouble (whole fraction : Text) : Double :=
  .ofFloat (Float.ofScientific (Text.digitsValue (whole ++ fraction)) true fraction.length)

/-- Reads a run of digits and points. What stands behind a second point is left out. -/
def ofNumeral (run : Text) : Number :=
  match run.span (· != '.') with
  | (digits, []) =>
    if Text.digitsValue digits ≤ maxInt then .int (Text.digitsValue digits)
    else .float (nearestDouble digits [])
  | (whole, _ :: tail) => .float (nearestDouble whole (tail.takeWhile (· != '.')))

end Number

end TextGrammar
