import Interruptible.Text.Reader

/-!
# Numbers from text

The grammars of integers and of floating-point numbers that are written by themselves: no blanks and no separators, an
optional sign, and for floats a point and an exponent. A decimal is read as the floating-point number nearest to it.
-/

namespace Interruptible.Decimal

open Interruptible.Text

/-- Digits, at least one. -/
def readNat? (cs : List Char) : Option Nat :=
  if cs.isEmpty || !cs.all isDigit then none else some (numberOf 10 cs)

/-- An optional sign and digits. -/
def readInt? (s : String) : Option Int :=
  match s.toList with
  | '-' :: cs => (readNat? cs).map fun n => -(n : Int)
  | '+' :: cs => (readNat? cs).map fun n => (n : Int)
  | cs => (readNat? cs).map fun n => (n : Int)

/-- An integer that fits into 64 bits with a sign. -/
def readInt64? (s : String) : Option Int := do
  let n ← readInt? s
  if -9223372036854775808 ≤ n ∧ n ≤ 9223372036854775807 then return n else none

/-- A natural number of at most so many bits, with an optional plus sign. -/
def readUnsigned? (bits : Nat) (s : String) : Option Nat := do
  let n ← match s.toList with
    | '+' :: cs => readNat? cs
    | cs => readNat? cs
  if n < Nat.pow 2 bits then return n else none

/-- The floating-point number nearest to `digits · 10 ^ exponent`. Exponents far outside the range of floating-point
numbers give zero or infinity at once. -/
def floatOf (negative : Bool) (digits : Nat) (exponent : Int) : Float :=
  let size : Int := (toString digits).length + exponent
  let magnitude : Float :=
    if digits = 0 ∨ size < -400 then 0.0
    else if size > 400 then 1.0 / 0.0
    else
      match exponent with
      | .ofNat e => Float.ofScientific digits false e
      | .negSucc e => Float.ofScientific digits true (e + 1)
  if negative then -magnitude else magnitude

/-- Whether a sign says minus. -/
def readSign : Reader Bool := do
  match ← Reader.peek with
  | some '-' => do
    Reader.char '-'
    return true
  | some '+' => do
    Reader.char '+'
    return false
  | _ => return false

/-- The exponent part of a decimal. -/
def readExponent : Reader Int := do
  let _ ← Reader.satisfy fun c => c == 'e' || c == 'E'
  let negative ← readSign
  let digits ← Reader.span1 isDigit
  let n : Int := numberOf 10 digits
  return if negative then -n else n

/-- The digits before and after a point, and an exponent. At least one digit stands before or after the point. -/
def readDecimal (negative : Bool) : Reader Float := do
  let whole ← Reader.span isDigit
  let fraction ← if ← Reader.accepts (Reader.char '.') then Reader.span isDigit else pure []
  if whole.isEmpty && fraction.isEmpty then Reader.refuse
  let exponent := (← Reader.optional readExponent).getD 0
  return floatOf negative (numberOf 10 (whole ++ fraction)) (exponent - fraction.length)

/-- Infinity or no number, in words. -/
def specialFloat? (negative : Bool) (s : String) : Option Float :=
  match lower s with
  | "inf" | "infinity" => some (if negative then -1.0 / 0.0 else 1.0 / 0.0)
  | "nan" => some (0.0 / 0.0)
  | _ => none

/-- A floating-point number: a decimal, or one of the words for infinity and for no number, with an optional sign. -/
def readFloat? (s : String) : Option Float :=
  let read : Reader Float := do
    let negative ← readSign
    let left ← Reader.rest
    match specialFloat? negative (String.ofList left) with
    | some x => do
      set ([] : List Char)
      return x
    | none => readDecimal negative
  Reader.readAll read s

end Interruptible.Decimal
