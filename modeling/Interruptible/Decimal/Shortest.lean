/-!
# The shortest decimal of a floating-point number

A finite floating-point number stands for an interval of reals, those that round to it. Among the decimals in the interval the
shortest one is chosen, and of several shortest ones the nearest. The numbers are compared exactly, as fractions.
-/

namespace Interruptible.Decimal

/-- A decimal: `digits · 10 ^ exponent`. -/
structure Numeral where
  digits : Nat
  exponent : Int
deriving Inhabited, Repr, DecidableEq

/-- The interval of a positive floating-point number: the number and the two bounds, as numerators over one denominator, and
whether the bounds belong to it. -/
structure Interval where
  low : Nat
  value : Nat
  high : Nat
  denominator : Nat
  closed : Bool
deriving Inhabited, Repr

/-- The interval of `m · 2 ^ q`, where the neighbour below is nearer if `narrow` holds. -/
def Interval.of (m : Nat) (q : Int) (narrow : Bool) : Interval :=
  let below := if narrow then 1 else 2
  match q with
  | .ofNat e =>
    { low := (4 * m - below) * Nat.pow 2 e, value := 4 * m * Nat.pow 2 e, high := (4 * m + 2) * Nat.pow 2 e, denominator := 4
      closed := m % 2 = 0 }
  | .negSucc e =>
    { low := 4 * m - below, value := 4 * m, high := 4 * m + 2, denominator := 4 * Nat.pow 2 (e + 1), closed := m % 2 = 0 }

/-- Whether `digits · 10 ^ exponent` lies in an interval. -/
def Interval.contains (i : Interval) (digits : Nat) (exponent : Int) : Bool :=
  let (n, d) := match exponent with
    | .ofNat e => (digits * Nat.pow 10 e * i.denominator, 1)
    | .negSucc e => (digits * i.denominator, Nat.pow 10 (e + 1))
  if i.closed then i.low * d ≤ n && n ≤ i.high * d else i.low * d < n && n < i.high * d

/-- The two multiples of `10 ^ exponent` around the value of an interval, the nearer one first. -/
def Interval.neighbours (i : Interval) (exponent : Int) : List Nat :=
  let (n, d) := match exponent with
    | .ofNat e => (i.value, i.denominator * Nat.pow 10 e)
    | .negSucc e => (i.value * Nat.pow 10 (e + 1), i.denominator)
  let below := n / d
  if 2 * (n % d) ≤ d then [below, below + 1] else [below + 1, below]

/-- The number of decimal digits of a number. -/
def digitCount (n : Nat) : Nat := (toString n).length

/-- The coarsest decimal in an interval, looking at `n` more exponents below the given one. -/
def Interval.search (i : Interval) : Nat → Int → Numeral
  | 0, e => { digits := (i.neighbours e).headD 0, exponent := e }
  | n + 1, e =>
    match (i.neighbours e).find? fun d => d > 0 && i.contains d e with
    | some d => { digits := d, exponent := e }
    | none => i.search n (e - 1)

/-- The shortest decimal in an interval. The search starts above the leading digit of the value and ends, at the latest, with
seventeen digits. -/
def Interval.shortest (i : Interval) : Numeral :=
  let leading : Int := digitCount (i.value / i.denominator)
  let start : Int :=
    if i.value ≥ i.denominator then leading
    else -(digitCount (i.denominator / i.value) : Int) + 1
  i.search 24 start

/-- The parts of the bits of a double: sign, significand and exponent of two, and whether the neighbour below is nearer. -/
def decode (bits : Nat) : Bool × Nat × Int × Bool :=
  let negative := bits / Nat.pow 2 63 % 2 = 1
  let biased : Nat := bits / Nat.pow 2 52 % Nat.pow 2 11
  let fraction : Nat := bits % Nat.pow 2 52
  if biased = 0 then (negative, fraction, -1074, false)
  else (negative, fraction + Nat.pow 2 52, Int.ofNat biased - 1075, fraction == 0 && biased > 1)

/-- A decimal written without an exponent, and without a point if it is whole. -/
def Numeral.positional (d : Numeral) : String :=
  let text := toString d.digits
  match d.exponent with
  | .ofNat e => text ++ "".pushn '0' e
  | .negSucc e =>
    let places := e + 1
    let padded := "".pushn '0' (places + 1 - text.length) ++ text
    let whole := padded.toList.take (padded.length - places)
    let fraction := padded.toList.drop (padded.length - places)
    String.ofList whole ++ "." ++ String.ofList fraction

/-- The zeros at the end of the digits of a decimal, moved into its exponent, at most `n` of them. -/
def Numeral.trim : Nat → Numeral → Numeral
  | 0, d => d
  | n + 1, d => if d.digits ≠ 0 ∧ d.digits % 10 = 0 then trim n { digits := d.digits / 10, exponent := d.exponent + 1 } else d

/-- The text of a floating-point number: the shortest decimal that reads back as this number, without an exponent; the sign
of zero is kept. -/
def floatText (x : Float) : String :=
  let (negative, m, q, narrow) := decode x.toBits.toNat
  if x.isNaN then "NaN"
  else
    let sign := if negative then "-" else ""
    if x.isInf then sign ++ "inf"
    else if m = 0 then sign ++ "0"
    else sign ++ ((Interval.of m q narrow).shortest.trim 400).positional

end Interruptible.Decimal
