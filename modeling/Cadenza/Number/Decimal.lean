import Cadenza.Number.Double

/-!
# Decimal text of doubles

Two ways to write a double. The shortest text has the fewest digits that read back as the same
double, and of those the nearest. The fixed text has a given number of places and is rounded from
the exact binary value, a tie going to the even neighbour.
-/

namespace Cadenza

set_option autoImplicit false

structure Decimal where
  digits : Nat
  power : Int
  deriving DecidableEq, Repr

namespace Decimal

def digitCount (n : Nat) : Nat :=
  (Nat.toDigits 10 n).length

/-- The power of ten of the leading digit of `num / den`, both positive. -/
def leadingPower (num den : Nat) : Int :=
  if den ≤ num then (digitCount (num / den) : Int) - 1
  else -(digitCount ((den - 1) / num) : Int)

/-- The numbers that read back as one double: the value and the two ends, over one denominator. The
ends themselves read back exactly when the mantissa is even. -/
structure Interval where
  low : Nat
  value : Nat
  high : Nat
  den : Nat
  closed : Bool

/-- Below a power of two the doubles lie twice as close, save where the exponent is the least. -/
def Interval.ofParts (mantissa : Nat) (exponent : Int) : Interval :=
  let scale := 1 <<< exponent.toNat
  { low := (4 * mantissa - if mantissa = 1 <<< 52 ∧ exponent ≠ -1074 then 1 else 2) * scale
    value := 4 * mantissa * scale
    high := (4 * mantissa + 2) * scale
    den := 4 <<< (-exponent).toNat
    closed := mantissa % 2 = 0 }

def Interval.holds (i : Interval) (d : Decimal) : Bool :=
  let scaled := d.digits * Nat.pow 10 d.power.toNat * i.den
  let unit := Nat.pow 10 (-d.power).toNat
  if i.closed then i.low * unit ≤ scaled && scaled ≤ i.high * unit
  else i.low * unit < scaled && scaled < i.high * unit

def Interval.below (i : Interval) (power : Int) : Decimal :=
  ⟨i.value * Nat.pow 10 (-power).toNat / (i.den * Nat.pow 10 power.toNat), power⟩

/-- Of the two neighbours of the value on the grid of a power of ten, the nearer one that lies in
the interval; of two equally near ones the upper. -/
def Interval.onGrid (i : Interval) (power : Int) : Option Decimal :=
  let low := i.below power
  let high : Decimal := ⟨low.digits + 1, power⟩
  let twice := (2 * low.digits + 1) * Nat.pow 10 power.toNat * i.den
  let lowIsNearer := decide (2 * i.value * Nat.pow 10 (-power).toNat < twice)
  match i.holds low, i.holds high with
  | true, true => some (if lowIsNearer then low else high)
  | true, false => some low
  | false, true => some high
  | false, false => none

/-- The first grid that has a point in the interval, of `count` grids from `power` down; the last
grid of seventeen digits always has one. -/
def Interval.search (i : Interval) (power : Int) : Nat → Decimal
  | 0 => i.below power
  | count + 1 => (i.onGrid power).getD (i.search (power - 1) count)

def trim : Nat → Decimal → Decimal
  | 0, d => d
  | fuel + 1, d =>
      if d.digits % 10 = 0 ∧ d.digits ≠ 0 then trim fuel ⟨d.digits / 10, d.power + 1⟩ else d

def shortest (mantissa : Nat) (exponent : Int) : Decimal :=
  let i := Interval.ofParts mantissa exponent
  trim 20 (i.search (leadingPower i.value i.den) 17)

def magnitude (d : Decimal) : Int :=
  d.power + (digitCount d.digits : Int) - 1

/-- How numbers are laid out: whether whole numbers get a `.0`, and for which powers of the leading
digit the point is placed by counting. The others are written with an exponent. -/
structure Layout where
  wholePlaces : Bool
  positional : Int → Bool

def Layout.message : Layout :=
  ⟨false, fun _ => true⟩

/-- For values shown to a developer: `.0` on whole numbers, an exponent from `10 ^ 16` up and
below `10 ^ -4`. -/
def Layout.debug : Layout :=
  ⟨true, fun power => -4 ≤ power && power < 16⟩

def zeros (count : Nat) : List Char :=
  List.replicate count '0'

def positionalText (wholePlaces : Bool) (d : Decimal) : List Char :=
  let digits := Nat.toDigits 10 d.digits
  if 0 ≤ d.power then
    digits ++ zeros d.power.toNat ++ (if wholePlaces then ['.', '0'] else [])
  else
    let places := (-d.power).toNat
    let padded := zeros (places + 1 - digits.length) ++ digits
    padded.take (padded.length - places) ++ '.' :: padded.drop (padded.length - places)

def exponentText (d : Decimal) : List Char :=
  let rest := (Nat.toDigits 10 d.digits).drop 1
  (Nat.toDigits 10 d.digits).take 1 ++ (if rest.isEmpty then [] else '.' :: rest) ++
    'e' :: (toString d.magnitude).toList

def text (layout : Layout) (d : Decimal) : List Char :=
  if layout.positional d.magnitude then positionalText layout.wholePlaces d else exponentText d

def fixedText (places units : Nat) : List Char :=
  positionalText false ⟨units, -(places : Int)⟩

end Decimal

namespace Double

def signText (negative : Bool) : List Char :=
  if negative then ['-'] else []

def shortestText (layout : Decimal.Layout) : Double → List Char
  | .notANumber => ['N', 'a', 'N']
  | .infinite negative => signText negative ++ ['i', 'n', 'f']
  | .finite negative mantissa exponent =>
      signText negative ++
        if mantissa = 0 then Decimal.positionalText layout.wholePlaces ⟨0, 0⟩
        else (Decimal.shortest mantissa exponent).text layout

def fixedText (places : Nat) : Double → List Char
  | .notANumber => ['N', 'a', 'N']
  | .infinite negative => signText negative ++ ['i', 'n', 'f']
  | .finite negative mantissa exponent =>
      let units := roundDiv .toEven ((mantissa <<< exponent.toNat) * Nat.pow 10 places)
        (1 <<< (-exponent).toNat)
      signText negative ++ Decimal.fixedText places units

end Double

def messageText (x : Float) : String :=
  String.ofList ((Double.ofFloat x).shortestText .message)

def debugText (x : Float) : String :=
  String.ofList ((Double.ofFloat x).shortestText .debug)

def placesText (places : Nat) (x : Float) : String :=
  String.ofList ((Double.ofFloat x).fixedText places)

end Cadenza
