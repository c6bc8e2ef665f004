import ObjectModel.Number.Basic
import ObjectModel.Text.Basic

/-!
# Numbers as decimal text

The text of a finite number has the fewest significant digits that read back as the number; of
two such decimals the nearer one, and of two equally near the one with an even last digit.
`shortest` finds it in exact arithmetic: on the grid of multiples of a power of ten, only the two
neighbours of the number can be nearest, so it tries them on ever finer grids until one lies in
the interval of reals that round to the number.

The layout is positional while the decimal point stands between seven places before the first
digit and twenty-one after it, and scientific beyond.
-/

namespace ObjectModel

/-- The decimal `coefficient * 10 ^ exponent`. -/
structure Decimal where
  coefficient : Nat
  exponent : Int
  deriving DecidableEq, Inhabited

namespace Decimal

/-- The same decimal without zeros at the end of the coefficient. -/
def strip (d : Decimal) : Decimal :=
  if h : d.coefficient ≠ 0 ∧ d.coefficient % 10 = 0 then
    strip ⟨d.coefficient / 10, d.exponent + 1⟩
  else d
termination_by d.coefficient
decreasing_by exact Nat.div_lt_self (Nat.pos_of_ne_zero h.1) (by decide)

/-- The reals that round to a number: those between `low / scale` and `high / scale`, the ends
included when `closed`; the number itself is `value / scale`. -/
structure Interval where
  low : Nat
  value : Nat
  high : Nat
  scale : Nat
  closed : Bool

/-- The interval of the magnitude with this code.  The gap below a power of two is half as wide
as the gap above it. -/
def Interval.ofCode (code : Nat) : Interval :=
  let m := Number.significand code
  let below := if m == Number.fractions && Number.fractions < code then 1 else 2
  let (up, down) : Nat × Nat :=
    match Number.exponent code with
    | .ofNat e => (Nat.pow 2 e, 1)
    | .negSucc e => (1, Nat.pow 2 (e + 1))
  { low := (4 * m - below) * up
    value := 4 * m * up
    high := (4 * m + 2) * up
    scale := 4 * down
    closed := m % 2 == 0 }

/-- `c * 10 ^ k` lies in the interval. -/
def Interval.contains (i : Interval) (c : Nat) (k : Int) : Bool :=
  let (point, unit) : Nat × Nat :=
    match k with
    | .ofNat k => (c * i.scale * Nat.pow 10 k, 1)
    | .negSucc k => (c * i.scale, Nat.pow 10 (k + 1))
  if i.closed then i.low * unit ≤ point && point ≤ i.high * unit
  else i.low * unit < point && point < i.high * unit

/-- The multiple of `10 ^ k` in the interval that is nearest to the value, if there is one. -/
def Interval.nearest? (i : Interval) (k : Int) : Option Decimal :=
  let (n, d) : Nat × Nat :=
    match k with
    | .ofNat k => (i.value, i.scale * Nat.pow 10 k)
    | .negSucc k => (i.value * Nat.pow 10 (k + 1), i.scale)
  let c := n / d
  let nearer := Number.roundHalfEven n d
  let farther := if nearer == c then c + 1 else c
  if i.contains nearer k then some ⟨nearer, k⟩
  else if i.contains farther k then some ⟨farther, k⟩
  else none

/-- The first hit on the grids of `10 ^ k`, `10 ^ (k - 1)`, … -/
def Interval.search (i : Interval) : Nat → Int → Decimal
  | 0, k => (i.nearest? k).getD ⟨0, 0⟩
  | steps + 1, k =>
    match i.nearest? k with
    | some d => d
    | none => i.search steps (k - 1)

/-- The least `j`, at most `fuel`, with `d ≤ n * 10 ^ j`. -/
def decimalPlaces (n d : Nat) : Nat → Nat
  | 0 => 0
  | fuel + 1 => if d ≤ n then 0 else 1 + decimalPlaces (n * 10) d fuel

/-- The power of ten of the first digit of `n / d`. -/
def decimalOrder (n d : Nat) : Int :=
  if d ≤ n then (Nat.toDigits 10 (n / d)).length - 1
  else -(decimalPlaces n d 400 : Int)

/-- The decimal with the fewest digits that reads back as the magnitude with this code.  Seventeen
digits tell any two doubles apart. -/
def shortest (code : Nat) : Decimal :=
  let i := Interval.ofCode code
  (i.search 17 (decimalOrder i.value i.scale)).strip

/-! ## Layout -/

/-- Where positional notation ends: the decimal point may stand this many places after the first
digit, or this many zeros may follow the point. -/
structure Layout where
  placesAfter : Nat
  zerosBefore : Nat

/-- At most twenty-one places, and at most six zeros after the point less one. -/
def layout : Layout := ⟨21, 6⟩

def zeros (n : Nat) : List Char := List.replicate n '0'

def signedDigits (i : Int) : List Char :=
  (if i < 0 then '-' else '+') :: Nat.toDigits 10 i.natAbs

/-- A positive decimal without zeros at the end, written out. -/
def toChars (d : Decimal) : List Char :=
  let digits := Nat.toDigits 10 d.coefficient
  let k := digits.length
  let point : Int := d.exponent + k
  if k ≤ point ∧ point ≤ layout.placesAfter then digits ++ zeros (point.toNat - k)
  else if 0 < point ∧ point ≤ layout.placesAfter then
    digits.take point.toNat ++ '.' :: digits.drop point.toNat
  else if -(layout.zerosBefore : Int) < point ∧ point ≤ 0 then
    '0' :: '.' :: zeros (-point).toNat ++ digits
  else
    let fraction := if k = 1 then [] else '.' :: digits.drop 1
    digits.take 1 ++ fraction ++ 'e' :: signedDigits (point - 1)

end Decimal

namespace Number

/-- The text of a number; both zeros are written without a sign. -/
def toText : Number → Text
  | .nan => "NaN"
  | .infinity negative => if negative then "-Infinity" else "Infinity"
  | .finite negative code =>
    if code.val = 0 then "0"
    else
      Text.ofChars
        ((if negative then ['-'] else []) ++ (Decimal.shortest code.val).toChars)

end Number

end ObjectModel
