import ObjectModel.Number.Basic
import ObjectModel.Text.Blank

/-!
# Numbers read from text

White space at both ends is dropped; nothing left is zero.  Then a text is a radix mark with
digits of that radix, a spelling of infinity, or a decimal literal: an optional sign, digits with
an optional point among or around them, an optional power of ten.  Anything else is not-a-number.

After a radix mark one plus sign may stand, and the digits must fit in sixty-four bits.  The digits
of a power count until it reaches `2 ^ 16`; those after that must be digits but change nothing.
-/

namespace ObjectModel.Number

/-! ## Digits after a radix mark -/

/-- The value of a digit in radices up to sixteen. -/
def digitValue? (radix : Nat) (u : UInt16) : Option Nat :=
  let n := u.toNat
  let v :=
    if Text.isDigit u then n - 0x30
    else if 0x61 ≤ n && n ≤ 0x66 then n - 0x61 + 10
    else if 0x41 ≤ n && n ≤ 0x46 then n - 0x41 + 10
    else radix
  if v < radix then some v else none

/-- One more than the greatest number of sixty-four bits. -/
def radixLimit : Nat := 0x10000000000000000

/-- The number that digits of a radix spell after `n`, if all of them are such digits and it stays
below `radixLimit`. -/
def radixValue? (radix : Nat) : List UInt16 → Nat → Option Nat
  | [], n => some n
  | u :: rest, n =>
    match digitValue? radix u with
    | some v =>
      let n := n * radix + v
      if n < radixLimit then radixValue? radix rest n else none
    | none => none

/-- The number after a radix mark. -/
def readRadix (radix : Nat) (us : List UInt16) : Number :=
  let digits :=
    match us with
    | 0x2B :: rest => rest
    | _ => us
  if digits.isEmpty then .nan else ((radixValue? radix digits 0).map ofNat).getD .nan

/-! ## Decimal literals -/

/-- A decimal literal taken apart: the digits around the point and the power of ten. -/
structure Literal where
  negative : Bool
  whole : List UInt16
  fraction : List UInt16
  power : Int
  deriving DecidableEq

def takeSign : List UInt16 → Bool × List UInt16
  | 0x2D :: rest => (true, rest)
  | 0x2B :: rest => (false, rest)
  | us => (false, us)

/-- The power from which on further digits are dropped. -/
def powerCeiling : Nat := 0x10000

/-- The size of the power that digits spell. -/
def powerValue (us : List UInt16) : Nat :=
  us.foldl (fun n u => if n < powerCeiling then 10 * n + (u.toNat - 0x30) else n) 0

/-- The power of ten after the digits; the mark is `e` in either case. -/
def readPower? : List UInt16 → Option Int
  | [] => some 0
  | u :: rest =>
    if u == 0x65 || u == 0x45 then
      let (negative, digits) := takeSign rest
      if digits.isEmpty || !digits.all Text.isDigit then none
      else
        let n : Int := powerValue digits
        some (if negative then -n else n)
    else none

/-- The literal that a text is, if it is one. -/
def readLiteral? (us : List UInt16) : Option Literal :=
  let (negative, us) := takeSign us
  let whole := us.takeWhile Text.isDigit
  let rest := us.dropWhile Text.isDigit
  let (fraction, rest) :=
    match rest with
    | 0x2E :: rest => (rest.takeWhile Text.isDigit, rest.dropWhile Text.isDigit)
    | _ => ([], rest)
  if whole.isEmpty && fraction.isEmpty then none
  else (readPower? rest).map fun power => ⟨negative, whole, fraction, power⟩

/-- The powers of ten beyond which every double is zero or infinite. -/
def powerLimit : Int := 400

/-- Joins neighbouring digits of a base, the least significant first, to digits of its square. -/
def joinDigits (base : Nat) : List Nat → List Nat
  | low :: high :: rest => (low + base * high) :: joinDigits base rest
  | digits => digits

/-- The number with the given digits, the least significant first.  Joining digits until one is
left keeps the factors of every product about equally long, which is fast for long numbers; every
round halves the digits, so as many rounds as there are digits are enough. -/
def ofDigitsWithin : Nat → Nat → List Nat → Nat
  | _, _, [] => 0
  | _, _, [digit] => digit
  | 0, _, _ => 0
  | rounds + 1, base, digits => ofDigitsWithin rounds (base * base) (joinDigits base digits)

/-- The number that decimal digits spell, the least significant first. -/
def ofReversedDigits (us : List UInt16) : Nat :=
  ofDigitsWithin us.length 10 (us.map fun u => u.toNat - 0x30)

/-- The number nearest to a literal.  Zeros in front of the digits say nothing, zeros after them
raise the power; a literal out of the range of the doubles is not worked out. -/
def Literal.toNumber (l : Literal) : Number :=
  let digits := (l.whole ++ l.fraction).dropWhile (· == 0x30)
  let order := l.power - l.fraction.length + digits.length
  let significant := digits.reverse.dropWhile (· == 0x30)
  if significant.isEmpty || order < -powerLimit then ofCode l.negative 0
  else if powerLimit < order then .infinity l.negative
  else
    let n := ofReversedDigits significant
    match order - significant.length with
    | .ofNat k => ofRatio l.negative (n * Nat.pow 10 k) 1
    | .negSucc k => ofRatio l.negative n (Nat.pow 10 (k + 1))

def readDecimal (us : List UInt16) : Number :=
  ((readLiteral? us).map Literal.toNumber).getD .nan

/-! ## All forms -/

/-- The radix that a mark after a zero announces. -/
def radixOfMark? (u : UInt16) : Option Nat :=
  if u == 0x78 || u == 0x58 then some 16
  else if u == 0x6F || u == 0x4F then some 8
  else if u == 0x62 || u == 0x42 then some 2
  else none

/-- A text without white space at its ends, read as a number. -/
def readTrimmed (t : Text) : Number :=
  if t.isEmpty then zero
  else if t == Text.ofString "Infinity" || t == Text.ofString "+Infinity" then .infinity false
  else if t == Text.ofString "-Infinity" then .infinity true
  else
    match t.units with
    | 0x30 :: u :: rest =>
      match radixOfMark? u with
      | some radix => readRadix radix rest
      | none => readDecimal t.units
    | us => readDecimal us

/-- The number a text stands for. -/
def ofText (t : Text) : Number := readTrimmed t.trim

end ObjectModel.Number
