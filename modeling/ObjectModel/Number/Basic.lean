/-!
# Numbers

A number is a double: not-a-number, an infinity, or a sign with a magnitude.  A finite magnitude
is kept as its code, the 63 bits of exponent and fraction read as one natural number; codes are in
the same order as the magnitudes they stand for, and code `c` stands for
`significand c * 2 ^ exponent c`.

There is one not-a-number, so two numbers are equal exactly when no operation can tell them
apart: the two zeros differ by their sign.
-/

namespace ObjectModel

/-- The code of infinity; every finite magnitude has a smaller one. -/
abbrev infiniteCode : Nat := 0x7FF0000000000000

inductive Number where
  | nan
  | infinity (negative : Bool)
  | finite (negative : Bool) (code : Fin infiniteCode)
  deriving DecidableEq

namespace Number

/-! ## Magnitudes -/

/-- The number of codes that share one exponent. -/
def fractions : Nat := 0x10000000000000

def significand (code : Nat) : Nat :=
  if code < fractions then code else fractions + code % fractions

def exponent (code : Nat) : Int :=
  if code < fractions then -1074 else (code / fractions : Nat) - 1075

/-- The integer part of the magnitude with this code. -/
def floorOfCode (code : Nat) : Nat :=
  match exponent code with
  | .ofNat e => significand code * Nat.pow 2 e
  | .negSucc e => significand code / Nat.pow 2 (e + 1)

/-- The magnitude with this code is an integer. -/
def isWholeCode (code : Nat) : Bool :=
  match exponent code with
  | .ofNat _ => true
  | .negSucc e => significand code % Nat.pow 2 (e + 1) == 0

/-! ## Numbers and bits -/

def zero : Number := .finite false ⟨0, by decide⟩

instance : Inhabited Number := ⟨zero⟩

/-- The number with this sign and code; codes that are not finite stand for infinity. -/
def ofCode (negative : Bool) (code : Nat) : Number :=
  if h : code < infiniteCode then .finite negative ⟨code, h⟩ else .infinity negative

/-- The place of the sign in a double. -/
def signBit : Nat := 0x8000000000000000

/-- The number whose double has these bits. -/
def ofBits (bits : UInt64) : Number :=
  let code := bits.toNat % signBit
  if infiniteCode < code then .nan else ofCode (signBit ≤ bits.toNat) code

def toBits : Number → UInt64
  | .nan => 0x7FF8000000000000
  | .infinity negative => UInt64.ofNat (infiniteCode + if negative then signBit else 0)
  | .finite negative code => UInt64.ofNat (code.val + if negative then signBit else 0)

/-- A natural number for every number, each its own. -/
def ordinal : Number → Nat
  | .nan => 0
  | .infinity negative => 1 + negative.toNat
  | .finite negative code => 3 + 2 * code.val + negative.toNat

theorem ordinal_inj {x y : Number} (h : x.ordinal = y.ordinal) : x = y := by
  rcases x with _ | s | ⟨s, c⟩ <;> rcases y with _ | t | ⟨t, d⟩ <;>
    (try cases s) <;> (try cases t) <;> simp [ordinal] at h ⊢ <;> omega

/-! ## Rounding -/

/-- `n / d` to the nearest natural number, halves to the even one. -/
def roundHalfEven (n d : Nat) : Nat :=
  let q := n / d
  let r := n % d
  if 2 * r < d then q
  else if d < 2 * r then q + 1
  else q + q % 2

/-- The greatest `e` with `2 ^ e ≤ n / d`, for positive `n` and `d`. -/
def binaryOrder (n d : Nat) : Int :=
  let e : Int := (n.log2 : Int) - (d.log2 : Int)
  let reached : Bool :=
    match e with
    | .ofNat k => d * Nat.pow 2 k ≤ n
    | .negSucc k => d ≤ n * Nat.pow 2 (k + 1)
  if reached then e else e - 1

/-- The code nearest to `n / d`, ties to the even code.  One code is one unit in the last place,
so a carry out of the significand steps into the next exponent by itself. -/
def nearestCode (n d : Nat) : Nat :=
  if n = 0 then 0
  else
    let e := max (binaryOrder n d - 52) (-1074)
    let m :=
      match e with
      | .ofNat k => roundHalfEven n (d * Nat.pow 2 k)
      | .negSucc k => roundHalfEven (n * Nat.pow 2 (k + 1)) d
    (e + 1074).toNat * fractions + m

/-- The number nearest to `n / d` with this sign. -/
def ofRatio (negative : Bool) (n d : Nat) : Number := ofCode negative (nearestCode n d)

def ofNat (n : Nat) : Number := ofRatio false n 1

def ofInt (i : Int) : Number := ofRatio (i < 0) i.natAbs 1

/-! ## Tests and arithmetic -/

def isZero : Number → Bool
  | .finite _ code => code.val == 0
  | _ => false

/-- Equal as numbers: not-a-number equals nothing and the zeros equal each other. -/
def numericEq (x y : Number) : Bool :=
  x != .nan && (x == y || (x.isZero && y.isZero))

/-- The sum, rounded to nearest. -/
def add (x y : Number) : Number :=
  ofBits (Float.ofBits x.toBits + Float.ofBits y.toBits).toBits

/-- The integer toward zero, with the number's own sign. -/
def truncate : Number → Number
  | .finite negative code => ofRatio negative (floorOfCode code.val) 1
  | x => x

/-- The integer this number is equal to, if there is one. -/
def toInt? : Number → Option Int
  | .finite negative code =>
    if isWholeCode code.val then
      some (if negative then -(floorOfCode code.val : Int) else floorOfCode code.val)
    else none
  | _ => none

/-- The integer part as a natural number, within `0` and `limit`; not-a-number gives `0`. -/
def clampNat (limit : Nat) : Number → Nat
  | .nan => 0
  | .infinity negative => if negative then 0 else limit
  | .finite negative code => if negative then 0 else min (floorOfCode code.val) limit

/-- The greatest number of 32 bits. -/
def maxWord : Nat := 0xFFFFFFFF

/-- The integer part modulo `maxWord + 1`; what is not finite gives `0`. -/
def modWord : Number → Nat
  | .finite negative code =>
    let i : Int := floorOfCode code.val
    ((if negative then -i else i) % (maxWord + 1 : Nat)).toNat
  | _ => 0

/-- The integer part of a time within 8.64e15 milliseconds, zero without a sign; any other is
not-a-number.  Codes near the limit are whole, so comparing integer parts is exact. -/
def clipTime : Number → Number
  | .finite negative code =>
    let ms := floorOfCode code.val
    if 8640000000000000 < ms then .nan else ofRatio (negative && ms != 0) ms 1
  | _ => .nan

end Number

end ObjectModel
