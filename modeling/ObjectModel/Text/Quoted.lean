import ObjectModel.Text.Basic

/-!
# Quoted texts

A text is quoted by a mark at both ends and an escape for each unit that is not printable ASCII,
is the mark itself or is a backslash.  The five short escapes are for backspace, tab, line feed,
vertical tab and carriage return; other units below U+0100 take two hexadecimal digits, the rest
four, in upper case.  Quoting with an ASCII mark gives printable ASCII only.
-/

namespace ObjectModel.Text

/-- One hexadecimal digit, in upper case. -/
def hexDigit (n : Nat) : UInt16 :=
  UInt16.ofNat (if n < 10 then 0x30 + n else 0x41 + (n - 10))

/-- The last `width` hexadecimal digits of `n`. -/
def hexDigits : Nat → Nat → List UInt16
  | 0, _ => []
  | width + 1, n => hexDigits width (n / 16) ++ [hexDigit (n % 16)]

def backslash : UInt16 := 0x5C

def doubleQuote : UInt16 := 0x22

def singleQuote : UInt16 := 0x27

/-- The units that stand for `u` inside a text quoted with `mark`. -/
def escapeUnit (mark u : UInt16) : List UInt16 :=
  if u == 0x08 then [backslash, 0x62]
  else if u == 0x09 then [backslash, 0x74]
  else if u == 0x0A then [backslash, 0x6E]
  else if u == 0x0B then [backslash, 0x76]
  else if u == 0x0D then [backslash, 0x72]
  else if u == mark || u == backslash then [backslash, u]
  else if 0x20 ≤ u && u ≤ 0x7E then [u]
  else if u ≤ 0xFF then backslash :: 0x78 :: hexDigits 2 u.toNat
  else backslash :: 0x75 :: hexDigits 4 u.toNat

/-- The text between two marks, escaped. -/
def quoteWith (mark : UInt16) (t : Text) : Text :=
  ⟨mark :: t.units.flatMap (escapeUnit mark) ++ [mark]⟩

/-- The text as a literal in double quotes. -/
def quote (t : Text) : Text := quoteWith doubleQuote t

end ObjectModel.Text
