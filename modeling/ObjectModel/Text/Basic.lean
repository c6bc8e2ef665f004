/-!
# Texts as sequences of code units

A text is a sequence of 16-bit code units.  A character above U+FFFF is two units, a surrogate
pair; a surrogate without its partner is kept as it is, so every sequence of units is a text and
two texts are equal exactly when their units are.

`Text.ofString` writes a string of characters as units.  `Text.lossy` replaces each lone
surrogate by U+FFFD, the form in which a text enters a message or a piece of source text.
-/

namespace ObjectModel

/-- A sequence of UTF-16 code units. -/
structure Text where
  units : List UInt16
  deriving DecidableEq, Inhabited

namespace Text

def empty : Text := ⟨[]⟩

def isEmpty (t : Text) : Bool := t.units.isEmpty

def length (t : Text) : Nat := t.units.length

protected def append (s t : Text) : Text := ⟨s.units ++ t.units⟩

instance : Append Text := ⟨Text.append⟩

/-- The units from position `start` on. -/
def dropFrom (t : Text) (start : Nat) : Text := ⟨t.units.drop start⟩

/-- The text of one unit. -/
def singleton (u : UInt16) : Text := ⟨[u]⟩

/-- The texts one after the other. -/
def concat : List Text → Text
  | [] => empty
  | t :: rest => t ++ concat rest

/-- The texts one after the other, with `separator` between neighbours. -/
def join (separator : Text) : List Text → Text
  | [] => empty
  | [t] => t
  | t :: rest => t ++ (separator ++ join separator rest)

/-! ## Characters -/

def isHighSurrogate (u : UInt16) : Bool := 0xD800 ≤ u && u ≤ 0xDBFF

def isLowSurrogate (u : UInt16) : Bool := 0xDC00 ≤ u && u ≤ 0xDFFF

/-- The one or two units of a character. -/
def unitsOfChar (c : Char) : List UInt16 :=
  if c.toNat < 0x10000 then [UInt16.ofNat c.toNat]
  else
    let rest := c.toNat - 0x10000
    [UInt16.ofNat (0xD800 + rest / 0x400), UInt16.ofNat (0xDC00 + rest % 0x400)]

def ofChars (cs : List Char) : Text := ⟨cs.flatMap unitsOfChar⟩

def ofString (s : String) : Text := ofChars s.toList

instance : Coe String Text := ⟨ofString⟩

/-- The decimal digits of a natural number. -/
def ofNat (n : Nat) : Text := ofChars (Nat.toDigits 10 n)

/-- Every surrogate stands in a pair. -/
def wellFormedUnits : List UInt16 → Bool
  | [] => true
  | [u] => !isHighSurrogate u && !isLowSurrogate u
  | u :: v :: rest =>
    if isHighSurrogate u then isLowSurrogate v && wellFormedUnits rest
    else !isLowSurrogate u && wellFormedUnits (v :: rest)

/-- No lone surrogate occurs. -/
def wellFormed (t : Text) : Bool := wellFormedUnits t.units

/-- What stands for a lone surrogate in a lossy text. -/
def replacement : UInt16 := 0xFFFD

def lossyUnits : List UInt16 → List UInt16
  | [] => []
  | [u] => if isHighSurrogate u || isLowSurrogate u then [replacement] else [u]
  | u :: v :: rest =>
    if isHighSurrogate u then
      if isLowSurrogate v then u :: v :: lossyUnits rest
      else replacement :: lossyUnits (v :: rest)
    else if isLowSurrogate u then replacement :: lossyUnits (v :: rest)
    else u :: lossyUnits (v :: rest)

/-- The text with every lone surrogate replaced by U+FFFD; one without stays as it is. -/
def lossy (t : Text) : Text := if t.wellFormed then t else ⟨lossyUnits t.units⟩

def charsOfUnits : List UInt16 → List Char
  | [] => []
  | [u] => [Char.ofNat u.toNat]
  | u :: v :: rest =>
    if isHighSurrogate u && isLowSurrogate v then
      Char.ofNat (0x10000 + (u.toNat - 0xD800) * 0x400 + (v.toNat - 0xDC00)) :: charsOfUnits rest
    else Char.ofNat u.toNat :: charsOfUnits (v :: rest)

/-- The characters of a text, lone surrogates as U+FFFD. -/
def toLossyString (t : Text) : String := String.ofList (charsOfUnits t.lossy.units)

/-- The string with these units, if there is one. -/
def toString? (t : Text) : Option String :=
  if t.wellFormed then some (String.ofList (charsOfUnits t.units)) else none

/-! ## Digits and searching -/

def isDigit (u : UInt16) : Bool := 0x30 ≤ u && u ≤ 0x39

/-- The number that decimal digits spell. -/
def digitsValue (us : List UInt16) : Nat :=
  us.foldl (fun n u => 10 * n + (u.toNat - 0x30)) 0

/-- Position of the first unit equal to `u`. -/
def indexOf? (t : Text) (u : UInt16) : Option Nat := t.units.findIdx? (· == u)

def unitAt? (t : Text) (i : Nat) : Option UInt16 := t.units[i]?

end Text

end ObjectModel
