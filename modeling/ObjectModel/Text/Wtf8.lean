import ObjectModel.Text.Basic

/-!
# Texts in bytes

WTF-8 writes every code point in one to four bytes, by the rule of UTF-8, and admits surrogates.
Two surrogates that make a pair are never written one by one: they are the code point above U+FFFF
that the pair stands for.  So a well-formed sequence of bytes is the form of one text only, and
where encoded texts are put together, surrogates that meet at the seam are joined.
-/

namespace ObjectModel

/-! ## Code points -/

namespace CodePoint

/-- The code points are the numbers below this one. -/
def limit : Nat := 0x110000

def isHighSurrogate (p : Nat) : Bool := 0xD800 ≤ p && p ≤ 0xDBFF

def isLowSurrogate (p : Nat) : Bool := 0xDC00 ≤ p && p ≤ 0xDFFF

/-- The code point that a pair of surrogates stands for. -/
def ofPair (high low : Nat) : Nat := 0x10000 + (high - 0xD800) * 0x400 + (low - 0xDC00)

/-- The one or two units of a code point. -/
def units (p : Nat) : List UInt16 :=
  if p < 0x10000 then [UInt16.ofNat p]
  else
    let rest := p - 0x10000
    [UInt16.ofNat (0xD800 + rest / 0x400), UInt16.ofNat (0xDC00 + rest % 0x400)]

/-- The one to four bytes of a code point: a first byte that tells their number, and six bits in
each of the others. -/
def bytes (p : Nat) : List UInt8 :=
  if p ≤ 0x7F then [UInt8.ofNat p]
  else if p ≤ 0x7FF then [UInt8.ofNat (p / 64 % 32 + 0xC0), UInt8.ofNat (p % 64 + 0x80)]
  else if p ≤ 0xFFFF then
    [UInt8.ofNat (p / 4096 % 16 + 0xE0), UInt8.ofNat (p / 64 % 64 + 0x80),
      UInt8.ofNat (p % 64 + 0x80)]
  else
    [UInt8.ofNat (p / 262144 % 8 + 0xF0), UInt8.ofNat (p / 4096 % 64 + 0x80),
      UInt8.ofNat (p / 64 % 64 + 0x80), UInt8.ofNat (p % 64 + 0x80)]

/-! ### Reading bytes

Bytes are read from the end: the bits of a byte that is not the first of its code point wait for
the first one. -/

/-- The bits of the code point in the first of several bytes. -/
def leadingBits (b : Nat) : Nat :=
  if b < 0xE0 then b % 32 else if b < 0xF0 then b % 16 else b % 8

/-- One more byte before the bits that wait and the code points read. -/
def readByte (b : UInt8) (state : List Nat × List Nat) : List Nat × List Nat :=
  if b.toNat < 0x80 then ([], b.toNat :: state.2)
  else if b.toNat < 0xC0 then (b.toNat % 64 :: state.1, state.2)
  else ([], state.1.foldl (fun p bits => 64 * p + bits) (leadingBits b.toNat) :: state.2)

/-- The code points of some bytes. -/
def ofBytes (bs : Array UInt8) : List Nat := (bs.foldr readByte ([], [])).2

theorem toNat_byte {n : Nat} (hn : n < 256) : (UInt8.ofNat n).toNat = n :=
  UInt8.toNat_ofNat_of_lt' hn

theorem readByte_single {n : Nat} (hn : n ≤ 0x7F) (state : List Nat × List Nat) :
    readByte (UInt8.ofNat n) state = ([], n :: state.2) := by
  rw [readByte, toNat_byte (by omega), if_pos (by omega)]

theorem readByte_following (n : Nat) (state : List Nat × List Nat) :
    readByte (UInt8.ofNat (n % 64 + 0x80)) state = (n % 64 :: state.1, state.2) := by
  rw [readByte, toNat_byte (by omega), if_neg (by omega), if_pos (by omega)]
  congr 2
  omega

theorem readByte_leading {n : Nat} (hn : 0xC0 ≤ n) (hlt : n < 256) (state : List Nat × List Nat) :
    readByte (UInt8.ofNat n) state =
      ([], state.1.foldl (fun p bits => 64 * p + bits) (leadingBits n) :: state.2) := by
  rw [readByte, toNat_byte hlt, if_neg (by omega), if_neg (by omega)]

/-- The bytes of a code point are read as it. -/
theorem foldr_readByte_bytes {p : Nat} (hp : p < limit) (ps : List Nat) :
    (bytes p).foldr readByte ([], ps) = ([], p :: ps) := by
  have hp : p < 0x110000 := hp
  unfold bytes
  split
  · next h => exact readByte_single h _
  · split
    · have hbits : leadingBits (p / 64 % 32 + 0xC0) = p / 64 := by
        rw [leadingBits, if_pos (by omega)]
        omega
      simp only [List.foldr_cons, List.foldr_nil, readByte_following]
      rw [readByte_leading (by omega) (by omega), hbits]
      simp only [List.foldl_cons, List.foldl_nil]
      rw [show 64 * (p / 64) + p % 64 = p by omega]
    · split
      · have hbits : leadingBits (p / 4096 % 16 + 0xE0) = p / 4096 := by
          rw [leadingBits, if_neg (by omega), if_pos (by omega)]
          omega
        simp only [List.foldr_cons, List.foldr_nil, readByte_following]
        rw [readByte_leading (by omega) (by omega), hbits]
        simp only [List.foldl_cons, List.foldl_nil]
        rw [show 64 * (64 * (p / 4096) + p / 64 % 64) + p % 64 = p by omega]
      · have hbits : leadingBits (p / 262144 % 8 + 0xF0) = p / 262144 := by
          rw [leadingBits, if_neg (by omega), if_neg (by omega)]
          omega
        simp only [List.foldr_cons, List.foldr_nil, readByte_following]
        rw [readByte_leading (by omega) (by omega), hbits]
        simp only [List.foldl_cons, List.foldl_nil]
        rw [show 64 * (64 * (64 * (p / 262144) + p / 4096 % 64) + p / 64 % 64) + p % 64 = p by omega]

/-- **Written code points are read back.** -/
theorem ofBytes_flatMap_bytes {ps : List Nat} (hps : ∀ p ∈ ps, p < limit) :
    ofBytes (ps.flatMap bytes).toArray = ps := by
  have hread : (ps.flatMap bytes).foldr readByte ([], []) = ([], ps) := by
    induction ps with
    | nil => rfl
    | cons p ps ih =>
      rw [List.flatMap_cons, List.foldr_append, ih fun q hq => hps q (List.mem_cons_of_mem p hq)]
      exact foldr_readByte_bytes (hps p List.mem_cons_self) ps
  rw [ofBytes, List.foldr_toArray, hread]

/-! ### Pairs -/

/-- The code point before others; a high surrogate joins a low one that comes next. -/
def attach (p : Nat) : List Nat → List Nat
  | [] => [p]
  | q :: rest =>
    if isHighSurrogate p && isLowSurrogate q then ofPair p q :: rest else p :: q :: rest

/-- Code points with no low surrogate after a high one. -/
def Separated : List Nat → Prop
  | [] => True
  | p :: rest =>
    p < limit ∧ (isHighSurrogate p = true → ∀ q ∈ rest.head?, isLowSurrogate q = false) ∧
      Separated rest

theorem Separated.lt_limit {ps : List Nat} (h : Separated ps) : ∀ p ∈ ps, p < limit := by
  induction ps with
  | nil => simp
  | cons p ps ih =>
    intro q hq
    rcases List.mem_cons.1 hq with rfl | hq
    · exact h.1
    · exact ih h.2.2 q hq

theorem ofPair_bounds {p q : Nat} (hp : isHighSurrogate p = true) (hq : isLowSurrogate q = true) :
    0x10000 ≤ ofPair p q ∧ ofPair p q < limit := by
  simp only [isHighSurrogate, isLowSurrogate, Bool.and_eq_true, decide_eq_true_eq] at hp hq
  unfold ofPair limit
  omega

theorem isHighSurrogate_eq_false {p : Nat} (hp : 0x10000 ≤ p) : isHighSurrogate p = false := by
  simp only [isHighSurrogate, Bool.and_eq_false_iff, decide_eq_false_iff_not]
  omega

/-- A joined pair joins nothing behind it. -/
theorem Separated.ofPair {p q : Nat} {rest : List Nat} (hp : isHighSurrogate p = true)
    (hq : isLowSurrogate q = true) (h : Separated (q :: rest)) :
    Separated (CodePoint.ofPair p q :: rest) := by
  obtain ⟨hge, hlt⟩ := ofPair_bounds hp hq
  refine ⟨hlt, fun hhigh => ?_, h.2.2⟩
  rw [isHighSurrogate_eq_false hge] at hhigh
  cases hhigh

theorem Separated.attach {p : Nat} {ps : List Nat} (hp : p < limit) (h : Separated ps) :
    Separated (CodePoint.attach p ps) := by
  cases ps with
  | nil => exact ⟨hp, fun _ => by simp, trivial⟩
  | cons q rest =>
    simp only [CodePoint.attach]
    split
    · next hpair =>
      obtain ⟨hhigh, hlow⟩ := Bool.and_eq_true_iff.1 hpair
      exact .ofPair hhigh hlow h
    · next hpair => exact ⟨hp, fun hhigh => by simpa [hhigh] using hpair, h⟩

theorem Separated.foldr_attach {ps qs : List Nat} (hps : ∀ p ∈ ps, p < limit) (h : Separated qs) :
    Separated (ps.foldr CodePoint.attach qs) := by
  induction ps with
  | nil => exact h
  | cons p ps ih =>
    exact (ih fun q hq => hps q (List.mem_cons_of_mem p hq)).attach (hps p List.mem_cons_self)

theorem separated_chars (cs : List Char) : Separated (cs.map Char.toNat) := by
  induction cs with
  | nil => trivial
  | cons c cs ih =>
    have hvalid := c.valid
    refine ⟨?_, fun hhigh => ?_, ih⟩
    · simp only [UInt32.isValidChar, Nat.isValidChar] at hvalid
      simp only [limit, Char.toNat]
      omega
    · simp only [UInt32.isValidChar, Nat.isValidChar] at hvalid
      simp only [isHighSurrogate, Char.toNat, Bool.and_eq_true, decide_eq_true_eq] at hhigh
      omega

end CodePoint

/-! ## Encoded texts -/

/-- Bytes that write code points one after the other, with no low surrogate after a high one. -/
def WellFormedBytes (bs : Array UInt8) : Prop :=
  ∃ ps, CodePoint.Separated ps ∧ (ps.flatMap CodePoint.bytes).toArray = bs

/-- A text in well-formed bytes. -/
structure Wtf8 where
  bytes : Array UInt8
  wellFormed : WellFormedBytes bytes
  deriving DecidableEq

namespace Wtf8

def size (w : Wtf8) : Nat := w.bytes.size

/-! Encoded texts are found by an order without a meaning of its own: by size, then byte by
byte. -/

instance : Ord Wtf8 := ⟨compareLex (compareOn size) (compareOn fun w => w.bytes.toList)⟩

instance : Std.TransOrd Wtf8 :=
  inferInstanceAs (Std.TransCmp (compareLex (compareOn size) (compareOn fun w => w.bytes.toList)))

instance : Std.LawfulEqOrd Wtf8 where
  eq_of_compare {v w} h := by
    have h : (compare v.size w.size).then (compare v.bytes.toList w.bytes.toList) = .eq := h
    rw [Ordering.then_eq_eq] at h
    cases v
    cases w
    cases Array.toList_inj.1 (Std.LawfulEqOrd.eq_of_compare h.2)
    rfl

/-- The code points of a text. -/
def points (w : Wtf8) : List Nat := CodePoint.ofBytes w.bytes

def units (w : Wtf8) : List UInt16 := w.points.flatMap CodePoint.units

/-- The text of code points. -/
def ofPoints (ps : List Nat) (h : CodePoint.Separated ps) : Wtf8 :=
  ⟨(ps.flatMap CodePoint.bytes).toArray, ps, h, rfl⟩

theorem points_ofPoints {ps : List Nat} (h : CodePoint.Separated ps) : (ofPoints ps h).points = ps :=
  CodePoint.ofBytes_flatMap_bytes h.lt_limit

theorem exists_eq_ofPoints (w : Wtf8) : ∃ ps, ∃ h : CodePoint.Separated ps, w = ofPoints ps h := by
  obtain ⟨bs, ps, h, rfl⟩ := w
  exact ⟨ps, h, rfl⟩

theorem separated_points (w : Wtf8) : CodePoint.Separated w.points := by
  obtain ⟨ps, h, rfl⟩ := w.exists_eq_ofPoints
  rw [points_ofPoints]
  exact h

def empty : Wtf8 := ofPoints [] trivial

/-- The text of a string, in the bytes of UTF-8. -/
def ofString (s : String) : Wtf8 where
  bytes := (s.toList.flatMap String.utf8EncodeChar).toArray
  wellFormed :=
    ⟨s.toList.map Char.toNat, CodePoint.separated_chars _, congrArg _ (List.flatMap_map ..)⟩

/-- The text of some units: pairs of surrogates are joined, lone ones are kept. -/
def ofUnits (us : List UInt16) : Wtf8 :=
  ofPoints ((us.map UInt16.toNat).foldr CodePoint.attach []) <|
    .foldr_attach (fun p hp => by
      obtain ⟨u, -, rfl⟩ := List.mem_map.1 hp
      exact Nat.lt_trans u.toNat_lt (by decide)) trivial

/-- One text after the other; surrogates that become a pair where they meet are joined. -/
def push (v w : Wtf8) : Wtf8 :=
  ofPoints (v.points.foldr CodePoint.attach w.points) <|
    .foldr_attach v.separated_points.lt_limit w.separated_points

/-- The code points of texts one after the other. -/
def joinedPoints (ws : List Wtf8) : List Nat :=
  ws.foldr (fun w ps => w.points.foldr CodePoint.attach ps) []

theorem separated_joinedPoints (ws : List Wtf8) : CodePoint.Separated (joinedPoints ws) := by
  induction ws with
  | nil => trivial
  | cons w ws ih => exact .foldr_attach w.separated_points.lt_limit ih

/-- All texts, one pushed after the other. -/
def concat (ws : List Wtf8) : Wtf8 := ofPoints (joinedPoints ws) (separated_joinedPoints ws)

end Wtf8

/-- Each byte as a unit. -/
def Text.ofBytes (bs : Array UInt8) : Text := ⟨bs.toList.map UInt8.toUInt16⟩

end ObjectModel
