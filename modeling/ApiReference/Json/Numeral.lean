import ApiReference.Json.Reader

/-!
# Numbers in JSON

None of the shapes read here holds a number, but a number may stand where another value is asked
for, and then it has to be a good one before it can be refused for its shape.  `readNumeral` reads
the digits; what is said about digits that are missing at the end of the text depends on who asks.

A number is too large if reading it as a double of the IEEE standard would give infinity.  Its
significand is the first digits of it that fit into 64 bits, and it is scaled by the power of ten
that the others stand for; significand and power are each rounded to 53 bits before they are
multiplied.  A negative power only makes a number smaller, so it never is too large.
-/

namespace ApiReference

set_option autoImplicit false

/-- The digits of a number, in its parts. -/
structure Numeral where
  whole : List Char
  fraction : List Char
  /-- The exponent is negative. -/
  shrinks : Bool
  exponent : List Char
deriving DecidableEq, Repr

/-! ## Reading -/

/-- Read a run of digits that may not be empty. -/
def readDigits (atEnd : JsonFailure) : JsonReader (List Char) := fun text =>
  match text with
  | [] => .error atEnd
  | first :: following =>
    if first.isDigit then
      .ok ⟨first :: following.takeWhile Char.isDigit, following.dropWhile Char.isDigit,
        Nat.lt_succ_of_le (List.dropWhile_sublist Char.isDigit).length_le⟩
    else .error .malformed

/-- Read the digits before the point; nothing may follow a leading zero. -/
def readWhole (atEnd : JsonFailure) : JsonReader (List Char) := fun text => do
  let digits ← readDigits atEnd text
  match digits.value with
  | '0' :: _ :: _ => .error .malformed
  | _ => .ok digits

/-- A part of a number that may be missing, with what stands behind it. -/
structure OptionalDigits (text : List Char) where
  digits : List Char
  negative : Bool
  rest : List Char
  notLonger : rest.length ≤ text.length

/-- Read the point and the digits behind it, if there is a point. -/
def readFraction (atEnd : JsonFailure) (text : List Char) :
    Except JsonFailure (OptionalDigits text) :=
  match text with
  | '.' :: following => do
    let digits ← readDigits atEnd following
    .ok ⟨digits.value, false, digits.rest,
      Nat.le_succ_of_le (Nat.le_of_lt digits.shorter)⟩
  | other => .ok ⟨[], false, other, Nat.le_refl _⟩

/-- Read the exponent with its sign, if there is one. -/
def readExponent (atEnd : JsonFailure) (text : List Char) :
    Except JsonFailure (OptionalDigits text) :=
  match text with
  | [] => .ok ⟨[], false, [], Nat.le_refl _⟩
  | mark :: following =>
    if mark = 'e' ∨ mark = 'E' then
      match following with
      | [] => .error atEnd
      | sign :: beyond =>
        if sign = '+' ∨ sign = '-' then do
          let digits ← readDigits atEnd beyond
          .ok ⟨digits.value, sign = '-', digits.rest, by
            have := digits.shorter
            simp only [List.length_cons]
            omega⟩
        else do
          let digits ← readDigits atEnd (sign :: beyond)
          .ok ⟨digits.value, false, digits.rest,
            Nat.le_succ_of_le (Nat.le_of_lt digits.shorter)⟩
    else .ok ⟨[], false, mark :: following, Nat.le_refl _⟩

/-- Read a number without its sign. -/
def readUnsigned (atEnd : JsonFailure) : JsonReader Numeral := fun text => do
  let whole ← readWhole atEnd text
  let fraction ← readFraction atEnd whole.rest
  let exponent ← readExponent atEnd fraction.rest
  .ok ⟨⟨whole.value, fraction.digits, exponent.negative, exponent.digits⟩, exponent.rest,
    Nat.lt_of_le_of_lt (Nat.le_trans exponent.notLonger fraction.notLonger) whole.shorter⟩

/-- Read a number. -/
def readNumeral (atEnd : JsonFailure) : JsonReader Numeral := fun text =>
  match text with
  | '-' :: following => do
    let numeral ← readUnsigned atEnd following
    .ok (numeral.ofLe (Nat.le_succ _))
  | other => readUnsigned atEnd other

/-! ## Size -/

/-- The value of a run of digits. -/
def digitsValue (digits : List Char) : Nat :=
  digits.foldl (fun value digit => value * 10 + (digit.toNat - '0'.toNat)) 0

/-- A significand with the power of ten it is scaled by. -/
structure Scaled where
  significand : Nat
  power : Int
deriving DecidableEq, Repr

namespace Scaled

/-- The largest significand. -/
def limit : Nat := Nat.pow 2 64 - 1

/-- Take in the digits before the point.  Once a digit does not fit, it and all others only scale
the significand. -/
def addWhole (scaled : Scaled) : List Char → Scaled
  | [] => scaled
  | digit :: later =>
    let next := scaled.significand * 10 + digitsValue [digit]
    if next ≤ limit then addWhole { scaled with significand := next } later
    else { scaled with power := scaled.power + (digit :: later).length }

/-- Take in the digits behind the point, up to the first that does not fit. -/
def addFraction (scaled : Scaled) : List Char → Scaled
  | [] => scaled
  | digit :: later =>
    let next := scaled.significand * 10 + digitsValue [digit]
    if next ≤ limit then addFraction ⟨next, scaled.power - 1⟩ later else scaled

end Scaled

/-- A number rounded to 53 significant bits; a half goes to the even neighbour. -/
def roundSignificand (value : Nat) : Nat :=
  let excess := value.log2 + 1 - 53
  let unit := Nat.pow 2 excess
  let quotient := value / unit
  let remainder := value % unit
  let up := unit < 2 * remainder || (unit = 2 * remainder && quotient % 2 = 1)
  (if up then quotient + 1 else quotient) * unit

/-- From here on a number rounds to infinity. -/
def infinityBound : Nat := Nat.pow 2 1024 - Nat.pow 2 970

namespace Numeral

/-- The significand and the power of ten of a number. -/
def scaled (numeral : Numeral) : Scaled :=
  let digits := (Scaled.addWhole ⟨0, 0⟩ numeral.whole).addFraction numeral.fraction
  let exponent : Int := digitsValue numeral.exponent
  { digits with
    power := if numeral.shrinks then digits.power - exponent else digits.power + exponent }

/-- The largest power of ten that is a finite double. -/
def largestPower : Nat := 308

/-- The number would be infinite as a double. -/
def isTooLarge (numeral : Numeral) : Bool :=
  let scaled := numeral.scaled
  scaled.significand ≠ 0 && 0 ≤ scaled.power &&
    (largestPower < scaled.power.toNat ||
      infinityBound ≤
        roundSignificand scaled.significand * roundSignificand (Nat.pow 10 scaled.power.toNat))

end Numeral

end ApiReference
