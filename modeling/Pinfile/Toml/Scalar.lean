import Pinfile.Text.Digits
import Pinfile.Toml.Value

/-!
# TOML scalars

Booleans, integers, floats, dates and times are single tokens: runs of letters, digits, signs,
underscores, dots and colons. A date may be followed by one space and a time. Of a float and of a
date-time only the kind is kept, but a token that breaks their rules is no value at all.

* Underscores stand between digits only; a decimal number has no leading zero.
* An integer lies between `-2 ^ 63` and `2 ^ 63 - 1`.
* A float above the largest one is refused; below the least one it is negative infinity.
* The day of a date exists in its month; a minute may have a leap second.
-/

namespace Pinfile.Toml

/-! ## Digits -/

/-- The characters of a scalar. -/
def isTokenChar (c : Char) : Bool :=
  c.isAlphanum || c == '+' || c == '-' || c == '_' || c == '.' || c == ':'

/-- The digits of a run in which single underscores may stand between digits. -/
def digitRun? (isDigit : Char → Bool) (cs : List Char) : Option (List Char) :=
  let parts := cs.splitOn '_'
  if parts.all fun part => !part.isEmpty && part.all isDigit then some parts.flatten else none

/-- The digits of a decimal number without sign: a run with no leading zero. -/
def decimalRun? (cs : List Char) : Option (List Char) :=
  (digitRun? Char.isDigit cs).filter fun digits => digits.length == 1 || digits.head? != some '0'

/-- Splits off a sign: whether it is a minus, and what follows it. -/
def splitSign : List Char → Bool × List Char
  | '+' :: rest => (false, rest)
  | '-' :: rest => (true, rest)
  | cs => (false, cs)

/-! ## Integers -/

/-- The least natural number that an integer cannot hold. -/
def integerBound : Int := 0x8000000000000000

/-- The integer, if it is in range. -/
def inRange? (n : Int) : Option Int :=
  if -integerBound ≤ n ∧ n < integerBound then some n else none

/-- The digits of a number in base eight. -/
def isOctDigit (c : Char) : Bool := '0' ≤ c && c ≤ '7'

/-- The digits of a number in base two. -/
def isBinDigit (c : Char) : Bool := c == '0' || c == '1'

/-- The number of digits in the given base. -/
def ofBase (base : Nat) (digits : List Char) : Nat :=
  digits.foldl (fun n c => base * n + (Text.Hex.value? c).getD 0) 0

/-- Reads an integer. -/
def integer? : List Char → Option Int
  | '0' :: 'x' :: rest =>
    (digitRun? (fun c => (Text.Hex.value? c).isSome) rest).bind fun ds => inRange? (ofBase 16 ds)
  | '0' :: 'o' :: rest => (digitRun? isOctDigit rest).bind fun ds => inRange? (ofBase 8 ds)
  | '0' :: 'b' :: rest => (digitRun? isBinDigit rest).bind fun ds => inRange? (ofBase 2 ds)
  | cs =>
    let (negative, body) := splitSign cs
    (decimalRun? body).bind fun ds =>
      inRange? (if negative then -(Text.ofDigits ds : Int) else Text.ofDigits ds)

/-! ## Floats -/

/-- The least number that is rounded to more than the largest finite float. -/
def floatLimit : Nat := (Nat.pow 2 54 - 1) * Nat.pow 2 970

/-- The number with the given digits times a power of ten is too large for a float. The limit has
309 digits, so the power is only computed when the number has as many. -/
def isTooLarge (digits : List Char) (exponent : Int) : Bool :=
  let n := Text.ofDigits digits
  let magnitude := (n.repr.length : Int) + exponent
  if n = 0 ∨ magnitude < 309 then false
  else if magnitude > 309 then true
  else
    match exponent with
    | .ofNat e => decide (floatLimit ≤ n * Nat.pow 10 e)
    | .negSucc e => decide (floatLimit * Nat.pow 10 (e + 1) ≤ n)

/-- Cuts a text at its first character that satisfies the test, which is left out. -/
def cutWhere (test : Char → Bool) (cs : List Char) : List Char × Option (List Char) :=
  match cs.dropWhile fun c => !test c with
  | [] => (cs, none)
  | _ :: rest => (cs.takeWhile fun c => !test c, some rest)

/-- Reads an exponent. -/
def exponent? (cs : List Char) : Option Int :=
  let (negative, body) := splitSign cs
  (digitRun? Char.isDigit body).map fun ds =>
    if negative then -(Text.ofDigits ds : Int) else Text.ofDigits ds

/-- The token is a float. -/
def isFloat (cs : List Char) : Bool :=
  let (negative, body) := splitSign cs
  if body = "inf".toList ∨ body = "nan".toList then true
  else
    let (mantissa, power) := cutWhere (fun c => c == 'e' || c == 'E') body
    let (whole, fraction) := cutWhere (· == '.') mantissa
    if power.isNone && fraction.isNone then false
    else
      match decimalRun? whole, fraction.elim (some []) (digitRun? Char.isDigit),
        power.elim (some 0) exponent? with
      | some whole, some fraction, some power =>
        negative || !isTooLarge (whole ++ fraction) (power - fraction.length)
      | _, _, _ => false

/-! ## Dates and times -/

/-- The number of two digits. -/
def pair? (a b : Char) : Option Nat :=
  if a.isDigit && b.isDigit then some (Text.ofDigits [a, b]) else none

/-- The number of two digits lies in the range. -/
def pairIn (low high : Nat) (a b : Char) : Bool :=
  (pair? a b).any fun n => low ≤ n && n ≤ high

/-- The year has a twenty-ninth of February. -/
def isLeapYear (year : Nat) : Bool := year % 4 == 0 && (year % 100 != 0 || year % 400 == 0)

/-- The number of days of a month. -/
def daysIn (year month : Nat) : Nat :=
  if month = 2 then if isLeapYear year then 29 else 28
  else if month = 4 ∨ month = 6 ∨ month = 9 ∨ month = 11 then 30
  else 31

/-- The text is a date. -/
def isDate : List Char → Bool
  | [y1, y2, y3, y4, '-', m1, m2, '-', d1, d2] =>
    match pair? y1 y2, pair? y3 y4, pair? m1 m2, pair? d1 d2 with
    | some century, some year, some month, some day =>
      1 ≤ month && month ≤ 12 && 1 ≤ day && day ≤ daysIn (100 * century + year) month
    | _, _, _, _ => false
  | _ => false

/-- What follows the fraction of a second, if there is one; `none` when a dot has no digits. -/
def afterFraction? : List Char → Option (List Char)
  | '.' :: rest =>
    if (rest.takeWhile Char.isDigit).isEmpty then none else some (rest.dropWhile Char.isDigit)
  | cs => some cs

/-- What follows the time at the beginning of the text. -/
def afterTime? : List Char → Option (List Char)
  | h1 :: h2 :: ':' :: m1 :: m2 :: ':' :: s1 :: s2 :: rest =>
    if pairIn 0 23 h1 h2 && pairIn 0 59 m1 m2 && pairIn 0 60 s1 s2 then afterFraction? rest else none
  | _ => none

/-- The text is empty or the offset of a time zone. -/
def isOffset : List Char → Bool
  | [] => true
  | ['Z'] => true
  | ['z'] => true
  | [sign, h1, h2, ':', m1, m2] =>
    (sign == '+' || sign == '-') && pairIn 0 23 h1 h2 && pairIn 0 59 m1 m2
  | _ => false

/-- The text is a time, which a date comes before: it may have an offset. -/
def isZonedTime (cs : List Char) : Bool := (afterTime? cs).any isOffset

/-- The token is a date, a time, or both with a `T` between them. -/
def isDateTime (cs : List Char) : Bool :=
  isDate cs || afterTime? cs == some [] ||
    (isDate (cs.take 10) && ((cs.drop 10).head?.any fun c => c == 'T' || c == 't') &&
      isZonedTime (cs.drop 11))

/-! ## Tokens -/

/-- The value of a token. -/
def scalar? (cs : List Char) : Option Value :=
  if cs = "true".toList then some (.boolean true)
  else if cs = "false".toList then some (.boolean false)
  else if isDateTime cs then some .dateTime
  else if isFloat cs then some .float
  else (integer? cs).map .integer

/-- Reads the token at the beginning of the text. A date takes a time after one space with it. -/
def readScalar (cs : List Char) : Option (Value × List Char) :=
  let token := cs.takeWhile isTokenChar
  let rest := cs.dropWhile isTokenChar
  match rest with
  | ' ' :: more =>
    let time := more.takeWhile isTokenChar
    if isDate token && !time.isEmpty then
      if isZonedTime time then some (.dateTime, more.dropWhile isTokenChar) else none
    else (scalar? token).map fun v => (v, rest)
  | _ => (scalar? token).map fun v => (v, rest)

example : integer? "-1_000".toList = some (-1000) ∧ integer? "01".toList = none := by
  decide +kernel
example : integer? "0x_1".toList = none ∧ integer? "0xFf".toList = some 255 := by decide +kernel
example : isDate "2024-02-29".toList ∧ ¬ isDate "2023-02-29".toList := by decide +kernel
example : isDateTime "1979-05-27T07:32:60.5-07:00".toList := by decide +kernel
example : isFloat "1e400".toList = false ∧ isFloat "-1e400".toList = true := by decide +kernel
example : isFloat "1.7976931348623157e308".toList ∧ ¬ isFloat "1.".toList := by decide +kernel

end Pinfile.Toml
