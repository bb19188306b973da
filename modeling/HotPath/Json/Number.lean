/-
  HotPath.Json.Number

  JSON numbers: their grammar, the integers they denote, and whether they fit a
  binary floating-point number of 64 bits.

  A number denotes an integer only if it has neither fraction nor exponent, is
  not `-0`, and fits a signed or an unsigned word. All others are taken for
  floating-point numbers, of which only one thing matters here: whether they
  are finite.
-/
import HotPath.Location

namespace HotPath.Json.Number

/-! ## Grammar -/

/-- The value of a decimal digit. -/
def digitVal (c : Char) : Nat := c.toNat - '0'.toNat

/-- One digit or more, and nothing else. -/
def isDigits (cs : List Char) : Bool :=
  !cs.isEmpty && cs.all Char.isDigit

/-- Text without a leading sign. -/
def dropSign : List Char → List Char
  | '+' :: cs => cs
  | '-' :: cs => cs
  | cs => cs

/-- An optional exponent up to the end. -/
def isExponent : List Char → Bool
  | [] => true
  | c :: cs => (c == 'e' || c == 'E') && isDigits (dropSign cs)

/-- An optional fraction and an optional exponent up to the end. -/
def isTail : List Char → Bool
  | '.' :: cs => isDigits (cs.takeWhile Char.isDigit) && isExponent (cs.dropWhile Char.isDigit)
  | cs => isExponent cs

/-- A number without its sign. -/
def isUnsigned : List Char → Bool
  | [] => false
  | '0' :: cs => isTail cs
  | c :: cs => c.isDigit && isTail (cs.dropWhile Char.isDigit)

/-- Whether a lexeme is a number. -/
def isNumber : List Char → Bool
  | '-' :: cs => isUnsigned cs
  | cs => isUnsigned cs

/-! ## Integers -/

/-- The number that digits denote. -/
def natOf (digits : List Char) : Nat :=
  digits.foldl (fun n c => 10 * n + digitVal c) 0

/-- The integer that a lexeme denotes, if it denotes one. -/
def int? (lexeme : String) : Option Int :=
  match lexeme.toList with
  | '-' :: cs =>
    if isDigits cs && decide (0 < natOf cs) && decide (natOf cs ≤ Word.half) then
      some (-(natOf cs : Int))
    else none
  | cs => if isDigits cs && decide (natOf cs ≤ Word.max) then some (natOf cs : Int) else none

/-! ## Floating-point range -/

/-- A number rounded to 53 significant bits, ties to even. -/
def round53 (n : Nat) : Nat :=
  if n < 9007199254740992 then n
  else
    let unit := 1 <<< (n.log2 - 52)
    let q := n / unit
    let r := n % unit
    if unit < 2 * r || (2 * r == unit && q % 2 == 1) then (q + 1) * unit else q * unit

/-- The leading digits that together fit a word, with their value so far. -/
def significand (n : Nat) : List Char → Nat × List Char
  | [] => (n, [])
  | c :: cs =>
    if Word.max < 10 * n + digitVal c then (n, c :: cs) else significand (10 * n + digitVal c) cs

/-- Whether `n * 10 ^ e` is finite: both factors are rounded, and so is the
product. -/
def isFiniteScaled (n : Nat) (e : Int) : Bool :=
  n == 0 || decide (e < 0) ||
    (decide (e ≤ 308) &&
      decide (round53 n * round53 (Nat.pow 10 e.toNat) < (1 <<< 1024) - (1 <<< 970)))

/-- The exponent after the letter `e`; one that does not fit 31 bits is
infinite, which is `none`. -/
def exponentOf (cs : List Char) : Option Int :=
  let n := natOf (dropSign cs)
  if 2147483648 ≤ n then none
  else match cs with
    | '-' :: _ => some (-(n : Int))
    | _ => some (n : Int)

/-- Whether a number lexeme denotes a finite number. Of the digits, only those
that fit a word count. -/
def isFinite (lexeme : String) : Bool :=
  let cs := match lexeme.toList with
    | '-' :: cs => cs
    | cs => cs
  let whole := cs.takeWhile Char.isDigit
  let afterWhole := cs.dropWhile Char.isDigit
  let (n, dropped) := significand 0 whole
  let (fraction, afterFraction) := match afterWhole with
    | '.' :: cs => (cs.takeWhile Char.isDigit, cs.dropWhile Char.isDigit)
    | cs => ([], cs)
  let (m, unread) := significand n fraction
  let shift : Int := (dropped.length : Int) - ((fraction.length - unread.length : Nat) : Int)
  match afterFraction with
  | [] => isFiniteScaled m shift
  | _ :: exponent =>
    match exponentOf exponent with
    | some e => isFiniteScaled m (shift + e)
    | none => m == 0 || exponent.head? == some '-'

/-! ## Writing -/

/-- The lexeme of an integer. -/
def ofInt (n : Int) : String := toString n

/-- The lexeme of a natural number. -/
def ofNat (n : Nat) : String := toString n

end HotPath.Json.Number
