/-
Reading numbers.

The notation is the usual one for floating-point numbers: an optional sign, digits with an optional
point among them, which need not stand on both sides of it, and an optional power of ten behind an
`e`. Infinities and NaN are written as words. The decimal that is written is taken as it stands and
rounded once, whatever the number of its digits.
-/
import Metrology.Decimal.Basic
set_option autoImplicit false

namespace Metrology

namespace Decimal

/-- One or more of the ten ASCII digits. -/
def isDigits (cs : List Char) : Bool := !cs.isEmpty && cs.all Char.isDigit

/-- The sign at the head of a text, positive where there is none, and the rest. -/
def splitSign : List Char → Bool × List Char
  | '-' :: cs => (true, cs)
  | '+' :: cs => (false, cs)
  | cs => (false, cs)

/-- The power of ten behind the digits; zero where there is none. -/
def readExponent? : List Char → Option Int
  | [] => some 0
  | c :: cs =>
    if c = 'e' || c = 'E' then
      let (negative, ds) := splitSign cs
      if isDigits ds then some (if negative then -(ofDigits ds : Int) else ofDigits ds) else none
    else none

/-- The decimal of a text without sign: all digits as one coefficient, with as many places as follow
the point. -/
def read? (cs : List Char) : Option Decimal :=
  let (whole, rest) := cs.span Char.isDigit
  let (fraction, rest) :=
    match rest with
    | '.' :: rest => rest.span Char.isDigit
    | rest => ([], rest)
  if whole.isEmpty && fraction.isEmpty then none
  else
    (readExponent? rest).map fun e => ⟨ofDigits (whole ++ fraction), e - (fraction.length : Int)⟩

end Decimal

namespace Binary64

/-- The number of a word, in letters of any case, with the given sign. -/
def ofWord? (negative : Bool) (cs : List Char) : Option Binary64 :=
  let word := cs.map Char.toLower
  if word = ['i', 'n', 'f'] || word = ['i', 'n', 'f', 'i', 'n', 'i', 't', 'y'] then
    some (.infinite negative)
  else if word = ['n', 'a', 'n'] then some .nan
  else none

/-- The number that a text denotes, if it denotes one (`parse`). -/
def read? (cs : List Char) : Option Binary64 :=
  let (negative, rest) := Decimal.splitSign cs
  match ofWord? negative rest with
  | some x => some x
  | none => (Decimal.read? rest).map (Decimal.toBinary64 negative)

end Binary64

end Metrology
