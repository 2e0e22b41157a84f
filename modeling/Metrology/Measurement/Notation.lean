/-
How a measured value is written: the magnitude and its uncertainty, `1234.57±0.05`.

The uncertainty is the larger channel, shown to one significant digit, and the magnitude is rounded
to the place of that digit. An uncertainty of a whole number of units keeps a point behind it, so
`4.` and `500.` are uncertainties of one significant digit and the zeros only hold the place; that
place still decides how far the magnitude is rounded. An uncertainty of zero, or one that is not
finite, has no digit and rounds to units.
-/
import Metrology.Measurement.Average
set_option autoImplicit false

namespace Metrology

/-- An uncertainty as it is written, with the decimal places that the place of its digit implies; a
negative count means tens, hundreds and so on (`ErrorDigit`). -/
structure ErrorDigit where
  text : List Char
  places : Int
  deriving DecidableEq

/-- One digit at the place `10 ^ place`, with the zeros that hold the place. -/
def ErrorDigit.ofPlace (digit : Nat) (place : Int) : ErrorDigit where
  text :=
    if place < 0 then
      '0' :: '.' :: (List.replicate (-place - 1).toNat '0' ++ Decimal.digits digit)
    else Decimal.digits digit ++ List.replicate place.toNat '0' ++ ['.']
  places := -place

/-- The written form of an uncertainty (`error_digit`). -/
def ErrorDigit.of (error : Binary64) : ErrorDigit :=
  if !error.isFinite then ⟨error.numeral .plain, 0⟩
  else if error.isZero then ⟨['0', '.'], 0⟩
  else
    let d := Decimal.oneDigit error.quanta
    .ofPlace d.coefficient d.exponent

namespace Measurement

/-- The written uncertainty. -/
def errorDigit (m : Measurement) : ErrorDigit := .of m.error

/-- The written magnitude, rounded to the place of the uncertainty's digit. With `errorDigit` these
are the two parts of every written form (`display_parts`). -/
def magnitudeText (m : Measurement) : List Char :=
  signedExponent ((m.magnitude.roundToPlaces m.errorDigit.places).numeral .pointed)

/-- Magnitude and uncertainty around a `±`. -/
def render (m : Measurement) : List Char := m.magnitudeText ++ '±' :: m.errorDigit.text

/-- The same two parts in the mathematics mode of a LaTeX text (`latex`). -/
def renderLatex (m : Measurement) : List Char :=
  '$' :: m.magnitudeText ++ " \\pm ".toList ++ m.errorDigit.text ++ ['$']

/-- The written form as a string. -/
def text (m : Measurement) : String := String.ofList m.render

/-- The LaTeX form as a string. -/
def latex (m : Measurement) : String := String.ofList m.renderLatex

end Measurement

end Metrology
