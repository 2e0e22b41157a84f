/-
The texts of binary64 numbers.

A numeral is laid out from its significant digits and the exponent of the first of them. A
`Layout` holds the decisions of a text format: which exponents are written out as positions, and
whether a whole number keeps a fraction. The digits are the shortest that read back in every
layout, so the choice of layout never changes the number.

Texts are lists of characters here because what is said about them counts, cuts and compares
characters.
-/
import Metrology.Decimal.Shortest
set_option autoImplicit false

namespace Metrology

namespace Decimal

/-! ## 1. Digits laid out -/

/-- The digits without the zeros at the end. -/
def significant (d : Decimal) : List Char :=
  ((digits d.coefficient).reverse.dropWhile (· == '0')).reverse

/-- The exponent of the first digit. -/
def lead (d : Decimal) : Int := d.topExponent - 1

/-- Digits in their positions, the first at `10 ^ lead`, filled up with zeros to the point. A
number without a fraction gets one only where `wholePoint` asks for it. -/
def positional (wholePoint : Bool) (ds : List Char) (lead : Int) : List Char :=
  if lead < 0 then
    '0' :: '.' :: (List.replicate (-lead - 1).toNat '0' ++ ds)
  else
    let width := lead.toNat + 1
    let whole := ds.take width ++ List.replicate (width - ds.length) '0'
    match ds.drop width with
    | [] => if wholePoint then whole ++ ['.', '0'] else whole
    | fraction => whole ++ '.' :: fraction

/-- An integer with a sign only below zero. -/
def integer (n : Int) : List Char :=
  if n < 0 then '-' :: digits n.natAbs else digits n.natAbs

/-- One digit before the point, the others after it, and the exponent. -/
def scientific (ds : List Char) (lead : Int) : List Char :=
  let mantissa := match ds with
    | d :: e :: r => d :: '.' :: e :: r
    | ds => ds
  mantissa ++ 'e' :: integer lead

end Decimal

/-! ## 2. Layouts -/

/-- The decisions of a text format for numbers. -/
structure Layout where
  /-- The least and the greatest exponent of the first digit that is written positionally; without
  them every one is. -/
  positions : Option (Int × Int)
  /-- A whole number is written with `.0`. -/
  wholePoint : Bool

/-- Plain numbers: no exponent ever, and whole numbers without a point (`Display` of a number). -/
def Layout.plain : Layout := ⟨none, false⟩

/-- Numbers that show they are not integers (`Debug` of a number): whole ones keep `.0`, and from
`10 ^ 16` up as well as below `10 ^ -4` there is an exponent. -/
def Layout.pointed : Layout := ⟨some (-4, 15), true⟩

/-- The exponent is written out as positions. -/
def Layout.isPositional (layout : Layout) (lead : Int) : Bool :=
  match layout.positions with
  | none => true
  | some (least, greatest) => decide (least ≤ lead ∧ lead ≤ greatest)

/-- The digits and exponent of a number without its sign; zero is the digit `0` at the units. -/
def Layout.body (layout : Layout) (ds : List Char) (lead : Int) : List Char :=
  if layout.isPositional lead then Decimal.positional layout.wholePoint ds lead
  else Decimal.scientific ds lead

/-- The text of a number in a layout. -/
def Binary64.numeral (layout : Layout) (x : Binary64) : List Char :=
  match x with
  | .nan => ['N', 'a', 'N']
  | .infinite s => (if s then ['-'] else []) ++ ['i', 'n', 'f']
  | .finite s n _ =>
    let body :=
      if n = 0 then layout.body ['0'] 0
      else
        let d := Decimal.shortest x.abs
        layout.body d.significant d.lead
    (if s then ['-'] else []) ++ body

/-! ## 3. Signed exponents -/

/-- Writes the exponent of a numeral with a sign and at least two digits: `1e20` as `1e+20` and
`1.2e-5` as `1.2e-05` (`signed_exponent`). A text without an exponent is left alone. -/
def signedExponent (text : List Char) : List Char :=
  match text.dropWhile (· != 'e') with
  | [] => text
  | _ :: exponent =>
    let (sign, ds) := match exponent with
      | '-' :: ds => ('-', ds)
      | ds => ('+', ds)
    text.takeWhile (· != 'e') ++ 'e' :: sign :: (List.replicate (2 - ds.length) '0' ++ ds)

end Metrology
