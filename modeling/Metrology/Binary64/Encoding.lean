/-
The interchange encoding of binary64: 64 bits, of which the top one is the sign, the next eleven
the exponent field and the rest the fraction.

In quanta the encoding is almost the count itself. Below `2 ^ 53` the fields read as one number
*are* the count; further up the exponent field says by how many binary places the 53 significant
bits are shifted, plus one.
-/
import Metrology.Binary64.Basic
set_option autoImplicit false

namespace Metrology.Binary64

/-- The bits of the fraction field. -/
def fractionBits : Nat := 52

/-- The bits of the exponent field. -/
def exponentBits : Nat := 11

/-- The weight of the sign bit. -/
def signWeight : Nat := 2 ^ (fractionBits + exponentBits)

/-- The exponent field of infinities and NaN. -/
def specialField : Nat := 2047

/-- The count of quanta that the two fields below the sign stand for. An exponent field of zero
has no leading one. -/
def quantaOfFields (exponent fraction : Nat) : Nat :=
  if exponent = 0 then fraction
  else (2 ^ fractionBits + fraction) * 2 ^ (exponent - 1)

/-- Reads 64 bits; every NaN pattern is the one NaN. -/
def ofBits (bits : Nat) : Binary64 :=
  let negative := bits / signWeight % 2 = 1
  let exponent := bits / 2 ^ fractionBits % 2 ^ exponentBits
  let fraction := bits % 2 ^ fractionBits
  if exponent = specialField then
    if fraction = 0 then .infinite negative else .nan
  else ofRatio negative (quantaOfFields exponent fraction) 1

/-- The fields of a count of quanta, read as one number. -/
def fieldsOfQuanta (n : Nat) : Nat :=
  let e := gridExponent n
  if n < 2 ^ fractionBits then n
  else (e + 1) * 2 ^ fractionBits + (n / 2 ^ e - 2 ^ fractionBits)

/-- The 64 bits of a number; NaN is the positive quiet one. -/
def toBits : Binary64 → Nat
  | .finite s n _ => s.toNat * signWeight + fieldsOfQuanta n
  | .infinite s => s.toNat * signWeight + specialField * 2 ^ fractionBits
  | .nan => specialField * 2 ^ fractionBits + 2 ^ (fractionBits - 1)

end Metrology.Binary64
