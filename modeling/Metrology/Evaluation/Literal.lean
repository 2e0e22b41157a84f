/-
Number literals.

A numeric token is a decimal, `digits` or `digits.digits`, with an optional power of ten behind it,
`*10^digits` or `*10^-digits`. Its power of ten is put behind an `e` and the whole is read as one
number, rounded once, so `1.2*10^-3` and `0.0012` are the same number. A literal is one token, an
exact number, or two, a magnitude and its reading error.

`Literal.scientific` rewrites a token or says what is wrong with the form; the range is a question
about the number and comes last.
-/
import Metrology.Decimal.Reader
import Metrology.Evaluation.Interrupt
set_option autoImplicit false

namespace Metrology.Literal

/-! ## 1. Two parts of a text -/

/-- The text before and after the first `c`; none where there is no `c`. -/
def splitAt? (c : Char) : List Char → Option (List Char × List Char)
  | [] => none
  | d :: ds =>
    if d = c then some ([], ds)
    else (splitAt? c ds).map fun (before, after) => (d :: before, after)

/-- The parts around the first `c` are `before` and `after` exactly when the text is the two with
`c` between them and `before` holds no `c`. -/
theorem splitAt?_eq_some_iff {c : Char} {cs before after : List Char} :
    splitAt? c cs = some (before, after) ↔ cs = before ++ c :: after ∧ c ∉ before := by
  induction cs generalizing before with
  | nil => simp [splitAt?]
  | cons d ds ih =>
    by_cases hd : d = c
    · subst hd
      cases before with
      | nil => simp [splitAt?, eq_comm]
      | cons b bs => simp [splitAt?]; grind
    · cases before with
      | nil => simp [splitAt?, hd]
      | cons b bs =>
        simp only [splitAt?, if_neg hd, Option.map_eq_some_iff, Prod.mk.injEq, Prod.exists,
          List.cons.injEq, List.cons_append, List.mem_cons, not_or]
        constructor
        · rintro ⟨p, q, hpq, ⟨rfl, rfl⟩, rfl⟩
          have := ih.1 hpq
          exact ⟨⟨rfl, this.1⟩, Ne.symm hd, this.2⟩
        · rintro ⟨⟨rfl, h⟩, _, hn⟩
          exact ⟨bs, after, ih.2 ⟨h, hn⟩, ⟨rfl, rfl⟩, rfl⟩

/-! ## 2. The number of a token -/

/-- What can be wrong with a numeric token. -/
inductive Fault where
  /-- What follows the `*` is no power of ten. -/
  | power
  | mantissa
  | exponent
  /-- The rewritten token cannot be read. -/
  | number
  /-- The number is larger than the finite ones. -/
  | range
  deriving DecidableEq

/-- What is wrong with a token, in words. -/
def Fault.remark : Fault → String
  | power => "exponent must be `*10^n`"
  | mantissa => "invalid mantissa"
  | exponent => "invalid exponent"
  | number => "not a number"
  | range => "out of range"

/-- The detail of a malformed literal: the token and what is wrong with it. -/
def Fault.detail (token : String) (f : Fault) : String := "`" ++ token ++ "`: " ++ f.remark

/-- `digits` or `digits.digits` (`is_decimal`). -/
def isDecimal (cs : List Char) : Bool :=
  match splitAt? '.' cs with
  | none => Decimal.isDigits cs
  | some (whole, fraction) => Decimal.isDigits whole && Decimal.isDigits fraction

/-- The text without a minus in front. -/
def dropMinus : List Char → List Char
  | '-' :: cs => cs
  | cs => cs

/-- The text after `10^`. -/
def power? : List Char → Option (List Char)
  | '1' :: '0' :: '^' :: cs => some cs
  | _ => none

/-- The token with its power of ten behind an `e`. Of several faults the missing power of ten is
found first, then the mantissa, then the exponent. -/
def scientific (cs : List Char) : Except Fault (List Char) :=
  match splitAt? '*' cs with
  | none => if isDecimal cs then .ok cs else .error .mantissa
  | some (mantissa, after) =>
    match power? after with
    | none => .error .power
    | some exponent =>
      if !isDecimal mantissa then .error .mantissa
      else if !Decimal.isDigits (dropMinus exponent) then .error .exponent
      else .ok (mantissa ++ 'e' :: exponent)

/-- The number of a token, while it is finite. -/
def read (cs : List Char) : Except Fault Binary64 :=
  match scientific cs with
  | .error f => .error f
  | .ok text =>
    match Binary64.read? text with
    | none => .error .number
    | some x => if x.isFinite then .ok x else .error .range

/-! ## 3. Literals -/

/-- The number of a numeric token (`decode_token`). -/
def decodeToken (token : String) : Except Failure Binary64 :=
  match read token.toList with
  | .ok x => .ok x
  | .error f => .error (.of (.malformedLiteral (f.detail token)))

/-- The measured value of the numeric tokens of a literal (`decode_number`). -/
def decode : List String → Except Failure Measurement
  | [] => .error (.of (.malformedLiteral "expected a magnitude, got no tokens"))
  | [magnitude] => do return .exact (← decodeToken magnitude)
  | [magnitude, uncertainty] => do
    return .reading (← decodeToken magnitude) (← decodeToken uncertainty)
  | tokens =>
    .error (.of (.malformedLiteral
      ("expected at most 2 tokens, got " ++ Nat.repr tokens.length)))

/-- Tokens that may stand between magnitude and uncertainty (`SEPARATORS`). -/
def separators : List String := ["±", "+-"]

/-- A token that separates and is no part of the number (`is_separator`). -/
def isSeparator (token : String) : Bool := separators.contains token

/-- The content of a text literal: the token without its first and last character (`eval_text`). -/
def unquote? (token : String) : Option String :=
  match token.toList with
  | _ :: c :: cs => some (String.ofList (c :: cs).dropLast)
  | _ => none

end Metrology.Literal
