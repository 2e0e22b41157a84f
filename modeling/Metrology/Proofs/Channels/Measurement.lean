/-
Measured values that agree on a choice of channels.

`Channels` chooses which of the two uncertainties are looked at, and two measured values agree on a
choice if their magnitudes are the same and so is each chosen uncertainty. Leaving one channel out
of the choice says that nothing is known about it.

Every operation takes agreeing values to agreeing ones, for every choice. The reason is the shape of
the operations and not what is computed in them: a magnitude comes from magnitudes alone, and a
channel from magnitudes and the same channel. So the numerics stay arbitrary throughout, and the two
lemmas that carry the others, about `perChannel` and `perChannels`, are about arbitrary rules.
-/
import Metrology.Measurement.Average
import Metrology.Proofs.Lockstep
set_option autoImplicit false

namespace Metrology

/-! ## 1. Agreement -/

/-- The channels that are looked at. -/
structure Channels where
  reading : Bool
  standard : Bool
  deriving DecidableEq

namespace Measurement

/-- The same magnitude, and the same uncertainty in every channel that is looked at. -/
structure Agree (c : Channels) (m n : Measurement) : Prop where
  magnitude : m.magnitude = n.magnitude
  reading : c.reading = true → m.readingError = n.readingError
  standard : c.standard = true → m.standardError = n.standardError

variable {c : Channels} {m n m' n' : Measurement}

theorem Agree.refl (c : Channels) (m : Measurement) : m.Agree c m :=
  ⟨rfl, fun _ => rfl, fun _ => rfl⟩

/-- A rule that is applied to each channel of one value by itself. -/
theorem Agree.perChannel (h : m.Agree c n) (x : Binary64) (rule : Binary64 → Binary64) :
    (m.perChannel x rule).Agree c (n.perChannel x rule) where
  magnitude := rfl
  reading hc := congrArg rule (h.reading hc)
  standard hc := congrArg rule (h.standard hc)

/-- A rule that is applied to the same channel of two values. -/
theorem Agree.perChannels (h : m.Agree c n) (h' : m'.Agree c n') (x : Binary64)
    (rule : Binary64 → Binary64 → Binary64) :
    (m.perChannels m' x rule).Agree c (n.perChannels n' x rule) where
  magnitude := rfl
  reading hc := congrArg₂ rule (h.reading hc) (h'.reading hc)
  standard hc := congrArg₂ rule (h.standard hc) (h'.standard hc)

/-! ## 2. Arithmetic

Each operation is one of the two patterns above with a magnitude and a rule that are made from
magnitudes. On agreeing operands these are the same, which is what the rewriting in each proof is
for. -/

variable [Numerics]

/-- A sum adds each channel in quadrature (`add`). -/
theorem Agree.add (h : m.Agree c n) (h' : m'.Agree c n') : (m + m').Agree c (n + n') := by
  show (m.add m').Agree c (n.add n')
  rw [Measurement.add, Measurement.add, h.magnitude, h'.magnitude]
  exact h.perChannels h' _ _

/-- A difference adds each channel in quadrature (`sub`). -/
theorem Agree.sub (h : m.Agree c n) (h' : m'.Agree c n') : (m - m').Agree c (n - n') := by
  show (m.sub m').Agree c (n.sub n')
  rw [Measurement.sub, Measurement.sub, h.magnitude, h'.magnitude]
  exact h.perChannels h' _ _

/-- A product scales the relative uncertainties of the same channel (`mul`). -/
theorem Agree.mul (h : m.Agree c n) (h' : m'.Agree c n') : (m * m').Agree c (n * n') := by
  show (m.mul m').Agree c (n.mul n')
  rw [Measurement.mul, Measurement.mul, h.magnitude, h'.magnitude]
  exact h.perChannels h' _ _

/-- A quotient fails by the magnitude of the divisor, so on both sides or on neither. -/
theorem Agree.div (h : m.Agree c n) (h' : m'.Agree c n') :
    ExceptRel Eq (Measurement.Agree c) (m.div m') (n.div n') := by
  rw [Measurement.div, Measurement.div, h.magnitude, h'.magnitude]
  split
  · exact .error rfl
  · exact .ok (h.perChannels h' _ _)

/-- Negation is a product with an exact number (`neg`). -/
theorem Agree.neg (h : m.Agree c n) : (-m).Agree c (-n) :=
  h.mul (Agree.refl c _)

/-- The absolute value keeps both channels (`abs`). -/
theorem Agree.abs (h : m.Agree c n) : m.abs.Agree c n.abs where
  magnitude := congrArg Numerics.abs h.magnitude
  reading := h.reading
  standard := h.standard

/-- A power has the uncertainty of its base alone, channel by channel (`pow`). -/
theorem Agree.pow (h : m.Agree c n) (k : Int) :
    ExceptRel Eq (Measurement.Agree c) (m.pow k) (n.pow k) := by
  rw [Measurement.pow, Measurement.pow, h.magnitude]
  split
  · exact .error rfl
  · -- the power zero is exactly one, whatever the uncertainties
    dsimp only
    split
    · exact .ok (Agree.refl c _)
    · exact .ok (h.perChannel _ _)

/-! ## 3. Trigonometry

Each function multiplies a channel by a slope or divides it by one, and the slope is made from the
magnitude. -/

/-- The slope of the sine is the cosine of the magnitude. -/
theorem Agree.sine (h : m.Agree c n) : m.sine.Agree c n.sine := by
  rw [Measurement.sine, Measurement.sine, h.magnitude]
  exact h.perChannel _ _

/-- The slope of the cosine is the sine, without its sign. -/
theorem Agree.cosine (h : m.Agree c n) : m.cosine.Agree c n.cosine := by
  rw [Measurement.cosine, Measurement.cosine, h.magnitude]
  exact h.perChannel _ _

/-- A tangent is a quotient of a sine and a cosine. -/
theorem Agree.tangent (h : m.Agree c n) :
    ExceptRel Eq (Measurement.Agree c) m.tangent n.tangent :=
  h.sine.div h.cosine

/-- The arcsine divides by a root, where the magnitude is in its domain. -/
theorem Agree.arcsine (h : m.Agree c n) :
    ExceptRel Eq (Measurement.Agree c) m.arcsine n.arcsine := by
  rw [Measurement.arcsine, Measurement.arcsine, h.magnitude]
  -- the domain is tested on the magnitude
  dsimp only
  split
  · exact .ok (h.perChannel _ _)
  · exact .error rfl

/-- The arctangent divides by one and the square of the magnitude. -/
theorem Agree.arctangent (h : m.Agree c n) : m.arctangent.Agree c n.arctangent := by
  rw [Measurement.arctangent, Measurement.arctangent, h.magnitude]
  exact h.perChannel _ _

/-! ## 4. Averages

Both averages read magnitudes only, so samples that agree have the same average. -/

omit [Numerics] in
/-- Samples that agree have the same magnitudes. -/
theorem map_magnitude_eq {ms ns : List Measurement} (h : List.Forall₂ (Measurement.Agree c) ms ns) :
    ms.map Measurement.magnitude = ns.map Measurement.magnitude := by
  induction h with
  | nil => rfl
  | cons hm _ ih => rw [List.map_cons, List.map_cons, hm.magnitude, ih]

/-- An average of measurements is not affected by what their channels hold. -/
theorem averageOfMeasurements_eq {ms ns : List Measurement}
    (h : List.Forall₂ (Measurement.Agree c) ms ns) :
    averageOfMeasurements ms = averageOfMeasurements ns := by
  rw [averageOfMeasurements, averageOfMeasurements, map_magnitude_eq h]

end Measurement

end Metrology
