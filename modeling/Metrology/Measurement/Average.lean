/-
Averages of repeated measurements, by two conventions.

Raw *readings* share one reading error; their spread is the standard error of the mean, the sample
deviation over the root of the count, and a single reading has none. *Measurements* already carry
uncertainties of their own, which are dropped: the standard error is the deviation of the whole
population of magnitudes.
-/
import Metrology.Measurement.Basic
set_option autoImplicit false

namespace Metrology.Measurement

variable [Numerics]

/-- The mean of a sample: its sum over its size (`mean`). -/
def mean (xs : List Binary64) : Binary64 := Numerics.sum xs / Numerics.ofNat xs.length

/-- The sum of the squared distances from `center` (`sum_of_squared_deviations`). -/
def squaredDeviations (xs : List Binary64) (center : Binary64) : Binary64 :=
  Numerics.sum (xs.map fun x => Numerics.square (x - center))

/-- The standard error of the mean of raw readings: their sample deviation over the root of their
number, and none of a single one. -/
def standardErrorOfMean (xs : List Binary64) : Binary64 :=
  if xs.length < 2 then 0
  else
    let variance := squaredDeviations xs (mean xs) / Numerics.ofNat (xs.length - 1)
    Numerics.sqrt variance / Numerics.sqrt (Numerics.ofNat xs.length)

/-- The average of raw readings that share one reading error (`average_of_readings`). -/
def averageOfReadings (xs : List Binary64) (readingError : Binary64) :
    Except ArithmeticFault Measurement :=
  if xs.isEmpty then .error .emptySample
  else .ok ⟨mean xs, readingError, standardErrorOfMean xs⟩

/-- The average of values that carry uncertainties of their own (`average_of_measurements`). -/
def averageOfMeasurements (ms : List Measurement) : Except ArithmeticFault Measurement :=
  let xs := ms.map Measurement.magnitude
  if xs.isEmpty then .error .emptySample
  else
    let variance := squaredDeviations xs (mean xs) / Numerics.ofNat xs.length
    .ok ⟨mean xs, 0, Numerics.sqrt variance⟩

/-- One value per magnitude, all with the same uncertainties (`from_set`). -/
def ofMagnitudes (xs : List Binary64) (readingError standardError : Binary64) :
    List Measurement :=
  xs.map fun x => ⟨x, readingError, standardError⟩

end Metrology.Measurement
