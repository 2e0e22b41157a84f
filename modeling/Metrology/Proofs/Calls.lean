/-
Calls that are refused, and why.

A call is looked at in one order: the name, the number of arguments, their types from left to right
and through the list of an average, and only then the arithmetic. `Mistyped` and `Faulty` say of
each function which arguments the last two checks find fault with, and what they report. The
conditions exclude each other, so that each call has at most one reason to be refused (`Refused`),
and it is refused for this one (`call_eq_error_iff`).

All this holds whatever the functions of numbers compute. Only what the domain of the arcsine is
rests on comparisons being those of the numbers.
-/
import Metrology.Evaluation.Intrinsic
import Metrology.Measurement.Average
import Metrology.Proofs.Range
set_option autoImplicit false

namespace Metrology

/-! ## 1. Outcomes in sequence

A function's branch is a chain of checks, so a failure of the branch is a failure of the first check
that has one. These lemmas take such a chain apart, link by link. -/

namespace Outcome

variable {α β : Type} {r : Outcome α} {f : α → Outcome β} {i : Interrupt}

/-- A chain is interrupted by its first link, or by its second after a value of the first. -/
theorem bind_eq_error : (r >>= f) = .error i ↔ r = .error i ∨ ∃ a, r = .ok a ∧ f a = .error i := by
  cases r <;> simp [Bind.bind, Except.bind]

/-- A chain has a value when both of its links have. -/
theorem bind_eq_ok {b : β} : (r >>= f) = .ok b ↔ ∃ a, r = .ok a ∧ f a = .ok b := by
  cases r <;> simp [Bind.bind, Except.bind]

/-- A failure that only states its cause is interrupted with just that cause. -/
theorem fail_eq_error {cause : Cause} :
    (fail cause : Outcome α) = .error i ↔ i = .failure (.of cause) := by
  rw [fail, Except.error.injEq, eq_comm]

/-- Arithmetic is interrupted by its own faults. -/
theorem ofArithmetic_eq_error {k : Except ArithmeticFault Measurement} :
    ofArithmetic k = .error i ↔
      ∃ fault, k = .error fault ∧ i = .failure (.of (.arithmetic fault)) := by
  cases k with
  | ok m => simp [ofArithmetic]
  | error fault => simp [ofArithmetic, fail_eq_error]

/-- What arithmetic gives is a number. -/
theorem number_of_ofArithmetic {k : Except ArithmeticFault Measurement} {v : Value}
    (h : ofArithmetic k = .ok v) : ∃ m, v = .number m := by
  cases k with
  | ok m => exact ⟨m, (Except.ok.inj h).symm⟩
  | error fault => cases h

end Outcome

/-! ## 2. Arithmetic faults

Four functions of numbers can fail, each on one condition. The conditions are read off the
definitions here and named in `Faulty` below. -/

namespace Measurement

variable [Numerics] {m : Measurement} {fault : ArithmeticFault}

/-- The arcsine is defined at the magnitude. -/
def InDomain (m : Measurement) : Prop :=
  Numerics.le (Binary64.ofInt (-1)) m.magnitude = true ∧
    Numerics.le m.magnitude Binary64.one = true

/-- The tangent divides the sine by the cosine, so it fails where the cosine is zero. -/
theorem tangent_eq_error : m.tangent = .error fault ↔
    Numerics.isZero (Numerics.cos m.magnitude) = true ∧ fault = .divisionByZero := by
  have hcosine : m.cosine.magnitude = Numerics.cos m.magnitude := rfl
  rw [tangent, div, hcosine]
  split
  · simp [*, eq_comm]
  · simp [*]

/-- The arcsine fails outside its domain, and names the magnitude as it was given. -/
theorem arcsine_eq_error : m.arcsine = .error fault ↔
    ¬ m.InDomain ∧ fault = .outsideDomain "arcsin" m.magnitude := by
  rw [arcsine, InDomain]
  dsimp only
  split
  · simp [*]
  · simp only [Except.error.injEq]
    exact ⟨fun h => ⟨‹_›, h.symm⟩, fun h => h.2.symm⟩

/-- An average of measurements fails when there are none. -/
theorem averageOfMeasurements_eq_error {ms : List Measurement} :
    averageOfMeasurements ms = .error fault ↔ ms = [] ∧ fault = .emptySample := by
  cases ms with
  | nil => simp [averageOfMeasurements, eq_comm]
  | cons m ms => simp [averageOfMeasurements]

/-- An average of readings fails when there are none. -/
theorem averageOfReadings_eq_error {xs : List Binary64} {e : Binary64} :
    averageOfReadings xs e = .error fault ↔ xs = [] ∧ fault = .emptySample := by
  cases xs with
  | nil => simp [averageOfReadings, eq_comm]
  | cons x xs => simp [averageOfReadings]

end Measurement

namespace Intrinsic

/-! ## 3. Types of arguments

`number` and `numbers` fetch an argument of the type that is wanted. What they accept and what they
say of the rest is put in terms of the values themselves, so that the type check of a function can
be stated without running it. -/

variable {v w : Value} {vs : List Value} {m : Measurement} {ms : List Measurement} {i : Interrupt}
  {expected got : String} {f : Intrinsic}

/-- The value is no list of numbers: it is no list, or it has an item that is no number, and all
before that one are. -/
inductive NoSample : Value → String → String → Prop
  | noList {v : Value} : v.list? = none → NoSample v "list" v.typeName
  | item {ms : List Measurement} {v : Value} {vs : List Value} : v.number? = none →
      NoSample (.list (ms.map .number ++ v :: vs)) "number" v.typeName

/-- An argument of the right number of them has the wrong type; the first one that does was to be
`expected` and is `got`. -/
inductive Mistyped : Intrinsic → List Value → String → String → Prop
  | argument {f : Intrinsic} {v : Value} : f ≠ avg → f ≠ avgReadings → v.number? = none →
      Mistyped f [v] "number" v.typeName
  | average {v : Value} {expected got : String} : NoSample v expected got →
      Mistyped avg [v] expected got
  | readings {v w : Value} {expected got : String} : NoSample v expected got →
      Mistyped avgReadings [v, w] expected got
  | readingError {ms : List Measurement} {w : Value} : w.number? = none →
      Mistyped avgReadings [.list (ms.map .number), w] "number" w.typeName

theorem number?_eq_some_iff : v.number? = some m ↔ v = .number m := by
  cases v <;> simp [Value.number?]

theorem list?_eq_some_iff : v.list? = some vs ↔ v = .list vs := by
  cases v <;> simp [Value.list?]

/-- A number is fetched from a number only (`number`). -/
theorem number_eq_ok_iff : number v = .ok m ↔ v = .number m := by
  rw [number, ← number?_eq_some_iff]
  cases v.number? <;> simp [Outcome.fail]

/-- A value that is no number is reported by its type. -/
theorem number_eq_error_iff : number v = .error i ↔
    v.number? = none ∧ i = .failure (.of (.typeMismatch "number" v.typeName)) := by
  rw [number]
  cases v.number? <;> simp [Outcome.fail_eq_error]

/-- Items are fetched as numbers when all of them are numbers. -/
theorem numbersOf_eq_ok_iff : numbersOf vs = .ok ms ↔ vs = ms.map .number := by
  -- induction on the items; the numbers fetched are those of the rest behind the first one
  induction vs generalizing ms with
  | nil => cases ms <;> simp [numbersOf]
  | cons v vs ih =>
    simp only [numbersOf, Outcome.bind_eq_ok, number_eq_ok_iff, ih]
    constructor
    · rintro ⟨m, rfl, ms, rfl, h⟩
      cases h
      rfl
    · intro h
      cases ms with
      | nil => cases h
      | cons m ms =>
        obtain ⟨rfl, rfl⟩ := List.cons.inj h
        exact ⟨m, rfl, ms, rfl, rfl⟩

/-- The first item that is no number is reported; all before it are numbers. -/
theorem numbersOf_eq_error_iff : numbersOf vs = .error i ↔
    ∃ (ms : List Measurement) (v : Value) (ws : List Value),
      vs = ms.map .number ++ v :: ws ∧ v.number? = none ∧
        i = .failure (.of (.typeMismatch "number" v.typeName)) := by
  induction vs with
  | nil => simp [numbersOf]
  | cons v vs ih =>
    simp only [numbersOf, Outcome.bind_eq_error, number_eq_error_iff, number_eq_ok_iff, ih]
    constructor
    · -- either the first item is reported, with no number before it, or it is a number and joins
      -- those before the one reported
      rintro (⟨hv, hi⟩ | ⟨m, rfl, ⟨ms, w, ws, rfl, hw, hi⟩ | ⟨ms, -, h⟩⟩)
      · exact ⟨[], v, vs, rfl, hv, hi⟩
      · exact ⟨m :: ms, w, ws, rfl, hw, hi⟩
      · cases h
    · rintro ⟨ms, w, ws, h, hw, hi⟩
      cases ms with
      | nil =>
        obtain ⟨rfl, rfl⟩ := List.cons.inj h
        exact .inl ⟨hw, hi⟩
      | cons m ms =>
        obtain ⟨rfl, rfl⟩ := List.cons.inj h
        exact .inr ⟨m, rfl, .inl ⟨ms, w, ws, rfl, hw, hi⟩⟩

/-- A sample is fetched from a list of numbers only (`numbers`). -/
theorem numbers_eq_ok_iff : numbers v = .ok ms ↔ v = .list (ms.map .number) := by
  rw [numbers]
  cases v with
  | list vs => simp [Value.list?, numbersOf_eq_ok_iff]
  | _ => simp [Value.list?, Outcome.fail]

/-- What is no sample is reported as `NoSample` says: a value that is no list by its own type, a
list by the type of its first item that is no number. -/
theorem numbers_eq_error_iff : numbers v = .error i ↔
    ∃ expected got, NoSample v expected got ∧
      i = .failure (.of (.typeMismatch expected got)) := by
  rw [numbers]
  constructor
  · intro h
    split at h
    · rename_i vs hvs
      rw [list?_eq_some_iff] at hvs
      obtain ⟨ms, w, ws, rfl, hw, hi⟩ := numbersOf_eq_error_iff.1 h
      exact hvs ▸ ⟨_, _, .item hw, hi⟩
    · exact ⟨_, _, .noList ‹_›, Outcome.fail_eq_error.1 h⟩
  · rintro ⟨expected, got, h, hi⟩
    cases h with
    | noList hv => rw [hv, Outcome.fail_eq_error.2 hi]
    | item hw => exact numbersOf_eq_error_iff.2 ⟨_, _, _, rfl, hw, hi⟩

/-- The arguments have the types that the function asks for. -/
inductive Typed : Intrinsic → List Value → Prop
  | argument {f : Intrinsic} {m : Measurement} : f ≠ avg → f ≠ avgReadings → Typed f [.number m]
  | average {ms : List Measurement} : Typed avg [.list (ms.map .number)]
  | readings {ms : List Measurement} {e : Measurement} :
      Typed avgReadings [.list (ms.map .number), .number e]

/-- A wrong type is found only in the right number of arguments. -/
theorem Mistyped.length_eq (h : Mistyped f vs expected got) : vs.length = f.arity := by
  cases h with
  | argument havg hreadings hv =>
    cases f <;> first | rfl | exact absurd rfl hreadings
  | average => rfl
  | readings => rfl
  | readingError => rfl

/-- Typed arguments come in the right number. -/
theorem Typed.length_eq (h : Typed f vs) : vs.length = f.arity := by
  cases h with
  | argument havg hreadings =>
    cases f <;> first | rfl | exact absurd rfl hreadings
  | average => rfl
  | readings => rfl

/-- There is something to report about a sample unless it is a list of numbers. -/
theorem exists_noSample_iff :
    (∃ expected got, NoSample v expected got) ↔
      ∀ ms : List Measurement, v ≠ .list (ms.map .number) := by
  -- fetching the sample decides: it either reports something or comes out with the numbers
  rcases hv : numbers v with i | ms
  · obtain ⟨expected, got, hsample, -⟩ := numbers_eq_error_iff.1 hv
    refine iff_of_true ⟨expected, got, hsample⟩ fun ms hms => ?_
    rw [numbers_eq_ok_iff.2 hms] at hv
    cases hv
  · refine iff_of_false ?_ fun hnone => hnone ms (numbers_eq_ok_iff.1 hv)
    rintro ⟨expected, got, hsample⟩
    rw [numbers_eq_error_iff.2 ⟨expected, got, hsample, rfl⟩] at hv
    cases hv

/-- What the average of readings takes: a list of numbers, and a number behind it. -/
theorem Typed.of_readings (h : Typed avgReadings [v, w]) :
    (∃ ms : List Measurement, v = .list (ms.map .number)) ∧ ∃ e, w = .number e := by
  cases h with
  | readings => exact ⟨⟨_, rfl⟩, _, rfl⟩

/-- Arguments with something to report are not of the right types. By the report: each one names a
value that the right types exclude. -/
theorem Mistyped.not_typed (h : Mistyped f vs expected got) : ¬ Typed f vs := by
  intro htyped
  cases h with
  | argument havg _ hv =>
    cases htyped with
    | argument => cases hv
    | average => exact havg rfl
  | average hsample =>
    cases htyped with
    | argument havg => exact havg rfl
    | average => exact exists_noSample_iff.1 ⟨_, _, hsample⟩ _ rfl
  | readings hsample =>
    obtain ⟨ms, hv⟩ := htyped.of_readings.1
    exact exists_noSample_iff.1 ⟨_, _, hsample⟩ ms hv
  | readingError hw =>
    obtain ⟨e, rfl⟩ := htyped.of_readings.2
    cases hw

/-- In the right number of arguments that are not typed there is one to report. The check goes from
left to right, so for two arguments the first is settled before the second is asked. -/
theorem exists_mistyped_of_not_typed (hlength : vs.length = f.arity) (h : ¬ Typed f vs) :
    ∃ expected got, Mistyped f vs expected got := by
  have hsample : ∀ v : Value, (¬ ∃ expected got, NoSample v expected got) →
      ∃ ms : List Measurement, v = .list (ms.map .number) := by
    intro v hv
    rw [exists_noSample_iff] at hv
    push Not at hv
    exact hv
  -- the averages look into a list; the other functions want one number and are all alike
  cases f with
  | avg =>
    obtain ⟨v, rfl⟩ := List.length_eq_one_iff.1 hlength
    by_contra hnone
    obtain ⟨ms, rfl⟩ := hsample v fun ⟨_, _, hv⟩ => hnone ⟨_, _, .average hv⟩
    exact h .average
  | avgReadings =>
    obtain ⟨v, w, rfl⟩ := List.length_eq_two.1 hlength
    by_contra hnone
    obtain ⟨ms, rfl⟩ := hsample v fun ⟨_, _, hv⟩ => hnone ⟨_, _, .readings hv⟩
    cases hw : w.number? with
    | none => exact hnone ⟨_, _, .readingError hw⟩
    | some e =>
      obtain rfl := number?_eq_some_iff.1 hw
      exact h .readings
  | _ =>
    obtain ⟨v, rfl⟩ := List.length_eq_one_iff.1 hlength
    cases hv : v.number? with
    | none => exact ⟨_, _, .argument nofun nofun hv⟩
    | some m =>
      obtain rfl := number?_eq_some_iff.1 hv
      exact absurd (.argument nofun nofun) h

/-- The right number of arguments is mistyped just if it is not typed. -/
theorem exists_mistyped_iff :
    (∃ expected got, Mistyped f vs expected got) ↔ vs.length = f.arity ∧ ¬ Typed f vs :=
  ⟨fun ⟨_, _, h⟩ => ⟨h.length_eq, h.not_typed⟩,
    fun ⟨hlength, h⟩ => exists_mistyped_of_not_typed hlength h⟩

/-! ## 4. The order of the checks

From here on the functions of numbers come into play. `Refused` collects the reasons of all checks.
That they come in order shows in their conditions: a wrong type presupposes the right number of
arguments, and a fault the right types. -/

variable [Numerics] {fault : ArithmeticFault}

/-- The arguments have the right types and the function has no value for them. -/
inductive Faulty : Intrinsic → List Value → ArithmeticFault → Prop
  | tangent {m : Measurement} : Numerics.isZero (Numerics.cos m.magnitude) = true →
      Faulty tan [.number m] .divisionByZero
  | arcsine {m : Measurement} : ¬ m.InDomain →
      Faulty asin [.number m] (.outsideDomain "arcsin" m.magnitude)
  | average : Faulty avg [.list []] .emptySample
  | readings {e : Measurement} : Faulty avgReadings [.list [], .number e] .emptySample

/-- Why a call is refused. The conditions exclude each other, so no order has to be said. -/
inductive Refused (name : String) (vs : List Value) : Cause → Prop
  | undefined : isName name = false → Refused name vs (.undefinedFunction name)
  | count {f : Intrinsic} : f.name = name → vs.length ≠ f.arity →
      Refused name vs (.arityMismatch name f.arity vs.length)
  | type {f : Intrinsic} {expected got : String} : f.name = name → Mistyped f vs expected got →
      Refused name vs (.typeMismatch expected got)
  | arithmetic {f : Intrinsic} {fault : ArithmeticFault} : f.name = name → Faulty f vs fault →
      Refused name vs (.arithmetic fault)

/-- The interrupt is that of arguments with the wrong types or without a value. -/
def Refuses (f : Intrinsic) (vs : List Value) (i : Interrupt) : Prop :=
  (∃ expected got, Mistyped f vs expected got ∧
      i = .failure (.of (.typeMismatch expected got))) ∨
    ∃ fault, Faulty f vs fault ∧ i = .failure (.of (.arithmetic fault))

/-- A function of one number that computes `compute` refuses what is no number, and the numbers that
`compute` refuses. -/
theorem bind_number_eq_error_iff {compute : Measurement → Outcome Value} (havg : f ≠ avg)
    (hreadings : f ≠ avgReadings) (hcompute : ∀ m, compute m = .error i ↔
      ∃ fault, Faulty f [.number m] fault ∧ i = .failure (.of (.arithmetic fault))) :
    (number v >>= compute) = .error i ↔ f.Refuses [v] i := by
  rw [Outcome.bind_eq_error, number_eq_error_iff]
  apply or_congr
  · constructor
    · rintro ⟨hv, hi⟩
      exact ⟨_, _, .argument havg hreadings hv, hi⟩
    · rintro ⟨expected, got, hmistyped, hi⟩
      cases hmistyped with
      | argument _ _ hv => exact ⟨hv, hi⟩
      | average => exact absurd rfl havg
  · constructor
    · rintro ⟨m, hm, hi⟩
      obtain rfl := number_eq_ok_iff.1 hm
      exact (hcompute m).1 hi
    · rintro ⟨fault, hfaulty, hi⟩
      cases hfaulty with
      | tangent h => exact ⟨_, number_eq_ok_iff.2 rfl, (hcompute _).2 ⟨_, .tangent h, hi⟩⟩
      | arcsine h => exact ⟨_, number_eq_ok_iff.2 rfl, (hcompute _).2 ⟨_, .arcsine h, hi⟩⟩
      | average => exact absurd rfl havg

/-- Five functions of one number have a value for every number. -/
theorem not_faulty_of_total (htan : f ≠ tan) (hasin : f ≠ asin) :
    ¬ ∃ fault, Faulty f [.number m] fault ∧ i = .failure (.of (.arithmetic fault)) := by
  rintro ⟨fault, hfaulty, -⟩
  cases hfaulty with
  | tangent => exact htan rfl
  | arcsine => exact hasin rfl

/-- The average refuses what is no sample, and an empty one. -/
theorem apply_avg_eq_error_iff : avg.apply [v] = .error i ↔ avg.Refuses [v] i := by
  rw [apply, Outcome.bind_eq_error, numbers_eq_error_iff]
  -- fetching the sample and averaging it are the two ways to fail
  apply or_congr
  · constructor
    · rintro ⟨expected, got, hsample, hi⟩
      exact ⟨expected, got, .average hsample, hi⟩
    · rintro ⟨expected, got, hmistyped, hi⟩
      cases hmistyped with
      | argument havg => exact absurd rfl havg
      | average hsample => exact ⟨expected, got, hsample, hi⟩
  · simp only [numbers_eq_ok_iff, Outcome.ofArithmetic_eq_error,
      Measurement.averageOfMeasurements_eq_error]
    constructor
    · rintro ⟨ms, rfl, fault, ⟨rfl, rfl⟩, hi⟩
      exact ⟨_, .average, hi⟩
    · rintro ⟨fault, hfaulty, hi⟩
      cases hfaulty with
      | average => exact ⟨[], rfl, _, ⟨rfl, rfl⟩, hi⟩

/-- The average of readings has three checks: the sample, then the number behind it, then whether
the sample is empty. -/
theorem apply_avgReadings_eq_error_iff :
    avgReadings.apply [v, w] = .error i ↔ avgReadings.Refuses [v, w] i := by
  rw [apply, Outcome.bind_eq_error, numbers_eq_error_iff]
  simp only [numbers_eq_ok_iff, Outcome.bind_eq_error, number_eq_error_iff, number_eq_ok_iff,
    Outcome.ofArithmetic_eq_error, Measurement.averageOfReadings_eq_error]
  constructor
  · rintro (⟨expected, got, hsample, hi⟩ | ⟨ms, rfl, ⟨hw, hi⟩ | ⟨e, rfl, fault, ⟨hms, rfl⟩, hi⟩⟩)
    · exact .inl ⟨expected, got, .readings hsample, hi⟩
    · exact .inl ⟨_, _, .readingError hw, hi⟩
    · obtain rfl := List.map_eq_nil_iff.1 hms
      exact .inr ⟨_, .readings, hi⟩
  · rintro (⟨expected, got, hmistyped, hi⟩ | ⟨fault, hfaulty, hi⟩)
    · cases hmistyped with
      | readings hsample => exact .inl ⟨expected, got, hsample, hi⟩
      | readingError hw => exact .inr ⟨_, rfl, .inl ⟨hw, hi⟩⟩
    · cases hfaulty with
      | readings => exact .inr ⟨[], rfl, .inr ⟨_, rfl, _, ⟨rfl, rfl⟩, hi⟩⟩

/-- With the right number of arguments a function refuses just the mistyped and the faulty ones. -/
theorem apply_eq_error_iff (h : vs.length = f.arity) :
    f.apply vs = .error i ↔ f.Refuses vs i := by
  have hnone : ∀ {g : Intrinsic} {value : Value} {m : Measurement}, g ≠ tan → g ≠ asin →
      ((.ok value : Outcome Value) = .error i ↔
        ∃ fault, Faulty g [.number m] fault ∧ i = .failure (.of (.arithmetic fault))) :=
    fun htan hasin => iff_of_false nofun (not_faulty_of_total htan hasin)
  -- the averages by their own lemmas; the tangent and the arcsine can fail on a number; the other
  -- five are functions of one number that cannot
  cases f with
  | avgReadings =>
    obtain ⟨v, w, rfl⟩ := List.length_eq_two.1 h
    exact apply_avgReadings_eq_error_iff
  | avg =>
    obtain ⟨v, rfl⟩ := List.length_eq_one_iff.1 h
    exact apply_avg_eq_error_iff
  | tan =>
    obtain ⟨v, rfl⟩ := List.length_eq_one_iff.1 h
    refine bind_number_eq_error_iff nofun nofun fun m => ?_
    simp only [Outcome.ofArithmetic_eq_error, Measurement.tangent_eq_error]
    constructor
    · rintro ⟨fault, ⟨hzero, rfl⟩, hi⟩
      exact ⟨_, .tangent hzero, hi⟩
    · rintro ⟨fault, hfaulty, hi⟩
      cases hfaulty with
      | tangent hzero => exact ⟨_, ⟨hzero, rfl⟩, hi⟩
  | asin =>
    obtain ⟨v, rfl⟩ := List.length_eq_one_iff.1 h
    refine bind_number_eq_error_iff nofun nofun fun m => ?_
    simp only [Outcome.ofArithmetic_eq_error, Measurement.arcsine_eq_error]
    constructor
    · rintro ⟨fault, ⟨hdomain, rfl⟩, hi⟩
      exact ⟨_, .arcsine hdomain, hi⟩
    · rintro ⟨fault, hfaulty, hi⟩
      cases hfaulty with
      | arcsine hdomain => exact ⟨_, ⟨hdomain, rfl⟩, hi⟩
  | _ =>
    obtain ⟨v, rfl⟩ := List.length_eq_one_iff.1 h
    exact bind_number_eq_error_iff nofun nofun fun m => hnone nofun nofun

/-- Faults are found only in the right number of arguments. -/
theorem Faulty.length_eq (h : Faulty f vs fault) : vs.length = f.arity := by
  cases h <;> rfl

/-- A call by the name of a function comes to that function. -/
theorem call_name (f : Intrinsic) (vs : List Value) : call f.name vs = f.apply vs := by
  rw [call, ofName?_name]

/-- A call ends without a value just if there is a reason to refuse it, and reports that reason. -/
theorem call_eq_error_iff {name : String} :
    call name vs = .error i ↔ ∃ cause, Refused name vs cause ∧ i = .failure (.of cause) := by
  cases hname : isName name with
  | false =>
    have hcall : call name vs = .fail (.undefinedFunction name) := by
      rw [call, isName_eq_false_iff.1 hname]
    -- no function has the name, so none of the later reasons applies
    have hno : ∀ f : Intrinsic, f.name ≠ name := fun f hf => by
      rw [isName_iff.2 ⟨f, hf⟩] at hname
      cases hname
    rw [hcall, Outcome.fail_eq_error]
    constructor
    · exact fun hi => ⟨_, .undefined hname, hi⟩
    · rintro ⟨cause, hrefused, hi⟩
      cases hrefused with
      | undefined => exact hi
      | count hf => exact absurd hf (hno _)
      | type hf => exact absurd hf (hno _)
      | arithmetic hf => exact absurd hf (hno _)
  | true =>
    obtain ⟨f, rfl⟩ := isName_iff.1 hname
    rw [call_name]
    -- the number of arguments is checked before anything else is done with them
    by_cases hlength : vs.length = f.arity
    · rw [apply_eq_error_iff hlength]
      constructor
      · rintro (⟨expected, got, hmistyped, hi⟩ | ⟨fault, hfaulty, hi⟩)
        · exact ⟨_, .type rfl hmistyped, hi⟩
        · exact ⟨_, .arithmetic rfl hfaulty, hi⟩
      · rintro ⟨cause, hrefused, hi⟩
        cases hrefused with
        | undefined h => rw [hname] at h; cases h
        | count hf h => exact absurd hlength (name_injective hf ▸ h)
        | type hf h => exact .inl ⟨_, _, name_injective hf ▸ h, hi⟩
        | arithmetic hf h => exact .inr ⟨_, name_injective hf ▸ h, hi⟩
    · rw [apply_of_length_ne f hlength, Outcome.fail_eq_error]
      constructor
      · exact fun hi => ⟨_, .count rfl hlength, hi⟩
      · rintro ⟨cause, hrefused, hi⟩
        cases hrefused with
        | undefined h => rw [hname] at h; cases h
        | count hf h => rwa [name_injective hf] at hi
        | type hf h => exact absurd (name_injective hf ▸ h).length_eq hlength
        | arithmetic hf h => exact absurd (name_injective hf ▸ h).length_eq hlength

/-- The refusals of a function under its own name. -/
theorem call_eq_fail_iff {cause : Cause} :
    call f.name vs = .fail cause ↔ Refused f.name vs cause := by
  rw [Outcome.fail, call_eq_error_iff]
  constructor
  · rintro ⟨cause', hrefused, hcause⟩
    cases hcause
    exact hrefused
  · exact fun hrefused => ⟨cause, hrefused, rfl⟩

/-- What a function gives is a number, and a text if the function writes one. -/
theorem of_call_eq_ok {r : Value} (h : call f.name vs = .ok r) :
    if f = latex then ∃ s, r = .text s else ∃ m, r = .number m := by
  rw [call_name] at h
  by_cases hlength : vs.length = f.arity
  · cases f with
    | avgReadings =>
      obtain ⟨v, w, rfl⟩ := List.length_eq_two.1 hlength
      obtain ⟨ms, -, h⟩ := Outcome.bind_eq_ok.1 h
      obtain ⟨e, -, h⟩ := Outcome.bind_eq_ok.1 h
      exact Outcome.number_of_ofArithmetic h
    | avg =>
      obtain ⟨v, rfl⟩ := List.length_eq_one_iff.1 hlength
      obtain ⟨ms, -, h⟩ := Outcome.bind_eq_ok.1 h
      exact Outcome.number_of_ofArithmetic h
    | tan =>
      obtain ⟨v, rfl⟩ := List.length_eq_one_iff.1 hlength
      obtain ⟨m, -, h⟩ := Outcome.bind_eq_ok.1 h
      exact Outcome.number_of_ofArithmetic h
    | asin =>
      obtain ⟨v, rfl⟩ := List.length_eq_one_iff.1 hlength
      obtain ⟨m, -, h⟩ := Outcome.bind_eq_ok.1 h
      exact Outcome.number_of_ofArithmetic h
    | latex =>
      obtain ⟨v, rfl⟩ := List.length_eq_one_iff.1 hlength
      obtain ⟨m, -, h⟩ := Outcome.bind_eq_ok.1 h
      exact ⟨_, (Except.ok.inj h).symm⟩
    | _ =>
      obtain ⟨v, rfl⟩ := List.length_eq_one_iff.1 hlength
      obtain ⟨m, -, h⟩ := Outcome.bind_eq_ok.1 h
      exact ⟨_, (Except.ok.inj h).symm⟩
  · rw [apply_of_length_ne f hlength] at h
    cases h

/-- A call has a value just if its arguments have the right types and none is faulty. -/
theorem exists_call_eq_ok_iff :
    (∃ r, call f.name vs = .ok r) ↔ Typed f vs ∧ ∀ fault, ¬ Faulty f vs fault := by
  -- a call has a value just if there is no reason to refuse it
  have hok : (∃ r, call f.name vs = .ok r) ↔ ∀ cause, ¬ Refused f.name vs cause := by
    rcases hcall : call f.name vs with i | r
    · obtain ⟨cause, hrefused, -⟩ := call_eq_error_iff.1 hcall
      exact iff_of_false nofun fun hnone => hnone cause hrefused
    · refine iff_of_true ⟨r, rfl⟩ fun cause hrefused => ?_
      rw [call_eq_fail_iff.2 hrefused] at hcall
      cases hcall
  rw [hok]
  constructor
  · intro hnone
    have hlength : vs.length = f.arity := not_not.1 fun h => hnone _ (.count rfl h)
    refine ⟨not_not.1 fun h => ?_, fun fault h => hnone _ (.arithmetic rfl h)⟩
    obtain ⟨expected, got, hmistyped⟩ := exists_mistyped_of_not_typed hlength h
    exact hnone _ (.type rfl hmistyped)
  · rintro ⟨htyped, hfaultless⟩ cause hrefused
    cases hrefused with
    | undefined h => rw [isName_iff.2 ⟨f, rfl⟩] at h; cases h
    | count hf h => exact h (name_injective hf ▸ htyped.length_eq)
    | type hf h => exact (name_injective hf ▸ h).not_typed htyped
    | arithmetic hf h => exact hfaultless _ (name_injective hf ▸ h)

/-- The list of names and the dispatch of a call, which are written down apart from each other, name
the same functions. -/
structure NamesAgree (name : String) : Prop where
  /-- The list holds a name for each function, in the order of the functions. -/
  listed : names = all.map Intrinsic.name ∧
    names = ["sin", "cos", "tan", "asin", "atan", "abs", "avg", "avg_readings", "latex"]
  /-- To be a name is to be in the list. -/
  mem_iff : isName name = true ↔ name ∈ all.map Intrinsic.name
  /-- And to be a name is to be dispatched. -/
  dispatched_iff : isName name = true ↔ ∃ f, ofName? name = some f
  /-- The dispatch comes to the function that the name belongs to. -/
  ofName?_iff : ∀ f : Intrinsic, ofName? name = some f ↔ f.name = name

/-- What a call of the function `f` by its name comes to. Each check has just what fails it, and
none is made before those above it have passed. -/
structure Checked (f : Intrinsic) (vs : List Value) : Prop where
  arity : f.arity = if f.name = "avg_readings" then 2 else 1
  /-- The number of arguments comes first, whatever they are. -/
  count : ∀ s expected got, call f.name vs = .fail (.arityMismatch s expected got) ↔
    vs.length ≠ f.arity ∧ s = f.name ∧ expected = f.arity ∧ got = vs.length
  /-- Arguments in the right number are mistyped just if they are not typed. -/
  mistyped : (∃ expected got, Mistyped f vs expected got) ↔ vs.length = f.arity ∧ ¬ Typed f vs
  /-- Then their types. -/
  type : ∀ expected got, call f.name vs = .fail (.typeMismatch expected got) ↔
    Mistyped f vs expected got
  /-- Then the arithmetic. -/
  arithmetic : ∀ fault, call f.name vs = .fail (.arithmetic fault) ↔ Faulty f vs fault
  /-- What passes has a value. -/
  passes : (∃ r, call f.name vs = .ok r) ↔ Typed f vs ∧ ∀ fault, ¬ Faulty f vs fault
  value : ∀ r, call f.name vs = .ok r →
    if f = latex then ∃ s, r = .text s else ∃ m, r = .number m

omit [Numerics] in
/-- The list and the dispatch agree on every name. -/
theorem namesAgree (name : String) : NamesAgree name where
  listed := ⟨rfl, rfl⟩
  mem_iff := by
    rw [isName_iff, List.mem_map]
    exact exists_congr fun f => (and_iff_right f.mem_all).symm
  dispatched_iff := isName_iff_ofName?
  ofName?_iff _ := ofName?_eq_some_iff

/-- Every call of a function by its name is checked in this order. -/
theorem checked (f : Intrinsic) (vs : List Value) : Checked f vs where
  arity := by cases f <;> rfl
  count s expected got := by
    rw [call_eq_fail_iff]
    constructor
    · intro hrefused
      cases hrefused with
      | count hf h =>
        obtain rfl := name_injective hf
        exact ⟨h, rfl, rfl, rfl⟩
    · rintro ⟨h, rfl, rfl, rfl⟩
      exact .count rfl h
  mistyped := exists_mistyped_iff
  type expected got := by
    rw [call_eq_fail_iff]
    constructor
    · intro hrefused
      cases hrefused with
      | type hf h => exact name_injective hf ▸ h
    · exact .type rfl
  arithmetic fault := by
    rw [call_eq_fail_iff]
    constructor
    · intro hrefused
      cases hrefused with
      | arithmetic hf h => exact name_injective hf ▸ h
    · exact .arithmetic rfl
  passes := exists_call_eq_ok_iff
  value _ := of_call_eq_ok

/-- A call by a name that is not in the list fails for that, whatever the arguments are. -/
theorem call_eq_undefined_iff {name s : String} :
    call name vs = .fail (.undefinedFunction s) ↔ isName name = false ∧ s = name := by
  rw [Outcome.fail, call_eq_error_iff]
  constructor
  · rintro ⟨cause, hrefused, hcause⟩
    cases hcause
    cases hrefused with
    | undefined h => exact ⟨h, rfl⟩
  · rintro ⟨h, rfl⟩
    exact ⟨_, .undefined h, rfl⟩

/-- The checks of a call in their order, each with just what fails it: the name, against the list of
names, which is that of the dispatch; then, by `Checked`, the number of arguments, their types, from
left to right and through the items of a list, and the arithmetic. What passes all of them has a
value, and no call ends in any other way. The arcsine's domain is `[-1, 1]`, and NaN is outside of
it. -/
theorem call_in_order (name : String) (vs : List Value) :
    NamesAgree name ∧
      (∀ s, call name vs = .fail (.undefinedFunction s) ↔ isName name = false ∧ s = name) ∧
      (∀ f : Intrinsic, f.name = name → Checked f vs) ∧
      (∀ i, call name vs = .error i →
        ∃ cause, Refused name vs cause ∧ i = .failure (.of cause)) ∧
      ∀ m, @Measurement.InDomain Numerics.rounded m ↔
        m.magnitude.isFinite = true ∧ |m.magnitude.value| ≤ 1 :=
  ⟨namesAgree name, fun _ => call_eq_undefined_iff, fun f _ => checked f vs,
    fun _ => call_eq_error_iff.1, fun m => m.magnitude.between_iff⟩

/-- The items of a list are looked at before the argument behind it. -/
example : call "avg_readings" [.list [.scalar 0, .text "two", .symbol "x"], .text "e"] =
    .fail (.typeMismatch "number" "text") := rfl

end Intrinsic

end Metrology
