/-
Magnitudes out of range.

Literals have finite magnitudes, and from finite magnitudes finite ones are computed as long as
every exact result has a finite number near it. Nothing asks for this afterwards: where a result
lies past the finite numbers, an operator, an average or a tangent gives an infinity and goes on.
`LeavesRange` is a visit where this happens first, on operands that are finite still. Every other
visit keeps magnitudes finite (`Visit.keeps_inRange`), and each such visit makes a number that is
not (`Visit.LeavesRange.result`).
-/
import Metrology.Measurement.Average
import Metrology.Proofs.Angles
import Metrology.Proofs.Numbers
import Metrology.Proofs.NumericTokens
import Metrology.Proofs.Powers
import Metrology.Tree.Build
set_option autoImplicit false

namespace Metrology

open Binary64 (roundingBound)

/-! ## 1. Measured values

The magnitude of a result is that of arithmetic on magnitudes, so what `Range` says of numbers is
said here of measured values. The uncertainties play no part. -/

namespace Measurement

/-- The magnitude is finite. -/
def InRange (m : Measurement) : Prop := m.magnitude.isFinite = true

variable {m n k : Measurement}

/-- A sum stays in range just if the exact one is below the bound. -/
theorem inRange_add_iff (hm : m.InRange) (hn : n.InRange) :
    (m + n).InRange ↔ |m.magnitude.value + n.magnitude.value| < roundingBound :=
  Binary64.isFinite_add_iff hm hn

/-- A difference stays in range just if the exact one is below the bound. -/
theorem inRange_sub_iff (hm : m.InRange) (hn : n.InRange) :
    (m - n).InRange ↔ |m.magnitude.value - n.magnitude.value| < roundingBound :=
  Binary64.isFinite_sub_iff hm hn

/-- A product stays in range just if the exact one is below the bound. -/
theorem inRange_mul_iff (hm : m.InRange) (hn : n.InRange) :
    (m * n).InRange ↔ |m.magnitude.value * n.magnitude.value| < roundingBound :=
  Binary64.isFinite_mul_iff hm hn

/-- Negation does not leave the range: the factor is minus one. -/
theorem inRange_neg (hm : m.InRange) : (-m).InRange := by
  have hminus : (exact (Binary64.ofInt (-1))).InRange := by
    rw [InRange, exact, Binary64.ofInt_neg_one]
    rfl
  refine (inRange_mul_iff hm hminus).2 ?_
  rw [exact, Binary64.value_ofInt_neg_one, mul_neg_one, abs_neg]
  exact Binary64.abs_value_lt hm

/-- A quotient has a value where the divisor is not zero, finite or not. -/
theorem div_eq_ok_iff :
    m.div n = .ok k ↔ n.magnitude.isZero = false ∧
      k = m.perChannels n (m.magnitude / n.magnitude)
        (relativeRule (m.magnitude / n.magnitude) m.magnitude n.magnitude) := by
  rw [div, Numerics.isZero_rounded]
  cases n.magnitude.isZero with
  | true => simp
  | false => simp [eq_comm]

/-- A quotient that has a value stays in range just if the exact one is below the bound. -/
theorem inRange_div_iff (hm : m.InRange) (hn : n.InRange) (h : m.div n = .ok k) :
    k.InRange ↔ |m.magnitude.value / n.magnitude.value| < roundingBound := by
  obtain ⟨hzero, rfl⟩ := div_eq_ok_iff.1 h
  exact Binary64.isFinite_div_iff hm hn hzero

/-- A power has a value unless it is a negative power of zero. -/
theorem pow_eq_ok {e : Int} (hzero : e < 0 → m.magnitude.isZero = false) :
    ∃ k, m.pow e = .ok k ∧ k.magnitude = Binary64.pow m.magnitude e := by
  rw [pow, Numerics.isZero_rounded, if_neg]
  · dsimp only
    split
    · exact ⟨_, rfl, rfl⟩
    · exact ⟨_, rfl, rfl⟩
  · rintro ⟨hneg, hisZero⟩
    rw [hzero hneg] at hisZero
    cases hisZero

/-- A negative power of zero is refused. -/
theorem pow_eq_error {e : Int} (hneg : e < 0) (hzero : m.magnitude.isZero = true) :
    m.pow e = .error (.zeroToNegativePower e) := by
  rw [pow, Numerics.isZero_rounded, if_pos ⟨hneg, hzero⟩]

theorem inRange_sine (hm : m.InRange) : m.sine.InRange := Binary64.isFinite_sin hm

theorem inRange_cosine (hm : m.InRange) : m.cosine.InRange := Binary64.isFinite_cos hm

theorem inRange_arctangent (hm : m.InRange) : m.arctangent.InRange := Binary64.isFinite_arctan hm

theorem inRange_abs (hm : m.InRange) : m.abs.InRange := (Binary64.isFinite_abs m.magnitude).trans hm

/-- An arcsine that has a value is in range. -/
theorem inRange_arcsine (hm : m.InRange) (h : m.arcsine = .ok k) : k.InRange := by
  rw [arcsine] at h
  dsimp only at h
  split at h
  · rename_i hdomain
    cases h
    exact Binary64.isFinite_arcsin hm
      (Binary64.quanta_le_of_between hdomain.1 hdomain.2)
  · cases h

/-- A mean is finite just if no step of the sum leaves the range. -/
theorem isFinite_mean_iff {ms : List Measurement} (hms : ∀ m ∈ ms, m.InRange)
    (hempty : ms.map magnitude ≠ []) :
    (mean (ms.map magnitude)).isFinite = true ↔
      ¬ Binary64.SumLeavesRange (ms.map magnitude) := by
  have hfinite : ∀ x ∈ ms.map magnitude, x.isFinite = true := by
    intro x hx
    obtain ⟨m, hm, rfl⟩ := List.mem_map.1 hx
    exact hms m hm
  have hdiv : ∀ x y : Binary64, x / y = Binary64.div x y := fun _ _ => rfl
  have hcount : ∀ k : Nat, Numerics.ofNat k = Binary64.ofNat k := fun _ => rfl
  have hlength : (ms.map magnitude).length ≠ 0 := mt List.length_eq_zero_iff.1 hempty
  rw [mean, hdiv, hcount,
    Binary64.isFinite_div_of_atLeastOne (Binary64.atLeastOne_ofNat hlength),
    Binary64.isFinite_sum_iff hfinite]

/-- There is an average where there is something to average, whether the mean is finite or not. -/
theorem averageOfReadings_eq_ok_iff {xs : List Binary64} {e : Binary64} :
    averageOfReadings xs e = .ok k ↔ xs ≠ [] ∧ k = ⟨mean xs, e, standardErrorOfMean xs⟩ := by
  rw [averageOfReadings, ne_eq, ← List.isEmpty_iff]
  cases xs.isEmpty with
  | true => simp
  | false => simp [eq_comm]

/-- An average of measurements is the mean with the spread of the sample, if there is a sample. -/
theorem averageOfMeasurements_eq_ok_iff {ms : List Measurement} :
    averageOfMeasurements ms = .ok k ↔ ms.map magnitude ≠ [] ∧
      k = ⟨mean (ms.map magnitude), 0, Numerics.sqrt
        (squaredDeviations (ms.map magnitude) (mean (ms.map magnitude)) /
          Numerics.ofNat (ms.map magnitude).length)⟩ := by
  rw [averageOfMeasurements, ne_eq, ← List.isEmpty_iff]
  cases (ms.map magnitude).isEmpty with
  | true => simp
  | false => simp [eq_comm]

/-- An average of readings is in range just if no step of the sum leaves it. -/
theorem inRange_averageOfReadings_iff {ms : List Measurement} {e : Binary64}
    (hms : ∀ m ∈ ms, m.InRange) (h : averageOfReadings (ms.map magnitude) e = .ok k) :
    k.InRange ↔ ¬ Binary64.SumLeavesRange (ms.map magnitude) := by
  obtain ⟨hempty, rfl⟩ := averageOfReadings_eq_ok_iff.1 h
  exact isFinite_mean_iff hms hempty

/-- An average of measurements is in range just if no step of the sum leaves it. -/
theorem inRange_averageOfMeasurements_iff {ms : List Measurement} (hms : ∀ m ∈ ms, m.InRange)
    (h : averageOfMeasurements ms = .ok k) :
    k.InRange ↔ ¬ Binary64.SumLeavesRange (ms.map magnitude) := by
  obtain ⟨hempty, rfl⟩ := averageOfMeasurements_eq_ok_iff.1 h
  exact isFinite_mean_iff hms hempty

end Measurement

/-! ## 2. Operators and functions

`LeavesRange` says it of the exact result, without running anything. That it is decided by the exact
result alone is shown from both sides: a result is in range unless this holds, and out of it where
it does. -/

open Measurement (InRange)

/-- The exact result of the operator lies past the finite numbers; for a power, which is a chain of
rounded products, this is asked of each step of the chain. -/
def Operation.LeavesRange (op : BinaryOperator) (m n : Measurement) : Prop :=
  match op with
  | .add => roundingBound ≤ |m.magnitude.value + n.magnitude.value|
  | .sub => roundingBound ≤ |m.magnitude.value - n.magnitude.value|
  | .mul => roundingBound ≤ |m.magnitude.value * n.magnitude.value|
  | .div => roundingBound ≤ |m.magnitude.value / n.magnitude.value|
  | .pow => ∃ e, exponent? n.magnitude = some e ∧ (e < 0 → m.magnitude.isZero = false) ∧
      m.magnitude.PowerLeavesRange e

/-- A tangent or an average of finite numbers whose exact quotient or sum lies past the finite
numbers. The other functions do not leave the range. -/
inductive Intrinsic.LeavesRange : Intrinsic → List Value → Prop
  | tangent {m : Measurement} :
      roundingBound ≤ |m.magnitude.sin.value / m.magnitude.cos.value| →
      LeavesRange .tan [.number m]
  | average {list : Value} {ms : List Measurement} : numbers list = .ok ms →
      Binary64.SumLeavesRange (ms.map Measurement.magnitude) → LeavesRange .avg [list]
  | averageOfReadings {list : Value} {ms : List Measurement} {e : Measurement} :
      numbers list = .ok ms → Binary64.SumLeavesRange (ms.map Measurement.magnitude) →
      LeavesRange .avgReadings [list, .number e]

namespace Operation

variable {op : BinaryOperator} {m n : Measurement}

/-- An operator that does not leave the range has a finite number or none. -/
theorem onNumbers_inRange (hm : m.InRange) (hn : n.InRange) (h : ¬ LeavesRange op m n) :
    (onNumbers op m n).All InRange (Value.All InRange) := by
  cases op with
  | add => exact .ok (.number ((Measurement.inRange_add_iff hm hn).2 (lt_of_not_ge h)))
  | sub => exact .ok (.number ((Measurement.inRange_sub_iff hm hn).2 (lt_of_not_ge h)))
  | mul => exact .ok (.number ((Measurement.inRange_mul_iff hm hn).2 (lt_of_not_ge h)))
  | div =>
    exact Outcome.ofArithmetic_all fun k hk =>
      (Measurement.inRange_div_iff hm hn hk).2 (lt_of_not_ge h)
  | pow =>
    show (power m n).All InRange (Value.All InRange)
    rw [power]
    rcases he : exponent? n.magnitude with _ | e
    · exact Outcome.all_fail _
    · refine Outcome.ofArithmetic_all fun k hk => ?_
      -- a negative power that has a value is not one of zero
      have hzero : e < 0 → m.magnitude.isZero = false := by
        intro hneg
        by_contra hzero
        rw [Measurement.pow_eq_error hneg (Bool.eq_true_of_not_eq_false hzero)] at hk
        cases hk
      obtain ⟨k', hk', hmagnitude⟩ := Measurement.pow_eq_ok hzero
      obtain rfl := Except.ok.inj (hk.symm.trans hk')
      rw [Measurement.InRange, hmagnitude, Binary64.isFinite_pow_iff hm]
      exact fun hpast => h ⟨e, he, hzero, hpast⟩

/-- An operator that leaves the range has a number all the same. -/
theorem onNumbers_of_leavesRange (hm : m.InRange) (hn : n.InRange) (h : LeavesRange op m n) :
    ∃ k, onNumbers op m n = .ok (.number k) ∧ ¬ k.InRange := by
  cases op with
  | add => exact ⟨_, rfl, fun hk => not_lt.2 h ((Measurement.inRange_add_iff hm hn).1 hk)⟩
  | sub => exact ⟨_, rfl, fun hk => not_lt.2 h ((Measurement.inRange_sub_iff hm hn).1 hk)⟩
  | mul => exact ⟨_, rfl, fun hk => not_lt.2 h ((Measurement.inRange_mul_iff hm hn).1 hk)⟩
  | div =>
    have hzero : n.magnitude.isZero = false := Binary64.isZero_of_le_abs_div h
    have hk := (Measurement.div_eq_ok_iff (m := m)).2 ⟨hzero, rfl⟩
    refine ⟨_, ?_, fun hfinite => not_lt.2 h ((Measurement.inRange_div_iff hm hn hk).1 hfinite)⟩
    rw [onNumbers, hk]
    rfl
  | pow =>
    obtain ⟨e, he, hzero, hpast⟩ := h
    obtain ⟨k, hk, hmagnitude⟩ := Measurement.pow_eq_ok hzero
    refine ⟨k, ?_, ?_⟩
    · rw [onNumbers, power, he]
      simp only [hk]
      rfl
    · rw [Measurement.InRange, hmagnitude, Binary64.isFinite_pow_iff hm]
      exact not_not.2 hpast

end Operation

namespace Intrinsic

variable {f : Intrinsic} {vs : List Value}

/-- A function that does not leave the range has a finite number or none. -/
theorem apply_inRange (hvs : ∀ v ∈ vs, v.All InRange) (h : ¬ f.LeavesRange vs) :
    (f.apply vs).All InRange (Value.All InRange) := by
  unfold apply
  -- one case for each function, and last a wrong count of arguments
  split
  · exact (number_all (hvs _ List.mem_cons_self)).bind fun m hm =>
      .ok (.number (Measurement.inRange_sine hm))
  · exact (number_all (hvs _ List.mem_cons_self)).bind fun m hm =>
      .ok (.number (Measurement.inRange_cosine hm))
  · rename_i v
    cases hvs v List.mem_cons_self with
    | @number m hm =>
      refine Outcome.ofArithmetic_all fun k hk => ?_
      refine (Measurement.inRange_div_iff (Measurement.inRange_sine hm)
        (Measurement.inRange_cosine hm) hk).2 ?_
      exact lt_of_not_ge fun hpast => h (.tangent hpast)
    | _ => exact Outcome.all_fail _
  · exact (number_all (hvs _ List.mem_cons_self)).bind fun m hm =>
      Outcome.ofArithmetic_all fun k => Measurement.inRange_arcsine hm
  · exact (number_all (hvs _ List.mem_cons_self)).bind fun m hm =>
      .ok (.number (Measurement.inRange_arctangent hm))
  · exact (number_all (hvs _ List.mem_cons_self)).bind fun m hm =>
      .ok (.number (Measurement.inRange_abs hm))
  · refine (numbers_all (hvs _ List.mem_cons_self)).bind_of_eq fun ms hms hfinite => ?_
    refine Outcome.ofArithmetic_all fun k hk => ?_
    exact (Measurement.inRange_averageOfMeasurements_iff hfinite hk).2 fun hsum =>
      h (.average hms hsum)
  · rename_i list readingError
    refine (numbers_all (hvs _ List.mem_cons_self)).bind_of_eq fun ms hms hfinite => ?_
    cases readingError with
    | number e =>
      refine Outcome.ofArithmetic_all fun k hk => ?_
      exact (Measurement.inRange_averageOfReadings_iff hfinite hk).2 fun hsum =>
        h (.averageOfReadings hms hsum)
    | _ => exact Outcome.all_fail _
  · exact (number_all (hvs _ List.mem_cons_self)).bind fun m _ => .ok .text
  · exact Outcome.all_fail _

/-- Numbers fetched from a list with finite magnitudes have finite magnitudes. -/
theorem inRange_of_numbers {list : Value} {ms : List Measurement} (hlist : list.All InRange)
    (hms : numbers list = .ok ms) : ∀ m ∈ ms, m.InRange := by
  have hall := numbers_all hlist
  rw [hms] at hall
  exact hall.of_ok

/-- A function that leaves the range has a number all the same. -/
theorem apply_of_leavesRange (hvs : ∀ v ∈ vs, v.All InRange) (h : f.LeavesRange vs) :
    ∃ k, f.apply vs = .ok (.number k) ∧ ¬ k.InRange := by
  cases h with
  | @tangent m hpast =>
    have hm : m.InRange := by
      cases hvs _ List.mem_cons_self with
      | number hm => exact hm
    have hzero : m.cosine.magnitude.isZero = false := Binary64.isZero_of_le_abs_div hpast
    have hk := (Measurement.div_eq_ok_iff (m := m.sine)).2 ⟨hzero, rfl⟩
    have htangent : m.tangent = .ok _ := hk
    refine ⟨_, congrArg Outcome.ofArithmetic htangent, fun hfinite => ?_⟩
    exact not_lt.2 hpast ((Measurement.inRange_div_iff (Measurement.inRange_sine hm)
      (Measurement.inRange_cosine hm) hk).1 hfinite)
  | @average list ms hms hsum =>
    have hfinite := inRange_of_numbers (hvs list List.mem_cons_self) hms
    have hk := Measurement.averageOfMeasurements_eq_ok_iff.2 ⟨hsum.ne_nil, rfl⟩
    refine ⟨_, ?_, fun hk' =>
      (Measurement.inRange_averageOfMeasurements_iff hfinite hk).1 hk' hsum⟩
    rw [apply, hms]
    exact congrArg Outcome.ofArithmetic hk
  | @averageOfReadings list ms e hms hsum =>
    have hfinite := inRange_of_numbers (hvs list List.mem_cons_self) hms
    have hk := (Measurement.averageOfReadings_eq_ok_iff (e := e.magnitude)).2 ⟨hsum.ne_nil, rfl⟩
    refine ⟨_, ?_, fun hk' => (Measurement.inRange_averageOfReadings_iff hfinite hk).1 hk' hsum⟩
    rw [apply, hms]
    exact congrArg Outcome.ofArithmetic hk

end Intrinsic

/-- The decoder looks at the range of every token. -/
theorem Literal.inRange_decode {tokens : List String} {m : Measurement}
    (h : decode tokens = .ok m) : m.InRange := by
  have hfinite : ∀ {token : String} {x : Binary64}, decodeToken token = .ok x →
      x.isFinite = true := by
    intro token x hx
    obtain ⟨d, -, -, hfinite⟩ := read_eq_ok (decodeToken_eq_ok_iff.1 hx)
    exact hfinite
  rcases decode_eq_ok h with ⟨_, x, hx, rfl⟩ | ⟨_, _, x, e, hx, -, rfl⟩
  · exact hfinite hx
  · exact hfinite hx

/-! ## 3. Whole evaluations

As for signs, the property is carried from visit to visit by `Request.answer_all`, and the exception
is a property of one visit. -/

/-- What a node makes of these values lies past the finite numbers. -/
inductive Assembly.LeavesRange : Assembly → List Value → Prop
  | operator {op : BinaryOperator} {m n : Measurement} {rest : List Value} :
      Operation.LeavesRange op m n →
      LeavesRange (.binary op) (.number m :: .number n :: rest)
  | call {name : String} {f : Intrinsic} {vs : List Value} : Intrinsic.ofName? name = some f →
      f.LeavesRange vs → LeavesRange (.call name) vs

/-- A visit that makes of operands with finite magnitudes a number that lies past the finite
ones. -/
structure Visit.LeavesRange (limit : Option Nat) (w : Visit Scope) : Prop where
  within : pastLimit limit w.depth = none
  operands : ∃ vs env,
    inOrder (evaluate limit (w.depth + 1)) w.node.plan.operands w.env = (.ok vs, env) ∧
      (∀ v ∈ vs, v.All InRange) ∧ w.node.plan.assembly.LeavesRange vs

section
variable {limit : Option Nat} {w : Visit Scope}

/-- Every other visit makes finite numbers of finite numbers. -/
theorem Visit.keeps_inRange (h : ¬ w.LeavesRange limit) : w.Keeps InRange limit := by
  intro vs env hwithin hrow hvs henv
  have hstays : ¬ w.node.plan.assembly.LeavesRange vs := fun hleaves =>
    h ⟨hwithin, vs, env, hrow, hvs, hleaves⟩
  refine w.node.run_all hvs henv (fun tokens m => Literal.inRange_decode) ?_ ?_ ?_
  · rintro op v u rest hplan rfl
    obtain ⟨hv, hu, -⟩ := List.forall_mem_cons.1 hvs |>.imp_right List.forall_mem_cons.1
    refine Operation.binary_all hv hu ?_
    rintro m n rfl rfl
    cases hv with
    | number hm =>
      cases hu with
      | number hn =>
        refine Operation.onNumbers_inRange hm hn fun hleaves => hstays ?_
        rw [hplan]
        exact .operator hleaves
  · rintro op v rest - rfl
    refine Operation.unary_all (hvs v List.mem_cons_self) ?_
    rintro m - rfl
    cases hvs _ List.mem_cons_self with
    | number hm => exact Measurement.inRange_neg hm
  · intro name hcall
    rw [Intrinsic.call]
    rcases hname : Intrinsic.ofName? name with _ | f
    · exact Outcome.all_fail _
    · refine Intrinsic.apply_inRange hvs fun hleaves => hstays ?_
      rw [hcall]
      exact .call hname hleaves

/-- The visits left out do what they are left out for. -/
theorem Visit.LeavesRange.result (h : w.LeavesRange limit) :
    ∃ m env, w.result limit = (.ok (.number m), env) ∧ ¬ m.InRange := by
  obtain ⟨vs, env, hrow, hvs, hleaves⟩ := h.operands
  rw [result_of_within h.within, hrow]
  generalize w.node.plan.assembly = a at hleaves
  cases hleaves with
  | @operator op m n rest hpast =>
    obtain ⟨hm, hn, -⟩ := List.forall_mem_cons.1 hvs |>.imp_right List.forall_mem_cons.1
    cases hm with
    | number hm =>
      cases hn with
      | number hn =>
        obtain ⟨k, hk, hfinite⟩ := Operation.onNumbers_of_leavesRange hm hn hpast
        have hbinary : Operation.binary op (.number m) (.number n) = .ok (.number k) := by
          rw [Operation.binary]
          exact hk
        refine ⟨k, env, ?_, hfinite⟩
        rw [conclude, Assembly.run, hbinary]
        rfl
  | @call name f _ hname hpast =>
    obtain ⟨k, hk, hfinite⟩ := Intrinsic.apply_of_leavesRange hvs hpast
    have hcall : Intrinsic.call name vs = .ok (.number k) := by
      rw [Intrinsic.call, hname]
      exact hk
    refine ⟨k, env, ?_, hfinite⟩
    rw [conclude, Assembly.run, hcall]
    rfl

end

/-- Where every number in the scope has a finite magnitude, so has every number that a request hands
out, as its value or in a `return`, and every number in the scope that it leaves, unless a visit
leaves the range: a sum, difference, product, quotient, power, tangent or average of finite
magnitudes that lies past the finite numbers. Such a visit is not reported: its value is a number,
and the magnitude is not finite. -/
theorem Request.in_range_unless_leaving (q : Request) (t : Tree) (ev : Evaluator) {s : Scope}
    (hs : s.All InRange) :
    ((∀ w ∈ q.visits t ev s, ¬ w.LeavesRange ev.maxDepth) →
        ((q.answer t (ev, s)).1.All InRange fun o => ∀ v ∈ o, v.All InRange) ∧
          (q.answer t (ev, s)).2.2.All InRange) ∧
      ∀ w ∈ q.visits t ev s, w.LeavesRange ev.maxDepth →
        ∃ m env, w.result ev.maxDepth = (.ok (.number m), env) ∧ ¬ m.InRange :=
  ⟨fun h => q.answer_all t ev hs fun w hw => Visit.keeps_inRange (h w hw),
    fun _ _ hleaves => hleaves.result⟩

/-- A product of two names bound to `1`: the one visit that computes anything stays in range. -/
theorem in_range_unless_leaving_of_name :
    let s := Scope.empty.define "x" (.number ⟨.one, 0, 0⟩)
    let t := Tree.binary (.name "x") "*" (.name "x")
    s.All InRange ∧ (∀ w ∈ Request.evaluate.visits t .new s, ¬ w.LeavesRange none) ∧
      ((Request.evaluate.answer t (.new, s)).1.All InRange fun o => ∀ v ∈ o, v.All InRange) ∧
      (Request.evaluate.answer t (.new, s)).2.2.All InRange := by
  intro s t
  have hnumber : Measurement.InRange ⟨.one, 0, 0⟩ := by
    simp only [Measurement.InRange, Binary64.isFinite_one]
  have hs : s.All InRange := (Scope.all_empty InRange).define "x" (.number hnumber)
  have hstays : ∀ w ∈ Request.evaluate.visits t .new s, ¬ w.LeavesRange none := by
    intro w hw hleaves
    obtain ⟨vs, env, hrow, -, hpast⟩ := hleaves.operands
    have hnames : ∀ u ∈ t.nodes, u = .name "x" := by
      intro u hu
      have hmem : u ∈ [Tree.name "x", Tree.name "x"] := hu
      simpa using hmem
    rcases Request.visits_of_leaves (fun u hu => by rw [hnames u hu]; rfl) hw with rfl | hleaf
    · -- both operands are looked up
      have hvalue : ∀ i < 2, ((inOrder (evaluate none 1) t.plan.operands s).1.toOption.bind
          (·[i]?)).bind Value.number? = some ⟨.one, 0, 0⟩ := by decide +kernel
      have hoperands : inOrder (evaluate none 1) t.plan.operands s = (.ok vs, env) := hrow
      rw [hoperands] at hvalue
      have hassembly : Assembly.LeavesRange (.binary .mul) vs := hpast
      cases hassembly with
      | @operator _ m n rest hexact =>
        have hm : m = ⟨.one, 0, 0⟩ := Option.some.inj (hvalue 0 (by decide))
        have hn : n = ⟨.one, 0, 0⟩ := Option.some.inj (hvalue 1 (by decide))
        have hproduct : roundingBound ≤ |m.magnitude.value * n.magnitude.value| := hexact
        simp only [hm, hn, Binary64.value_one, mul_one] at hproduct
        have hone := Binary64.abs_value_lt Binary64.isFinite_one
        rw [Binary64.value_one] at hone
        exact absurd hone (not_lt.2 hproduct)
    · -- the names compute nothing
      have hlookup : (Tree.name "x").plan.assembly = .lookup "x" := rfl
      rw [hnames _ hleaf, hlookup] at hpast
      cases hpast
  obtain ⟨hfinite, -⟩ := Request.evaluate.in_range_unless_leaving t .new hs
  exact ⟨hs, hstays, hfinite hstays⟩

/-- The product of `10 ^ 308` and `10` is a number, and infinite. -/
theorem magnitude_not_finite :
    let t := Tree.binary (.number ["1*10^308"]) "*" (.number ["10"])
    Scope.empty.All InRange ∧
      ∃ m, (Request.evaluate.answer t (.new, Scope.empty)).1 = .ok (some (.number m)) ∧
        m.magnitude = .infinite false ∧ ¬ m.InRange := by
  intro t
  have ofMagnitude : ∀ {r : Outcome (Option Value)} {x : Binary64},
      ((r.toOption.bind id).bind Value.number?).map Measurement.magnitude = some x →
      ∃ m, r = .ok (some (.number m)) ∧ m.magnitude = x := by
    rintro (i | _ | v) x h
    · cases h
    · cases h
    · cases v with
      | number n => exact ⟨n, rfl, Option.some.inj h⟩
      | _ => cases h
  obtain ⟨m, hm, hmagnitude⟩ :
      ∃ m, (Request.evaluate.answer t (.new, Scope.empty)).1 = .ok (some (.number m)) ∧
        m.magnitude = .infinite false := ofMagnitude (by decide +kernel)
  refine ⟨Scope.all_empty InRange, m, hm, hmagnitude, ?_⟩
  rw [InRange, hmagnitude]
  exact Bool.false_ne_true

end Metrology
