/-
Uncertainties are not below zero.

Most operations take a root or a size for each channel of their result, which is not below zero
whatever the operands are. The few that pass a channel on, or divide one by a slope, keep it from
falling below zero. So a script that starts from sound numbers has sound numbers throughout, with
one exception: `avg_readings` takes a reading error from the magnitude of its second argument, and a
magnitude can be below zero. `SignedReadingError` is a visit that meets this, and in an evaluation
without one nothing falls below zero (`Visit.keeps_sound`).
-/
import Metrology.Measurement.Average
import Metrology.Proofs.Numbers
import Metrology.Proofs.NumericTokens
import Metrology.Tree.Build
set_option autoImplicit false

namespace Metrology

/-! ## 1. Channels

A channel of a result is made by one of few rules. Of each rule it is shown once that it does not go
below zero: the rules of two channels are a root of a sum of squares, those of one channel an
absolute value or the old channel over a slope. -/

namespace Measurement

/-- Neither channel is below zero. -/
structure Sound (m : Measurement) : Prop where
  reading : m.readingError.NotBelowZero
  standard : m.standardError.NotBelowZero

variable {m : Measurement}

theorem sound_exact (x : Binary64) : (exact x).Sound := ⟨rfl, rfl⟩

/-- A rule that never goes below zero makes a sound value of any. -/
theorem sound_perChannel {rule : Binary64 → Binary64} (x : Binary64)
    (h : ∀ e : Binary64, (rule e).NotBelowZero) (m : Measurement) : (m.perChannel x rule).Sound :=
  ⟨h _, h _⟩

/-- A rule of two channels that never goes below zero makes a sound value of any two. -/
theorem sound_perChannels {rule : Binary64 → Binary64 → Binary64} (x : Binary64)
    (h : ∀ e f : Binary64, (rule e f).NotBelowZero) (m n : Measurement) :
    (m.perChannels n x rule).Sound :=
  ⟨h _ _, h _ _⟩

/-- A rule that keeps numbers from falling below zero keeps a sound value sound. -/
theorem Sound.perChannel (h : m.Sound) {rule : Binary64 → Binary64} (x : Binary64)
    (hrule : ∀ e : Binary64, e.NotBelowZero → (rule e).NotBelowZero) :
    (m.perChannel x rule).Sound :=
  ⟨hrule _ h.reading, hrule _ h.standard⟩

/-- A root of squares is not below zero (`quadrature`). -/
theorem notBelowZero_quadrature (e f : Binary64) : (quadrature e f).NotBelowZero := by
  rw [quadrature]
  exact Binary64.notBelowZero_numerics_sqrt _

/-- A root of squares times an absolute value is not below zero (`relative_channel`). -/
theorem notBelowZero_relativeRule (result x y e f : Binary64) :
    (relativeRule result x y e f).NotBelowZero := by
  rw [relativeRule]
  exact (Binary64.notBelowZero_numerics_abs result).hMul (notBelowZero_quadrature _ _)

/-! ## 2. Operations

Sums, products and powers give sound values whatever they are given; the inverse functions and the
absolute value keep a sound value sound. -/

/-- The channels of a sum are roots of squares. -/
theorem sound_add (m n : Measurement) : (m + n).Sound :=
  sound_perChannels _ notBelowZero_quadrature m n

theorem sound_sub (m n : Measurement) : (m - n).Sound :=
  sound_perChannels _ notBelowZero_quadrature m n

/-- The channels of a product are roots of squares times an absolute value. -/
theorem sound_mul (m n : Measurement) : (m * n).Sound :=
  sound_perChannels _ (notBelowZero_relativeRule _ _ _) m n

/-- Negation is a product. -/
theorem sound_neg (m : Measurement) : (-m).Sound := sound_mul m _

/-- A quotient has the rule of a product. -/
theorem sound_div {n k : Measurement} (h : m.div n = .ok k) : k.Sound := by
  rw [div] at h
  split at h
  · cases h
  · cases h
    exact sound_perChannels _ (notBelowZero_relativeRule _ _ _) m n

/-- Powers take an absolute value; the power zero is exact. -/
theorem sound_pow {n : Int} {k : Measurement} (h : m.pow n = .ok k) : k.Sound := by
  rw [pow] at h
  split at h
  · cases h
  · dsimp only at h
    -- the power zero, and every other
    split at h
    · cases h
      exact sound_exact _
    · cases h
      exact sound_perChannel _ (fun e => Binary64.notBelowZero_numerics_abs _) m

/-- The sine takes the absolute value of a slope times a channel. -/
theorem sound_sine (m : Measurement) : m.sine.Sound := by
  rw [sine]
  exact sound_perChannel _ (fun e => Binary64.notBelowZero_numerics_abs _) m

/-- The cosine takes the absolute value of a slope times a channel. -/
theorem sound_cosine (m : Measurement) : m.cosine.Sound := by
  rw [cosine]
  exact sound_perChannel _ (fun e => Binary64.notBelowZero_numerics_abs _) m

/-- The tangent is a quotient. -/
theorem sound_tangent {k : Measurement} (h : m.tangent = .ok k) : k.Sound := sound_div h

/-- The slope of the arcsine is a root, and one that is zero is not divided by. -/
theorem Sound.arcsine (hm : m.Sound) {k : Measurement} (h : m.arcsine = .ok k) : k.Sound := by
  rw [Measurement.arcsine] at h
  dsimp only at h
  split at h
  · cases h
    refine hm.perChannel _ fun e he => ?_
    rw [relative]
    split
    · rfl
    · rename_i hzero
      rw [Numerics.isZero_rounded, Bool.not_eq_true] at hzero
      exact he.hDiv ((Binary64.notBelowZero_numerics_sqrt _).isNegative hzero)
  · cases h

/-- The slope of the arctangent is at least one. -/
theorem Sound.arctangent (hm : m.Sound) : m.arctangent.Sound := by
  rw [Measurement.arctangent]
  exact hm.perChannel _ fun e he =>
    he.hDiv (Binary64.isNegative_hAdd Binary64.isNegative_one (Binary64.isNegative_square _))

theorem Sound.abs (hm : m.Sound) : m.abs.Sound := ⟨hm.reading, hm.standard⟩

/-- The standard error of a mean is a root over a root; one reading has none. -/
theorem notBelowZero_standardErrorOfMean (xs : List Binary64) :
    (standardErrorOfMean xs).NotBelowZero := by
  rw [standardErrorOfMean]
  split
  · rfl
  · exact (Binary64.notBelowZero_numerics_sqrt _).hDiv
      (Binary64.isNegative_numerics_sqrt_ofNat _)

/-- An average of readings is as sound as the reading error it is given. -/
theorem sound_averageOfReadings {xs : List Binary64} {e : Binary64} (he : e.NotBelowZero)
    {k : Measurement} (h : averageOfReadings xs e = .ok k) : k.Sound := by
  rw [averageOfReadings] at h
  split at h
  · cases h
  · cases h
    exact ⟨he, notBelowZero_standardErrorOfMean xs⟩

/-- An average of measurements has a root for its standard error and no reading error. -/
theorem sound_averageOfMeasurements {ms : List Measurement} {k : Measurement}
    (h : averageOfMeasurements ms = .ok k) : k.Sound := by
  rw [averageOfMeasurements] at h
  dsimp only at h
  split at h
  · cases h
  · cases h
    exact ⟨rfl, Binary64.notBelowZero_numerics_sqrt _⟩

end Measurement

open Measurement (Sound)

namespace Literal

/-- The grammar of a numeric token has no sign. -/
theorem isNegative_decodeToken {token : String} {x : Binary64} (h : decodeToken token = .ok x) :
    x.isNegative = false := by
  obtain ⟨d, -, rfl, -⟩ := read_eq_ok (decodeToken_eq_ok_iff.1 h)
  exact Decimal.isNegative_toBinary64 d false

/-- The magnitude of a literal is exact or has a reading error without a sign. -/
theorem sound_decode {tokens : List String} {m : Measurement} (h : decode tokens = .ok m) :
    m.Sound := by
  rcases decode_eq_ok h with ⟨_, x, -, rfl⟩ | ⟨_, _, x, e, -, he, rfl⟩
  · exact Measurement.sound_exact x
  · exact ⟨Binary64.notBelowZero_of_isNegative (isNegative_decodeToken he), rfl⟩

end Literal

/-! ## 3. Operators and functions

`avg_readings` is the one function with a condition. Its second argument is a value of the script,
and a value may be negated, so the reading error it is given can be below zero. -/

/-- Operators between numbers give sound numbers, of any operands. -/
theorem Operation.onNumbers_sound (op : BinaryOperator) (m n : Measurement) :
    (onNumbers op m n).All Sound (Value.All Sound) := by
  cases op with
  | add => exact .ok (.number (Measurement.sound_add m n))
  | sub => exact .ok (.number (Measurement.sound_sub m n))
  | mul => exact .ok (.number (Measurement.sound_mul m n))
  | div => exact Outcome.ofArithmetic_all fun k => Measurement.sound_div
  | pow =>
    show (power m n).All Sound (Value.All Sound)
    rw [power]
    split
    · exact Outcome.ofArithmetic_all fun k => Measurement.sound_pow
    · exact Outcome.all_fail _

/-- Functions keep channels from falling below zero, if the reading error of readings is not below
zero. -/
theorem Intrinsic.apply_sound (f : Intrinsic) {vs : List Value} (hvs : ∀ v ∈ vs, v.All Sound)
    (h : f = .avgReadings → ∀ sample e, vs = [sample, .number e] → e.magnitude.NotBelowZero) :
    (f.apply vs).All Sound (Value.All Sound) := by
  unfold apply
  -- one case for each function, and last a wrong count of arguments
  split
  · exact (number_all (hvs _ List.mem_cons_self)).bind fun m _ => .ok (.number m.sound_sine)
  · exact (number_all (hvs _ List.mem_cons_self)).bind fun m _ => .ok (.number m.sound_cosine)
  · exact (number_all (hvs _ List.mem_cons_self)).bind fun m _ =>
      Outcome.ofArithmetic_all fun k => Measurement.sound_tangent
  · exact (number_all (hvs _ List.mem_cons_self)).bind fun m hm =>
      Outcome.ofArithmetic_all fun k => hm.arcsine
  · exact (number_all (hvs _ List.mem_cons_self)).bind fun m hm => .ok (.number hm.arctangent)
  · exact (number_all (hvs _ List.mem_cons_self)).bind fun m hm => .ok (.number hm.abs)
  · exact (numbers_all (hvs _ List.mem_cons_self)).bind fun ms _ =>
      Outcome.ofArithmetic_all fun k => Measurement.sound_averageOfMeasurements
  · rename_i list readingError
    refine (numbers_all (hvs _ List.mem_cons_self)).bind fun ms _ => ?_
    cases readingError with
    | number e =>
      exact Outcome.ofArithmetic_all fun k =>
        Measurement.sound_averageOfReadings (h rfl list e rfl)
    | _ => exact Outcome.all_fail _
  · exact (number_all (hvs _ List.mem_cons_self)).bind fun m _ => .ok .text
  · exact Outcome.all_fail _

/-! ## 4. Whole evaluations

What holds of one visit is carried to the whole by `Request.answer_all`, so the exception has to be
put as a property of one visit. -/

section
variable {limit : Option Nat} {w : Visit Scope} {e : Measurement}

/-- A visit of a call of `avg_readings` whose second argument has come out as the number `e`, of a
magnitude below zero. -/
structure Visit.SignedReadingError (limit : Option Nat) (w : Visit Scope) (e : Measurement) :
    Prop where
  within : pastLimit limit w.depth = none
  kind : w.node.kind = .call
  token : w.node.tokenAt? 0 = some "avg_readings"
  arguments : ∃ sample env,
    inOrder (evaluate limit (w.depth + 1)) w.node.nodes w.env = (.ok [sample, .number e], env)
  below : e.magnitude.lt 0 = true

/-- Every other visit makes sound numbers of sound numbers. -/
theorem Visit.keeps_sound (h : ∀ e, ¬ w.SignedReadingError limit e) : w.Keeps Sound limit := by
  intro vs env hwithin hrow hvs henv
  refine w.node.run_all hvs henv (fun tokens m => Literal.sound_decode) ?_ ?_ ?_
  · rintro op v u rest - rfl
    obtain ⟨hv, hu, -⟩ := List.forall_mem_cons.1 hvs |>.imp_right List.forall_mem_cons.1
    exact Operation.binary_all hv hu fun m n _ _ => Operation.onNumbers_sound op m n
  · rintro op v rest - rfl
    exact Operation.unary_all (hvs v List.mem_cons_self) fun m _ _ => m.sound_neg
  · intro name hcall
    obtain ⟨hk, ht⟩ := w.node.rule.of_call hcall
    rw [Intrinsic.call]
    rcases hname : Intrinsic.ofName? name with _ | f
    · exact Outcome.all_fail _
    · refine f.apply_sound hvs ?_
      rintro rfl sample e rfl
      -- if the magnitude were below zero, the visit would be one of those left out
      rw [← Intrinsic.name_of_ofName? hname] at ht
      rw [Tree.plan_of_call hk ht] at hrow
      rw [Binary64.NotBelowZero, Bool.eq_false_iff]
      exact fun hbelow => h e ⟨hwithin, hk, ht, ⟨sample, env, hrow⟩, hbelow⟩

/-- The visits left out do what they are left out for. -/
theorem Visit.SignedReadingError.readingError (h : w.SignedReadingError limit e) {v : Value}
    {env : Scope} (hv : w.result limit = (.ok v, env)) :
    ∃ m, v = .number m ∧ m.readingError = e.magnitude := by
  obtain ⟨sample, env', hrow⟩ := h.arguments
  rw [result_of_within h.within, Tree.plan_of_call h.kind h.token, hrow] at hv
  have hcall : Intrinsic.call "avg_readings" [sample, .number e] = .ok v :=
    Outcome.locate_eq_ok.1 (Prod.mk.inj hv).1
  have happly : Intrinsic.avgReadings.apply [sample, .number e] = .ok v := hcall
  rw [Intrinsic.apply] at happly
  rcases hsample : Intrinsic.numbers sample with i | ms
  all_goals rw [hsample] at happly
  · cases happly
  · have haverage : Outcome.ofArithmetic (Measurement.averageOfReadings
        (ms.map Measurement.magnitude) e.magnitude) = .ok v := happly
    rw [Measurement.averageOfReadings] at haverage
    split at haverage
    · cases haverage
    · cases haverage
      exact ⟨_, rfl, rfl⟩

end

/-- Where every number in the scope has channels that are not below zero, so has every number that a
request hands out, as its value or in a `return`, and every number in the scope that it leaves. The
one exception are calls of `avg_readings` with a second argument of a magnitude below zero: where
such a call is come to and has a value, this magnitude is the reading error of the value. -/
theorem Request.sound_unless_signed (q : Request) (t : Tree) (ev : Evaluator) {s : Scope}
    (hs : s.All Sound) :
    ((∀ w ∈ q.visits t ev s, ∀ e, ¬ w.SignedReadingError ev.maxDepth e) →
        ((q.answer t (ev, s)).1.All Sound fun o => ∀ v ∈ o, v.All Sound) ∧
          (q.answer t (ev, s)).2.2.All Sound) ∧
      ∀ w ∈ q.visits t ev s, ∀ e, w.SignedReadingError ev.maxDepth e →
        ∀ v env, w.result ev.maxDepth = (.ok v, env) →
          ∃ m, v = .number m ∧ m.readingError = e.magnitude := by
  refine ⟨fun h => q.answer_all t ev hs fun w hw => Visit.keeps_sound (h w hw), ?_⟩
  intro w _ e he v env hv
  exact he.readingError hv

/-- Two readings and their reading error, all bound to names: the one call there is takes the
magnitude `1`. -/
theorem sound_unless_signed_of_names :
    let readings : Value := .list [.number ⟨.one, .one, 0⟩, .number ⟨.ofNat 2, 0, .one⟩]
    let s := (Scope.empty.define "xs" readings).define "dx" (.number ⟨.one, 0, 0⟩)
    let t := Tree.call "avg_readings" [.name "xs", .name "dx"]
    s.All Sound ∧
      (∀ w ∈ Request.evaluate.visits t .new s, ∀ e, ¬ w.SignedReadingError none e) ∧
      ((Request.evaluate.answer t (.new, s)).1.All Sound fun o => ∀ v ∈ o, v.All Sound) ∧
      (Request.evaluate.answer t (.new, s)).2.2.All Sound := by
  intro readings s t
  have hs : s.All Sound := by
    refine ((Scope.all_empty Sound).define "xs" ?_).define "dx" (.number ⟨by decide +kernel, rfl⟩)
    refine .list (List.forall_mem_cons.2 ⟨.number ⟨by decide +kernel, rfl⟩, fun v hv => ?_⟩)
    rw [List.mem_singleton.1 hv]
    exact .number ⟨rfl, by decide +kernel⟩
  have hunsigned : ∀ w ∈ Request.evaluate.visits t .new s, ∀ e, ¬ w.SignedReadingError none e := by
    intro w hw e he
    obtain ⟨i, v, hturn, hreach⟩ := (Request.mem_visits _ t .new s w).1 hw
    rcases hturn with _ | ⟨-, hlater⟩
    · rcases Visit.reaches_cases hreach with rfl | ⟨j, u, hu, huw⟩
      · -- the second argument is looked up
        obtain ⟨sample, env, hrow⟩ := he.arguments
        have hnumber : ((inOrder (evaluate none 1) t.nodes s).1.toOption.bind (·[1]?)).bind
            Value.number? = some ⟨.one, 0, 0⟩ := by decide +kernel
        have harguments : inOrder (evaluate none 1) t.nodes s = (.ok [sample, .number e], env) :=
          hrow
        rw [harguments] at hnumber
        have hone : e = ⟨.one, 0, 0⟩ := Option.some.inj hnumber
        have hbelow := he.below
        rw [hone] at hbelow
        exact absurd hbelow (by decide +kernel)
      · -- nothing else that is come to is a call
        have hname : ∃ x, u.node = .name x := by
          have hmem := hu.mem_nodes
          simp only [t, Tree.nodes_call, List.mem_cons, List.not_mem_nil, or_false] at hmem
          exact hmem.elim (fun h => ⟨_, h⟩) fun h => ⟨_, h⟩
        obtain ⟨x, hx⟩ := hname
        rcases Visit.reaches_cases huw with rfl | ⟨k, z, hz, -⟩
        · have hkind := he.kind
          rw [hx] at hkind
          cases hkind
        · have hmem := hz.mem_nodes
          rw [hx] at hmem
          exact absurd hmem List.not_mem_nil
    · cases hlater
  obtain ⟨hsound, -⟩ := Request.evaluate.sound_unless_signed t .new hs
  exact ⟨hs, hunsigned, hsound hunsigned⟩

/-- One reading with the reading error `-2`. -/
theorem reading_error_below_zero :
    let t := Tree.call "avg_readings" [.list [.number ["1"]], .unary "-" (.number ["2"])]
    Scope.empty.All Sound ∧
      (Request.evaluate.answer t (.new, Scope.empty)).1 =
        .ok (some (.number ⟨.one, .ofInt (-2), 0⟩)) ∧
      (Binary64.ofInt (-2)).lt 0 = true := by
  intro t
  have ofNumber : ∀ {r : Outcome (Option Value)} {m : Measurement},
      (r.toOption.bind id).bind Value.number? = some m → r = .ok (some (.number m)) := by
    rintro (i | _ | v) m h
    · cases h
    · cases h
    · cases v with
      | number n =>
        cases h
        rfl
      | _ => cases h
  exact ⟨Scope.all_empty Sound, ofNumber (by decide +kernel), by decide +kernel⟩

end Metrology
