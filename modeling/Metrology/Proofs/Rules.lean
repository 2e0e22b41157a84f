/-
What the plan of a node can be, and what a node can raise by itself.

`Tree.plan` decides by kind, by tokens and by what they spell. `Tree.Rule` has one constructor for
each outcome of these decisions, and `rule` says that there are no others. What holds of the rules
of evaluation one by one is a case analysis of `Tree.Rule` and does not open the plan again.

The rest is about failures. Operators, intrinsic functions, literals and malformed nodes only ever
raise a failure that states its cause and nothing else. With operators the cause lies with the
operands, with functions with the arguments, their number or the name, with literals and malformed
nodes with the node as it is written (`Cause.liesWith`). None of them is ever one that belongs to
the depth limit, to the end of a script or to packages. Control statements are the one other thing
that a node can raise.
-/
import Metrology.Evaluation.Plan
import Mathlib.Data.List.Basic
set_option autoImplicit false

namespace Metrology

/-! ## 1. Fresh failures -/

/-- The causes that a node raises by itself. The others belong to the depth limit, to the end of a
script and to the resolution of packages. -/
def Cause.ofNode : Cause → Bool
  | depthExceeded _ => false
  | strayControl _ => false
  | unresolvedPackage _ => false
  | _ => true

/-- The causes that lie with values or with the text of a literal. Operators, functions and literals
raise no others. -/
def Cause.ofValues : Cause → Bool
  | malformedLiteral _ => true
  | arithmetic _ => true
  | undefinedFunction _ => true
  | typeMismatch .. => true
  | operandMismatch .. => true
  | arityMismatch .. => true
  | _ => false

/-- The cause that lies with the text of a literal. -/
def Cause.ofLiteral : Cause → Bool
  | malformedLiteral _ => true
  | _ => false

/-- The causes that lie with the operands of an operator or the arguments of a function. -/
def Cause.ofOperands : Cause → Bool
  | arithmetic _ => true
  | typeMismatch .. => true
  | operandMismatch .. => true
  | _ => false

/-- The causes that lie with a node as it is written: a number that cannot be read, a control
statement by a token that is no keyword, children that do not fit the kind. -/
def Cause.liesWith (t : Tree) : Cause → Bool
  | malformedLiteral _ => t.kind == .number
  | unknownKeyword keyword =>
    t.kind == .control && t.tokenAt? 0 == some keyword && (Keyword.ofToken? keyword).isNone
  | malformedNode kind _ => t.kind == kind
  | _ => false

/-- What lies with operands lies with values. -/
theorem Cause.ofValues_of_ofOperands {cause : Cause} (h : cause.ofOperands = true) :
    cause.ofValues = true := by
  cases cause with
  | arithmetic fault => rfl
  | typeMismatch expected got => rfl
  | operandMismatch op left right => rfl
  | _ => cases h

/-- What lies with the text of a literal counts as lying with values. -/
theorem Cause.ofValues_of_ofLiteral {cause : Cause} (h : cause.ofLiteral = true) :
    cause.ofValues = true := by
  cases cause with
  | malformedLiteral detail => rfl
  | _ => cases h

/-- In a number literal, what lies with the text lies with the node. -/
theorem Cause.liesWith_of_ofLiteral {t : Tree} (ht : t.kind = .number) {cause : Cause}
    (h : cause.ofLiteral = true) : cause.liesWith t = true := by
  cases cause with
  | malformedLiteral detail => exact beq_iff_eq.2 ht
  | _ => cases h

/-- A malformed node of the kind of a node lies with that node. -/
theorem Cause.liesWith_malformedNode (t : Tree) (detail : String) :
    (Cause.malformedNode t.kind detail).liesWith t = true :=
  beq_iff_eq.2 rfl

/-- What lies with a node as it is written is raised by the node. -/
theorem Cause.ofNode_of_liesWith {t : Tree} {cause : Cause} (h : cause.liesWith t = true) :
    cause.ofNode = true := by
  cases cause with
  | depthExceeded most => cases h
  | strayControl keyword => cases h
  | unresolvedPackage name => cases h
  | _ => rfl

/-- What lies with values is raised by the node that has them. -/
theorem Cause.ofNode_of_ofValues {cause : Cause} (h : cause.ofValues = true) :
    cause.ofNode = true := by
  cases cause with
  | depthExceeded most => cases h
  | strayControl keyword => cases h
  | unresolvedPackage name => cases h
  | _ => rfl

/-- Not interrupted other than by a failure with such a cause, without a place and without notes. -/
def Outcome.FailsWith {α : Type} (causes : Cause → Bool) (r : Outcome α) : Prop :=
  ∀ i, r = .error i → ∃ cause, i = .failure (.of cause) ∧ causes cause = true

/-- Not interrupted other than by a failure that a node raises by itself, without a place and
without notes. -/
def Outcome.Fresh {α : Type} (r : Outcome α) : Prop :=
  ∀ i, r = .error i → ∃ cause, i = .failure (.of cause) ∧ cause.ofNode = true

namespace Outcome

variable {α β : Type} {causes : Cause → Bool}

/-- A value is no failure. -/
theorem failsWith_ok (a : α) : Outcome.FailsWith causes (.ok a) := by
  intro i h
  cases h

/-- A failure that only states its cause has that cause. -/
theorem failsWith_fail {cause : Cause} (h : causes cause = true) :
    (Outcome.fail cause : Outcome α).FailsWith causes := by
  intro i hi
  cases hi
  exact ⟨cause, rfl, h⟩

/-- A chain of two fails with such a cause if both of its links do. -/
theorem FailsWith.bind {r : Outcome α} {f : α → Outcome β} (hr : r.FailsWith causes)
    (hf : ∀ a, (f a).FailsWith causes) : (r >>= f).FailsWith causes := by
  cases r with
  | error i =>
    intro j hj
    cases hj
    exact hr i rfl
  | ok a => exact hf a

/-- A function applied to the value does not change how it fails. -/
theorem FailsWith.map {r : Outcome α} (hr : r.FailsWith causes) (f : α → β) :
    Outcome.FailsWith causes (r.map f) := by
  intro i hi
  exact hr i (map_eq_error.1 hi)

/-- The cause of a failure is one of those. -/
theorem FailsWith.cause_of_eq {r : Outcome α} (hr : r.FailsWith causes) {cause : Cause}
    (h : r = Outcome.fail cause) : causes cause = true := by
  obtain ⟨other, hother, hcauses⟩ := hr _ h
  cases hother
  exact hcauses

/-- More causes may be named than there are. -/
theorem FailsWith.mono {r : Outcome α} (hr : r.FailsWith causes) {causes' : Cause → Bool}
    (h : ∀ {cause : Cause}, causes cause = true → causes' cause = true) :
    r.FailsWith causes' := by
  intro i hi
  obtain ⟨cause, hcause, hcauses⟩ := hr i hi
  exact ⟨cause, hcause, h hcauses⟩

/-- Faults of arithmetic lie with the operands. -/
theorem failsWith_ofArithmetic (r : Except ArithmeticFault Measurement) :
    (Outcome.ofArithmetic r).FailsWith Cause.ofOperands := by
  cases r with
  | ok m => exact failsWith_ok _
  | error fault => exact failsWith_fail rfl

/-- A failure that lies with values is fresh. -/
theorem FailsWith.fresh {r : Outcome α} (h : r.FailsWith Cause.ofValues) : r.Fresh := by
  intro i hi
  obtain ⟨cause, hcause, hvalues⟩ := h i hi
  exact ⟨cause, hcause, Cause.ofNode_of_ofValues hvalues⟩

/-- A failure that only states a cause of a node is fresh. -/
theorem fresh_fail {cause : Cause} (h : cause.ofNode = true) :
    (Outcome.fail cause : Outcome α).Fresh :=
  failsWith_fail h

end Outcome

/-! ## 2. Operators, functions and literals

Each of them is gone through branch by branch. That is done here once, and what a whole node raises
is put together from it. -/

section
variable [Numerics]

/-- An operator between two values fails for its operands (`evaluate_binary`). -/
theorem Operation.binary_failsWith (op : BinaryOperator) (v w : Value) :
    (Operation.binary op v w).FailsWith Cause.ofOperands := by
  unfold Operation.binary
  -- two numbers, then the sums of texts and of lists, then operands of other types
  split
  · rename_i m n
    cases op with
    | add => exact Outcome.failsWith_ok _
    | sub => exact Outcome.failsWith_ok _
    | mul => exact Outcome.failsWith_ok _
    | div => exact Outcome.failsWith_ofArithmetic _
    | pow =>
      show (Operation.power m n).FailsWith Cause.ofOperands
      unfold Operation.power
      split
      · exact Outcome.failsWith_ofArithmetic _
      · exact Outcome.failsWith_fail rfl
  · exact Outcome.failsWith_ok _
  · exact Outcome.failsWith_ok _
  · exact Outcome.failsWith_fail rfl

/-- An operator before a value fails for its operand (`evaluate_unary`). -/
theorem Operation.unary_failsWith (op : UnaryOperator) (v : Value) :
    (Operation.unary op v).FailsWith Cause.ofOperands := by
  unfold Operation.unary
  split
  · exact Outcome.failsWith_ok _
  · exact Outcome.failsWith_ok _
  · exact Outcome.failsWith_fail rfl

namespace Intrinsic

omit [Numerics] in
/-- An argument that is no number is to blame for it. -/
theorem number_failsWith (v : Value) : (number v).FailsWith Cause.ofOperands := by
  unfold number
  split
  · exact Outcome.failsWith_ok _
  · exact Outcome.failsWith_fail rfl

omit [Numerics] in
/-- An item that is no number is to blame for it. -/
theorem numbersOf_failsWith (vs : List Value) : (numbersOf vs).FailsWith Cause.ofOperands := by
  induction vs with
  | nil => exact Outcome.failsWith_ok _
  | cons v vs ih =>
    rw [numbersOf]
    exact (number_failsWith v).bind fun m => ih.bind fun ms => Outcome.failsWith_ok _

omit [Numerics] in
/-- An argument that is no list of numbers is to blame for it. -/
theorem numbers_failsWith (v : Value) : (numbers v).FailsWith Cause.ofOperands := by
  unfold numbers
  split
  · exact numbersOf_failsWith _
  · exact Outcome.failsWith_fail rfl

/-- With the right number of arguments only they are to blame. -/
theorem apply_failsWith (f : Intrinsic) {vs : List Value} (h : vs.length = f.arity) :
    (f.apply vs).FailsWith Cause.ofOperands := by
  -- by the number of arguments that the function takes, which is one or two
  rcases hf : f.arity with _ | _ | n
  · cases f <;> cases hf
  · obtain ⟨v, rfl⟩ := List.length_eq_one_iff.1 (h.trans hf)
    cases f with
    | sin => exact (number_failsWith v).bind fun m => Outcome.failsWith_ok _
    | cos => exact (number_failsWith v).bind fun m => Outcome.failsWith_ok _
    | tan => exact (number_failsWith v).bind fun m => Outcome.failsWith_ofArithmetic _
    | asin => exact (number_failsWith v).bind fun m => Outcome.failsWith_ofArithmetic _
    | atan => exact (number_failsWith v).bind fun m => Outcome.failsWith_ok _
    | abs => exact (number_failsWith v).bind fun m => Outcome.failsWith_ok _
    | avg => exact (numbers_failsWith v).bind fun ms => Outcome.failsWith_ofArithmetic _
    | avgReadings => cases hf
    | latex => exact (number_failsWith v).bind fun m => Outcome.failsWith_ok _
  · -- the one function of two arguments
    cases f with
    | avgReadings =>
      obtain ⟨v, w, rfl⟩ := List.length_eq_two.1 h
      exact (numbers_failsWith v).bind fun ms =>
        (number_failsWith w).bind fun e => Outcome.failsWith_ofArithmetic _
    | _ => cases hf

/-- A call fails for its name, for the number of its arguments or for these (`call_intrinsic`). -/
theorem call_failsWith (name : String) (vs : List Value) :
    (call name vs).FailsWith Cause.ofValues := by
  unfold call
  split
  · rename_i f _
    -- the wrong number is refused before the function is asked
    by_cases h : vs.length = f.arity
    · exact (apply_failsWith f h).mono Cause.ofValues_of_ofOperands
    · rw [apply_of_length_ne f h]
      exact Outcome.failsWith_fail rfl
  · exact Outcome.failsWith_fail rfl

end Intrinsic

end

namespace Literal

/-- A numeric token fails for its text (`decode_token`). -/
theorem decodeToken_failsWith (token : String) :
    (Outcome.ofExcept (decodeToken token)).FailsWith Cause.ofLiteral := by
  unfold decodeToken
  split
  · exact Outcome.failsWith_ok _
  · exact Outcome.failsWith_fail rfl

/-- The tokens of a literal fail for their texts or for their number (`decode_number`). -/
theorem decode_failsWith (tokens : List String) :
    (Outcome.ofExcept (decode tokens)).FailsWith Cause.ofLiteral := by
  -- the chain of decoding is one of plain failures, and the lemmas above speak of outcomes
  have ofExcept_bind : ∀ {α β : Type} (r : Except Failure α) (f : α → Except Failure β),
      Outcome.ofExcept (r >>= f) = Outcome.ofExcept r >>= fun a => Outcome.ofExcept (f a) := by
    intro α β r f
    cases r <;> rfl
  unfold decode
  -- by the number of tokens: none, one, two, more
  split
  · exact Outcome.failsWith_fail rfl
  · rw [ofExcept_bind]
    exact (decodeToken_failsWith _).bind fun x => Outcome.failsWith_ok _
  · rw [ofExcept_bind]
    refine (decodeToken_failsWith _).bind fun x => ?_
    rw [ofExcept_bind]
    exact (decodeToken_failsWith _).bind fun y => Outcome.failsWith_ok _
  · exact Outcome.failsWith_fail rfl

end Literal

/-! ## 3. The rules

The engine's dispatch on the kind (`eval_inner`) is a match; `Tree.Rule` is that match as a
relation, with what each branch knows of the node. `of_bind`, `of_lookup` and `of_call` read it
backwards, from the assembly to the node. -/

/-- Nodes that stand for a value by their own tokens. -/
def Kind.isLiteral : Kind → Bool
  | .number | .text | .symbol | .package => true
  | _ => false

namespace Tree

/-- The plan of a control statement by its keyword. -/
def keywordPlan (t : Tree) : Keyword → Plan
  | .ret => ⟨t.nodes.take 1, .ret⟩
  | .brk => .settled (.error .breaking)
  | .cont => .settled (.error .continuing)

/-- The plans that a node can have, with what is known of the node in each case. -/
inductive Rule (t : Tree) : Plan → Prop
  | literal {v : Value} : t.kind.isLiteral = true → Rule t (.settled (.ok v))
  | malformed {cause : Cause} : cause.liesWith t = true → Rule t (.fail cause)
  | name {token : String} : t.kind = .name → t.tokenAt? 0 = some token →
      Rule t ⟨[], .lookup token⟩
  | assign {token : String} : t.kind = .assign → t.tokenAt? 0 = some token →
      Rule t ⟨t.onlyNode?.toList, .bind token⟩
  | group : t.kind = .group → Rule t ⟨t.onlyNode?.toList, .group⟩
  | binary {op : BinaryOperator} : t.kind = .binary → t.tokenAt? 1 = some op.symbol →
      Rule t ⟨t.sides, .binary op⟩
  | unary {op : UnaryOperator} : t.kind = .unary → t.tokenAt? 0 = some op.symbol →
      Rule t ⟨(t.nodeAt? 1).toList, .unary op⟩
  | call {token : String} : t.kind = .call → t.tokenAt? 0 = some token →
      Rule t ⟨t.nodes, .call token⟩
  | list : t.kind = .list → Rule t ⟨t.nodes, .list⟩
  | block : t.kind = .block → Rule t ⟨t.nodes, .block⟩
  | control {k : Keyword} : t.kind = .control → t.tokenAt? 0 = some k.text →
      Rule t (t.keywordPlan k)

variable {t : Tree}

/-- An outcome that is settled without a control statement. -/
theorem Rule.of_failsWith (ht : t.kind.isLiteral = true) {r : Outcome Value}
    (hr : r.FailsWith (Cause.liesWith t)) : t.Rule (.settled r) := by
  cases r with
  | ok v => exact .literal ht
  | error i =>
    obtain ⟨cause, rfl, hcause⟩ := hr i rfl
    exact .malformed hcause

/-- A plan that waits for a token obeys the rules if it does so once it has the token; a missing
token is a malformed node. -/
theorem planToken_rule {i : Nat} {plan : String → Plan}
    (h : ∀ token, t.tokenAt? i = some token → t.Rule (plan token)) :
    t.Rule (t.planToken i plan) := by
  unfold planToken
  split
  · exact h _ ‹_›
  · exact .malformed (Cause.liesWith_malformedNode t _)

/-- A number literal fails for its text, or because it holds a nested node. -/
theorem numberValue_failsWith (ht : t.kind = .number) :
    t.numberValue.FailsWith (Cause.liesWith t) := by
  unfold numberValue
  split
  · exact ((Literal.decode_failsWith _).map _).mono (Cause.liesWith_of_ofLiteral ht)
  · exact Outcome.failsWith_fail (beq_iff_eq.2 ht)

/-- A text literal fails when it is too short to be one. -/
theorem textValue_failsWith (ht : t.kind = .text) (token : String) :
    (textValue token).FailsWith (Cause.liesWith t) := by
  unfold textValue
  split
  · exact Outcome.failsWith_ok _
  · exact Outcome.failsWith_fail (beq_iff_eq.2 ht)

/-- A control statement is planned by its keyword. -/
theorem planControl_text (t : Tree) (k : Keyword) : t.planControl k.text = t.keywordPlan k := by
  rw [planControl, Keyword.ofToken, Keyword.ofToken?_text]
  cases k <;> rfl

/-- The plan of a control statement is that of its keyword. -/
theorem plan_of_keyword (hk : t.kind = .control) {k : Keyword}
    (ht : t.tokenAt? 0 = some k.text) : t.plan = t.keywordPlan k := by
  rw [plan, hk]
  simp only [planToken, ht]
  exact planControl_text t k

/-- A control statement obeys the rules whatever its token is. -/
theorem planControl_rule (hk : t.kind = .control) {token : String}
    (ht : t.tokenAt? 0 = some token) : t.Rule (t.planControl token) := by
  rcases h : Keyword.ofToken? token with _ | k
  · -- a control statement with some other token is put together wrongly
    rw [planControl, Keyword.ofToken, h]
    refine .malformed ?_
    simp [Cause.liesWith, hk, ht, h]
  · rw [Keyword.text_of_ofToken? h] at ht ⊢
    rw [planControl_text]
    exact .control hk ht

/-- The plan of a block has all its statements as operands. -/
theorem plan_of_block (hk : t.kind = .block) : t.plan = ⟨t.nodes, .block⟩ := by
  rw [plan, hk]

/-- The plan of a call has all its arguments as operands. -/
theorem plan_of_call (hk : t.kind = .call) {name : String} (ht : t.tokenAt? 0 = some name) :
    t.plan = ⟨t.nodes, .call name⟩ := by
  rw [plan, hk]
  simp only [planToken, ht]

/-- The plan of an assignment has the one nested node as operand. -/
theorem plan_of_assign (hk : t.kind = .assign) {name : String} (ht : t.tokenAt? 0 = some name) :
    t.plan = ⟨t.onlyNode?.toList, .bind name⟩ := by
  rw [plan, hk]
  simp only [planToken, ht]

/-- Every node is evaluated by one of the rules. -/
theorem rule (t : Tree) : t.Rule t.plan := by
  -- one case for each kind, in the order of the kinds
  unfold plan
  split
  case h_1 hk => exact .of_failsWith (by rw [hk]; rfl) (numberValue_failsWith hk)
  case h_2 hk =>
    exact planToken_rule fun token _ =>
      .of_failsWith (by rw [hk]; rfl) (textValue_failsWith hk token)
  case h_3 hk => exact planToken_rule fun token _ => .literal (by rw [hk]; rfl)
  case h_4 hk => exact planToken_rule fun token _ => .literal (by rw [hk]; rfl)
  case h_5 hk => exact .list hk
  case h_6 hk => exact planToken_rule fun token ht => .name hk ht
  case h_7 hk => exact planToken_rule fun token ht => .assign hk ht
  case h_8 hk => exact .group hk
  case h_9 hk =>
    refine planToken_rule fun token ht => ?_
    cases hop : BinaryOperator.ofSymbol? token with
    | none => exact .malformed (beq_iff_eq.2 hk)
    | some op => exact .binary hk (BinaryOperator.symbol_of_ofSymbol? hop ▸ ht)
  case h_10 hk =>
    refine planToken_rule fun token ht => ?_
    cases hop : UnaryOperator.ofSymbol? token with
    | none => exact .malformed (beq_iff_eq.2 hk)
    | some op => exact .unary hk (UnaryOperator.symbol_of_ofSymbol? hop ▸ ht)
  case h_11 hk => exact planToken_rule fun token ht => .call hk ht
  case h_12 hk => exact .block hk
  case h_13 hk => exact planToken_rule fun token ht => planControl_rule hk ht

/-- Only an assignment with a name binds, and that name. -/
theorem Rule.of_bind {p : Plan} (h : t.Rule p) {name : String} (ha : p.assembly = .bind name) :
    t.kind = .assign ∧ t.tokenAt? 0 = some name ∧ p.operands = t.onlyNode?.toList := by
  cases h with
  | assign hk ht =>
    cases ha
    exact ⟨hk, ht, rfl⟩
  | @control k _ _ => cases k <;> nomatch ha
  | _ => nomatch ha

/-- Only a name is looked up, and that name. -/
theorem Rule.of_lookup {p : Plan} (h : t.Rule p) {name : String}
    (ha : p.assembly = .lookup name) : t.kind = .name ∧ t.tokenAt? 0 = some name := by
  cases h with
  | name hk ht =>
    cases ha
    exact ⟨hk, ht⟩
  | @control k _ _ => cases k <;> nomatch ha
  | _ => nomatch ha

/-- Only a call with a name calls, and that name. -/
theorem Rule.of_call {p : Plan} (h : t.Rule p) {name : String} (ha : p.assembly = .call name) :
    t.kind = .call ∧ t.tokenAt? 0 = some name := by
  cases h with
  | call hk ht =>
    cases ha
    exact ⟨hk, ht⟩
  | @control k _ _ => cases k <;> nomatch ha
  | _ => nomatch ha

end Tree

/-! ## 4. What a node raises

A rule at a time: what an assembly raises is a fresh failure, by the lemmas of section 2, unless the
node is a control statement. -/

/-- Of the nodes only control statements interrupt by anything but a fresh failure. -/
theorem Tree.Rule.error_cases [Numerics] {σ : Type} [Environment σ] {t : Tree} {p : Plan}
    (h : t.Rule p) {vs : List Value} {env : σ} {i : Interrupt}
    (hi : (p.assembly.run vs env).1 = .error i) :
    (∃ cause, i = .failure (.of cause) ∧ cause.ofNode = true) ∨
      t.kind = .control ∧ ∃ k : Keyword, t.tokenAt? 0 = some k.text ∧ p = t.keywordPlan k := by
  cases h with
  | literal _ => cases hi
  | malformed hcause => exact .inl (Outcome.fresh_fail (Cause.ofNode_of_liesWith hcause) i hi)
  | name _ _ =>
    simp only [Assembly.run] at hi
    split at hi
    · cases hi
    · exact .inl (Outcome.fresh_fail rfl i hi)
  | assign _ _ =>
    rcases vs with _ | ⟨v, vs⟩
    · exact .inl (Outcome.fresh_fail rfl i hi)
    · cases hi
  | group _ =>
    rcases vs with _ | ⟨v, vs⟩
    · exact .inl (Outcome.fresh_fail rfl i hi)
    · cases hi
  | @binary op _ _ =>
    rcases vs with _ | ⟨v, _ | ⟨w, vs⟩⟩
    · exact .inl (Outcome.fresh_fail rfl i hi)
    · exact .inl (Outcome.fresh_fail rfl i hi)
    · exact .inl
        ((Operation.binary_failsWith op v w).mono Cause.ofValues_of_ofOperands |>.fresh i hi)
  | @unary op _ _ =>
    rcases vs with _ | ⟨v, vs⟩
    · exact .inl (Outcome.fresh_fail rfl i hi)
    · exact .inl ((Operation.unary_failsWith op v).mono Cause.ofValues_of_ofOperands |>.fresh i hi)
  | @call token _ _ => exact .inl ((Intrinsic.call_failsWith token vs).fresh i hi)
  | list _ => cases hi
  | block _ =>
    simp only [Assembly.run] at hi
    split at hi
    · cases hi
    · exact .inl (Outcome.fresh_fail rfl i hi)
  | control hk ht => exact .inr ⟨hk, _, ht, rfl⟩

/-- A node raises a fresh failure or a signal. -/
theorem Tree.raised_cases [Numerics] {σ : Type} [Environment σ] (t : Tree) {vs : List Value}
    {env : σ} {i : Interrupt} (hi : (t.plan.assembly.run vs env).1 = .error i) :
    (∃ cause, i = .failure (.of cause) ∧ cause.ofNode = true) ∨ i.isFailure = false := by
  rcases t.rule.error_cases hi with hfresh | ⟨-, k, -, hplan⟩
  · exact .inl hfresh
  · rw [hplan] at hi
    cases k <;> cases hi <;> exact .inr rfl

/-- The interrupt with its failure changed; signals stay as they are. -/
def Interrupt.mapFailure (g : Failure → Failure) : Interrupt → Interrupt
  | failure f => failure (g f)
  | i => i

/-- A change that keeps fresh failures keeps whatever a node raises. -/
theorem Tree.mapFailure_of_run_eq_error [Numerics] {σ : Type} [Environment σ] (t : Tree)
    {g : Failure → Failure} (hg : ∀ cause : Cause, cause.ofNode = true → g (.of cause) = .of cause)
    {vs : List Value} {env : σ} {i : Interrupt} (hi : (t.plan.assembly.run vs env).1 = .error i) :
    i.mapFailure g = i := by
  -- a fresh failure is kept by the change, and a signal has none to change
  rcases t.raised_cases hi with ⟨cause, rfl, hcause⟩ | hsignal
  · rw [Interrupt.mapFailure, hg cause hcause]
  · cases i with
    | failure f => cases hsignal
    | _ => rfl

end Metrology
