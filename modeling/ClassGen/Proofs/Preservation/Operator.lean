import ClassGen.Lower.Expr
import ClassGen.Proofs.Machine.Run
import ClassGen.Proofs.Reference.Expr

/-! Code that computes a reference value. Fragments are followed from an arbitrary position, stack
and history, so that they can be composed; the locals and the heap are those of a fixed state. The
laws for conversions, operators, comparisons and negation are stated here, free of lowering. -/

namespace ClassGen.Preservation

open Machine Reference

variable {A : Arith} {P : Code} {m : State}

/-- From the front of `c` to its end, the stack goes from `st` to `st'` and the history from `r` to
`r'`; nothing else changes. -/
def Turns (A : Arith) (P : Code) (m : State) (c : Code) (st st' : List Value)
    (r r' : List Nat) : Prop :=
  ∀ n, P.At n c → Runs A P (m.moved n st r) (m.moved (n + c.length) st' r')

/-- From the front of `c` the machine comes to divide an integer by zero. -/
def Traps (A : Arith) (P : Code) (m : State) (c : Code) (st : List Value)
    (r r' : List Nat) : Prop :=
  ∀ n, P.At n c → ∃ t, Runs A P (m.moved n st r) t ∧ t.reads = r' ∧
    step A P t = some (.stop .divisionByZero)

section Compose

variable {a b : Code} {st st₁ st' : List Value} {r r₁ r' : List Nat}

theorem Turns.nil : Turns A P m [] st st r r := fun _ _ => runs_refl _

theorem Turns.append (ha : Turns A P m a st st₁ r r₁) (hb : Turns A P m b st₁ st' r₁ r') :
    Turns A P m (a ++ b) st st' r r' := by
  intro n h
  rw [List.length_append, ← Nat.add_assoc]
  exact (ha n h.left).trans (hb _ h.right)

theorem Turns.traps (ha : Turns A P m a st st₁ r r₁) (hb : Traps A P m b st₁ r₁ r') :
    Traps A P m (a ++ b) st r r' := by
  intro n h
  obtain ⟨t, hr, ht⟩ := hb _ h.right
  exact ⟨t, (ha n h.left).trans hr, ht⟩

theorem Traps.append (ha : Traps A P m a st r r') : Traps A P m (a ++ b) st r r' :=
  fun n h => ha n h.left

theorem turns_op {code : Opcode} (he : operate A m.heap code st = some (.stack st')) :
    Turns A P m [.op code] st st' r r := fun _ h => runs_op (s := m.moved _ st r) h.head he

theorem traps_op {code : Opcode} (he : operate A m.heap code st = some (.stop .divisionByZero)) :
    Traps A P m [.op code] st r r := fun n h =>
  ⟨m.moved n st r, runs_refl _, rfl, by simp [step, h.head, exec, he]⟩

theorem turns_mark (l : Label) : Turns A P m [.mark l] st st r r :=
  fun _ h => runs_mark (s := m.moved _ st r) h.head

theorem turns_push (v : Constant) : Turns A P m [.push v] st (constantValue v :: st) r r :=
  fun _ h => runs_push (s := m.moved _ st r) h.head

end Compose

/-- The history after the variables `names` were read, latest first. -/
def seen (m : State) (slots : String → UInt16) (names : List String) : List Nat :=
  names.map (fun name => (slots name).toNat) ++ m.reads

/-- Code that does what an evaluation did which began after `names` were read: a value of type
`kind` ends on top of `st`, or the machine traps where the evaluation does. The code finds `st₀`. -/
def Realizes (A : Arith) (P : Code) (m : State) (slots : String → UInt16)
    (kind : Primitive) (c : Code) (st₀ st : List Value) (names : List String) :
    EStateM.Result EvalError (List String) Scalar → Prop
  | .ok v names' => v.kind = kind ∧
    Turns A P m c st₀ (v.cell :: st) (seen m slots names) (seen m slots names')
  | .error .divisionByZero names' => Traps A P m c st₀ (seen m slots names) (seen m slots names')
  | .error .stuck _ => False

section Realize

variable {slots : String → UInt16} {k j : Primitive} {a b : Code} {st₀ st₁ st : List Value}
  {names : List String}

theorem realizes_pure {v : Scalar}
    (h : Turns A P m a st₀ (v.cell :: st) (seen m slots names) (seen m slots names)) :
    Realizes A P m slots v.kind a st₀ st names ((pure v : Eval Scalar) names) := ⟨rfl, h⟩

theorem Realizes.after {res : EStateM.Result EvalError (List String) Scalar}
    (ha : Turns A P m a st₀ st₁ (seen m slots names) (seen m slots names))
    (hb : Realizes A P m slots k b st₁ st names res) :
    Realizes A P m slots k (a ++ b) st₀ st names res := by
  match res, hb with
  | .ok v names', ⟨hk, hb⟩ => exact ⟨hk, ha.append hb⟩
  | .error .divisionByZero names', hb => exact ha.traps hb

/-- Code for a first value, and then code for whatever is done with it. -/
theorem Realizes.bind {x : Eval Scalar} {f : Scalar → Eval Scalar}
    (ha : Realizes A P m slots j a st₀ st₁ names (x names))
    (hb : ∀ v names', v.kind = j → Realizes A P m slots k b (v.cell :: st₁) st names'
      (f v names')) :
    Realizes A P m slots k (a ++ b) st₀ st names ((x >>= f) names) := by
  simp only [Bind.bind, EStateM.bind]
  match x names, ha with
  | .error .divisionByZero names', ha => exact ha.append
  | .ok v names', ⟨hv, ha⟩ =>
    have hb := hb v names' hv
    simp only
    match f v names', hb with
    | .ok w names'', ⟨hw, hb⟩ => exact ⟨hw, ha.append hb⟩
    | .error .divisionByZero names'', hb => exact ha.traps hb

end Realize

/-! ### Conversions and arithmetic -/

section Arithmetic

variable {slots : String → UInt16} {st : List Value} {r : List Nat} {names : List String}

theorem kind_isScalar (v : Scalar) : v.kind.isScalar = true := by cases v <;> rfl

theorem coerce_scalar {a b : Primitive} (ha : a.isScalar) (hb : b.isScalar) :
    coerce (.primitive a) (.primitive b) = ((a.widenOp? b).map Instr.op).toList := by
  cases a <;> cases b <;> simp_all [coerce, Ty.representation, Primitive.isScalar]

/-- Conversion code converts. -/
theorem turns_coerce (v : Scalar) {k : Primitive} (hk : k.isScalar) :
    Turns A P m (coerce (.primitive v.kind) (.primitive k)) (v.cell :: st)
      ((v.widen A k).cell :: st) r r := by
  rw [coerce_scalar (kind_isScalar v) hk]
  -- a conversion is one instruction where the widening order has one, and no code elsewhere
  cases v <;> cases k <;> first | exact Turns.nil | exact turns_op rfl

theorem widen_self (v : Scalar) : v.widen A v.kind = v := by cases v <;> rfl

/-- Two numbers meet in the wider type, and two truth values stay what they are. -/
theorem widen_wider_kind {v w : Scalar}
    (h : (v.kind.isNumeric ∧ w.kind.isNumeric) ∨ (v.kind = .boolean ∧ w.kind = .boolean)) :
    (v.widen A (Primitive.wider v.kind w.kind)).kind = Primitive.wider v.kind w.kind ∧
      (w.widen A (Primitive.wider v.kind w.kind)).kind =
        (v.widen A (Primitive.wider v.kind w.kind)).kind := by
  cases v <;> cases w <;> first | exact ⟨rfl, rfl⟩ | simp [Scalar.kind, Primitive.isNumeric,
    Primitive.rank?] at h

theorem ofInt_tmod (a b : Int32) : Int32.ofInt (a.toInt.tmod b.toInt) = a % b := by
  rw [← Int32.toInt_mod, Int32.ofInt_toInt]

theorem ofInt_tdiv (a b : Int32) : Int32.ofInt (a.toInt.tdiv b.toInt) = a / b := by
  apply Int32.toInt_inj.mp
  simp [Int32.toInt_div]

theorem toInt_eq_zero {b : Int32} : b.toInt = 0 ↔ b = 0 := by
  simp [← Int32.toInt_inj]

/-- An operation that always has a result. -/
theorem realizes_exact {code : Opcode} {f : Int32 → Int32 → Int32} {a b : Int32} {c : Int}
    (hc : operate A m.heap code (.int b :: .int a :: st) =
      onInts (fun a b => some (f a b)) (.int b :: .int a :: st))
    (hf : Int32.ofInt c = f a b) :
    Realizes A P m slots .int [.op code] (.int b :: .int a :: st) st names
      ((MonadExcept.ofExcept ((.ok c : Except EvalError Int).map fun c => .int (Int32.ofInt c)) :
        Eval Scalar) names) := by
  refine realizes_pure (turns_op ?_)
  simp [hc, hf, onInts, Scalar.cell]

/-- An operation that divides, where the divisor decides. -/
theorem realizes_division {code : Opcode} {f : Int32 → Int32 → Int32} {a b : Int32} {c : Int}
    (hc : operate A m.heap code (.int b :: .int a :: st) =
      onInts (fun a b => if b = 0 then none else some (f a b)) (.int b :: .int a :: st))
    (hf : Int32.ofInt c = f a b) :
    Realizes A P m slots .int [.op code] (.int b :: .int a :: st) st names
      ((MonadExcept.ofExcept ((if b.toInt = 0 then .error .divisionByZero
        else .ok c : Except EvalError Int).map
        fun c => .int (Int32.ofInt c)) : Eval Scalar) names) := by
  by_cases hb : b = 0
  · rw [if_pos (toInt_eq_zero.mpr hb)]
    exact traps_op (by rw [hc, hb]; rfl)
  · rw [if_neg (mt toInt_eq_zero.mp hb)]
    refine realizes_pure (turns_op ?_)
    simp [hc, hf, onInts, hb, Scalar.cell]

/-- A binary instruction on integers computes exactly and wraps, and traps on a zero divisor. -/
theorem realizes_intArithmetic {op : BinaryOp} {x : Arithmetic} (hop : op.arithmetic? = some x)
    (a b : Int32) :
    Realizes A P m slots .int (arithmeticCode .int x) (.int b :: .int a :: st) st names
      ((MonadExcept.ofExcept (applyInt op a b) : Eval Scalar) names) := by
  cases op <;> cases hop
  case add => exact realizes_exact rfl (by simp)
  case sub => exact realizes_exact rfl (by simp)
  case mul => exact realizes_exact rfl (by simp)
  case div => exact realizes_division rfl (ofInt_tdiv a b)
  case mod => exact realizes_division rfl (ofInt_tmod a b)

/-- The instruction for an arithmetic operator, on two numbers of one type. -/
theorem realizes_arithmetic {op : BinaryOp} {x : Arithmetic} (hop : op.arithmetic? = some x)
    {v w : Scalar} (hv : v.kind.isNumeric) (hw : w.kind = v.kind) :
    Realizes A P m slots v.kind (arithmeticCode v.kind x) (w.cell :: v.cell :: st) st names
      ((MonadExcept.ofExcept (applyAlike A op v w) : Eval Scalar) names) := by
  cases v with
  | int a => cases w <;> first | exact realizes_intArithmetic hop _ _ | cases hw
  | float a =>
    cases w <;> cases hw
    cases op <;> cases hop <;> exact realizes_pure (turns_op rfl)
  | double a =>
    cases w <;> cases hw
    cases op <;> cases hop <;> exact realizes_pure (turns_op rfl)
  | bool a => exact absurd hv Bool.false_ne_true

theorem realizes_xor {v w : Scalar} (hv : v.kind = .int ∨ v.kind = .boolean)
    (hw : w.kind = v.kind) :
    Realizes A P m slots v.kind [.op .ixor] (w.cell :: v.cell :: st) st names
      ((MonadExcept.ofExcept (applyAlike A .xor v w) : Eval Scalar) names) := by
  cases v <;> cases w <;> try cases hw
  case int.int a b => exact realizes_pure (turns_op rfl)
  case bool.bool a b => cases a <;> cases b <;> exact realizes_pure (turns_op rfl)
  case float.float a b => exact absurd hv (by simp [Scalar.kind])
  case double.double a b => exact absurd hv (by simp [Scalar.kind])

theorem realizes_negate {v : Scalar} (hv : v.kind.isNumeric) :
    Realizes A P m slots v.kind (arithmeticCode v.kind .neg) (v.cell :: st) st names
      ((MonadExcept.ofExcept (negate A v) : Eval Scalar) names) := by
  cases v with
  | int a => exact realizes_pure (turns_op (by rw [Int32.ofInt_neg, Int32.ofInt_toInt]; rfl))
  | float a => exact realizes_pure (turns_op rfl)
  | double a => exact realizes_pure (turns_op rfl)
  | bool a => exact absurd hv Bool.false_ne_true

theorem realizes_invert {v : Scalar} (hv : v.kind = .boolean) :
    Realizes A P m slots .boolean [Code.pushInt 1, .op .ixor] (v.cell :: st) st names
      ((MonadExcept.ofExcept (invert v) : Eval Scalar) names) := by
  cases v <;> cases hv
  case bool b => cases b <;> exact realizes_pure ((turns_push (.int 1)).append (turns_op rfl))

end Arithmetic

/-! ### Comparisons -/

section Comparison

variable {op : BinaryOp} {l done : Label} {st st' : List Value} {r : List Nat}

theorem branches_negatedIntJump (hop : op.isRelational) (a b : Int32) :
    branches op.negatedIntJump (.int b :: .int a :: st) =
      some (!holds op (some (compare a.toInt b.toInt)), st) := by
  have trichotomy : (compare a.toInt b.toInt = .lt ∧ a.toInt < b.toInt) ∨
      (compare a.toInt b.toInt = .eq ∧ a.toInt = b.toInt) ∨
      (compare a.toInt b.toInt = .gt ∧ b.toInt < a.toInt) := by
    rcases Int.lt_trichotomy a.toInt b.toInt with h | h | h
    · exact .inl ⟨Int.compare_eq_lt.mpr h, h⟩
    · exact .inr (.inl ⟨Int.compare_eq_eq.mpr h, h⟩)
    · exact .inr (.inr ⟨Int.compare_eq_gt.mpr h, h⟩)
  have jump : ∀ {p q : Bool}, p = q → some (p, st) = some (q, st) := congrArg fun b => some (b, st)
  cases op <;> try cases hop
  case eq => exact jump (p := a != b) (by grind [holds, Int32.toInt_inj])
  case ne => exact jump (p := a == b) (by grind [holds, Int32.toInt_inj])
  case lt => exact jump (p := decide (b ≤ a)) (by grind [holds, Int32.le_iff_toInt_le])
  case gt => exact jump (p := decide (a ≤ b)) (by grind [holds, Int32.le_iff_toInt_le])
  case le => exact jump (p := decide (b < a)) (by grind [holds, Int32.lt_iff_toInt_lt])
  case ge => exact jump (p := decide (a < b)) (by grind [holds, Int32.lt_iff_toInt_lt])

/-- A comparison instruction and the jump after it agree on every outcome, the unordered one
included. -/
theorem branches_negatedJump (hop : op.isRelational) (o : Option Ordering) :
    branches op.negatedJump (.int (orderValue (if op.unorderedIsGreater then 1 else -1) o) :: st) =
      some (!holds op o, st) := by
  rcases o with _ | _ | _ | _ <;> cases op <;> first | rfl | cases hop

/-- Falls through if `b` holds and goes to the mark of `l` if not. -/
def Tests (A : Arith) (P : Code) (m : State) (c : Code) (l : Label) (b : Bool) (st st' : List Value)
    (r : List Nat) : Prop :=
  (b = true → Turns A P m c st st' r r) ∧
    (b = false → ∀ n k, P.At n c → P[k]? = some (.mark l) → Runs A P (m.moved n st r)
      (m.moved k st' r))

theorem tests_jump (hP : P.marks.Nodup) {code : Opcode} {b : Bool}
    (hb : branches code st = some (!b, st')) : Tests A P m [.jump code l] l b st st' r := by
  refine ⟨?_, ?_⟩
  · rintro rfl n h
    exact runs_fall (s := m.moved n st r) h.head hb
  · rintro rfl n k h hk
    exact runs_jump hP (s := m.moved n st r) h.head hb hk

theorem Turns.tests {a c : Code} {b : Bool} {st₁ : List Value} (ha : Turns A P m a st st₁ r r)
    (hc : Tests A P m c l b st₁ st' r) : Tests A P m (a ++ c) l b st st' r :=
  ⟨fun hb => ha.append (hc.1 hb), fun hb n k h hk => (ha n h.left).trans (hc.2 hb _ k h.right hk)⟩

/-- The test for two values of one type finds what the operator says of them. -/
theorem tests_comparison (hP : P.marks.Nodup) (hop : op.isRelational) {v w : Scalar}
    (hw : w.kind = v.kind) :
    ∃ b, applyAlike A op v w = .ok (.bool b) ∧
      Tests A P m (op.numericTest l v.kind) l b (w.cell :: v.cell :: st) st r := by
  cases v <;> cases w <;> try cases hw
  case int.int a b => exact ⟨_, if_pos hop, tests_jump hP (branches_negatedIntJump hop a b)⟩
  case float.float a b =>
    refine ⟨_, if_pos hop, Turns.tests (a := [.op _]) (turns_op ?_)
      (tests_jump hP (branches_negatedJump hop _))⟩
    cases op.unorderedIsGreater <;> rfl
  case double.double a b =>
    refine ⟨_, if_pos hop, Turns.tests (a := [.op _]) (turns_op ?_)
      (tests_jump hP (branches_negatedJump hop _))⟩
    cases op.unorderedIsGreater <;> rfl
  case bool.bool a b =>
    refine ⟨_, if_pos hop, tests_jump hP ?_⟩
    rw [show compare a b = compare (if a then 1 else 0 : Int32).toInt
        (if b then 1 else 0 : Int32).toInt by
      cases a <;> cases b <;> rfl]
    exact branches_negatedIntJump hop _ _

/-- Where both ways of a choice between truth values meet, coming from the label. -/
theorem turns_landing (x : Bool) :
    Turns A P m [.mark l, Code.pushBool x, .mark done] st ((Scalar.bool x).cell :: st) r r :=
  (turns_mark l).append ((turns_push (.int (if x then 1 else 0))).append (turns_mark done))

/-- The outcome of a test as a truth value: `x` if it falls through. -/
theorem turns_choice (hP : P.marks.Nodup) {c : Code} {b : Bool} (x : Bool)
    (hc : Tests A P m c l b st st' r) :
    Turns A P m (c ++ [Code.pushBool x, Code.goto done, .mark l, Code.pushBool (!x), .mark done]) st
      ((Scalar.bool (b == x)).cell :: st') r r := by
  intro n h
  obtain ⟨hc₀, ht⟩ := Code.at_append.mp h
  rw [List.length_append, ← Nat.add_assoc]
  cases b with
  | true =>
    have hdone := ht.tail.tail.tail.tail.head
    have push := runs_push (A := A) (s := m.moved _ st' r) ht.head
    have jump := runs_jump (A := A) (s := m.moved _ ((Scalar.bool x).cell :: st') r) hP
      ht.tail.head rfl hdone
    have finish := runs_mark (A := A) (s := m.moved _ ((Scalar.bool x).cell :: st') r) hdone
    rw [show (true == x) = x by cases x <;> rfl]
    exact (((hc.1 rfl n hc₀).trans push).trans jump).trans finish
  | false =>
    rw [show (false == x) = !x by cases x <;> rfl]
    exact (hc.2 rfl n _ hc₀ ht.tail.tail.head).trans (turns_landing (!x) _ ht.tail.tail)

theorem turns_truthValue (hP : P.marks.Nodup) {c : Code} {b : Bool}
    (hc : Tests A P m c l b st st' r) :
    Turns A P m (c ++ BinaryOp.truthValue l done) st ((Scalar.bool b).cell :: st') r r := by
  simpa [BinaryOp.truthValue] using turns_choice (l := l) hP true hc

end Comparison

/-! ### Operators that may leave their right operand alone -/

section ShortCircuit

variable {slots : String → UInt16} {st : List Value} {names : List String}

theorem eq_bool {v : Scalar} (hv : v.kind = .boolean) : ∃ b, v = .bool b := by
  cases v <;> first | exact ⟨_, rfl⟩ | cases hv

/-- What the jump after an operand of `and` (or `or`, if `x` is false) does. -/
theorem tests_operand (hP : P.marks.Nodup) (x b : Bool) {l : Label} {r : List Nat} :
    Tests A P m [.jump (if x then .ifeq else .ifne) l] l (b == x)
      ((Scalar.bool b).cell :: st) st r :=
  tests_jump hP (by cases x <;> cases b <;> rfl)

/-- The right operand runs exactly if the left one is `x`, which is true for `and` and false for
`or`. -/
theorem realizes_shortCircuit (hP : P.marks.Nodup) {left right : Code} {e f : Eval Scalar}
    {g : Scalar → Eval Scalar} {x : Bool} {decided done : Label}
    (hg : ∀ b, g (.bool b) = if b = x then f else pure (.bool b))
    (hl : Realizes A P m slots .boolean left st st names (e names))
    (hr : ∀ names, Realizes A P m slots .boolean right st st names (f names)) :
    Realizes A P m slots .boolean (Code.shortCircuit x decided done left right) st st names
      ((e >>= g) names) := by
  unfold Code.shortCircuit
  rw [List.append_assoc, List.append_assoc]
  refine Realizes.bind hl fun v names' hv => ?_
  obtain ⟨b, rfl⟩ := eq_bool hv
  have test : Tests A P m [.jump (if x then .ifeq else .ifne) decided] decided (b == x)
      ((Scalar.bool b).cell :: st) st (seen m slots names') := tests_operand hP x b
  by_cases hb : b = x
  · -- the right operand decides, and the second test gives its value back
    rw [hg, if_pos hb]
    refine Realizes.after (test.1 (by simp [hb])) ?_
    rw [← bind_pure f]
    refine Realizes.bind (hr names') fun w names'' hw => ?_
    obtain ⟨y, rfl⟩ := eq_bool hw
    refine realizes_pure ?_
    have hy : ((y == x) == x) = y := by cases x <;> cases y <;> rfl
    nth_rewrite 2 [← hy]
    exact turns_choice hP x (tests_operand hP x y)
  · -- the left operand decides, and its jump skips everything but the landing
    rw [hg, if_neg hb]
    refine realizes_pure fun n h => ?_
    obtain ⟨hj, h⟩ := Code.at_append.mp h
    have hland := h.right.tail.tail.tail
    have jump := test.2 (by simpa using hb) n _ hj hland.head
    rw [Bool.eq_not_of_ne hb] at jump ⊢
    convert jump.trans (turns_landing (!x) _ hland) using 2
    simp
    omega

end ShortCircuit

end ClassGen.Preservation
