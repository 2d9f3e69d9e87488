import ClassGen.Proofs.Descriptor
import ClassGen.Proofs.Lowering.Stmt
import ClassGen.Proofs.StackKinds.Flow

/-! What the pieces of lowered code do to the kinds on the stack, apart from the values and blocks
inside them. -/

namespace ClassGen

/-! ### Kinds of values -/

def Primitive.kind : Primitive → Kind
  | int | boolean => .int
  | float => .float
  | double => .double
  | string | void => .ref

/-- What a value of this representation is on the stack; nothing if there is no value. -/
def Representation.kinds : Representation → List Kind
  | scalar kind => [kind.kind]
  | reference => [.ref]
  | void => []

namespace Ty

def kinds (t : Ty) : List Kind := t.representation.kinds

/-- A value of type `source` can be brought to `target` and then is one by its kind: a scalar
becomes a scalar of the same kind or is widened, and no value is given up. -/
def converts (source target : Ty) : Bool :=
  match source.representation, target.representation with
  | .scalar given, .scalar wanted => given.kind = wanted.kind || (given.widenOp? wanted).isSome
  | .scalar _, .void | .reference, .void => false
  | _, _ => true

/-- There are values of this type, and descriptors can name it. -/
def isValued (t : Ty) : Bool := !t.isVoid && t.isNamed

theorem isValued_iff {t : Ty} : t.isValued = true ↔ t.isVoid = false ∧ t.isNamed = true := by
  simp [isValued]

theorem representation_void {t : Ty} : t.representation = .void ↔ t.isVoid = true := by
  cases t with
  | primitive kind => cases kind <;> simp [representation, isVoid, Primitive.isScalar]
  | _ => simp [representation, isVoid]

theorem converts_of_reference {source target : Ty} (hs : source.representation = .reference)
    (ht : target.isVoid = false) : source.converts target := by
  unfold converts
  rw [hs]
  cases hrep : target.representation with
  | void => rw [representation_void.mp hrep] at ht; cases ht
  | _ => rfl

theorem converts_to_reference (source : Ty) {target : Ty}
    (ht : target.representation = .reference) : source.converts target := by
  unfold converts
  rw [ht]
  cases source.representation <;> rfl

/-- Kinds of the arguments of a call, the last one first. -/
def argKinds (params : List Ty) : List Kind := (params.flatMap kinds).reverse

theorem argKinds_cons (t : Ty) (ts : List Ty) :
    argKinds (t :: ts) = argKinds ts ++ t.kinds.reverse := by
  simp [argKinds]

theorem kinds_reverse (t : Ty) : t.kinds.reverse = t.kinds := by
  unfold kinds
  cases t.representation <;> rfl

theorem kinds_void : kinds .void = [] := rfl

theorem kinds_fieldType {t : Ty} {f : FieldType} (h : t.fieldType? = some f) :
    f.kind?.map (fun k => [k]) = some t.kinds := by
  cases t with
  | primitive kind => cases kind <;> cases h <;> rfl
  | _ => cases h; rfl

theorem kinds_of_void {t : Ty} (h : t.isVoid = true) : t.kinds = [] := by
  rw [kinds, representation_void.mpr h]
  rfl

theorem numeric_iff {t : Ty} {kind : Primitive} :
    t.numeric? = some kind ↔ t = .primitive kind ∧ kind.isNumeric := by
  rw [numeric?, Option.filter_eq_some_iff]
  refine and_congr_left fun _ => ?_
  cases t <;> simp [primitive?]

theorem kinds_numeric {kind : Primitive} (h : kind.isNumeric) :
    (primitive kind).kinds = [kind.kind] ∧ (primitive kind).isVoid = false := by
  cases kind <;> first | exact ⟨rfl, rfl⟩ | cases h

end Ty

variable {ρ : Label → List Kind} {ret σ : List Kind}

/-! ### Slots and fields -/

theorem flows_loadSlot (slot : Nat) {t : Ty} (h : t.isVoid = false) :
    Flows ρ ret [Code.loadSlot slot t.representation] (some σ) (some (t.kinds ++ σ)) := by
  refine .shaped [] t.kinds rfl ?_
  cases t with
  | primitive kind => cases kind <;> first | rfl | cases h
  | _ => rfl

theorem flows_storeSlot (slot : Nat) {t : Ty} (h : t.isVoid = false) :
    Flows ρ ret [Code.storeSlot slot t.representation] (some (t.kinds ++ σ)) (some σ) := by
  refine .shaped t.kinds [] rfl ?_
  cases t with
  | primitive kind => cases kind <;> first | rfl | cases h
  | _ => rfl

theorem flows_popValue (t : Ty) :
    Flows ρ ret (Code.popValue t.representation) (some (t.kinds ++ σ)) (some σ) := by
  cases t with
  | primitive kind => cases kind <;> first | exact .nil | exact .plain rfl rfl
  | _ => exact .plain rfl rfl

/-- The argument is there and holds a value of type `t`. -/
def Frame.HasArg (frame : Frame) (index : Nat) (t : Ty) : Prop :=
  ∃ arg, frame.args[index]? = some arg ∧ t.fieldType? = some arg.type

theorem flows_loadArg {frame : Frame} {index : Nat} {t : Ty} (h : frame.HasArg index t) :
    Flows ρ ret (frame.loadArg index) (some σ) (some (t.kinds ++ σ)) := by
  obtain ⟨⟨slot, type⟩, harg, htype⟩ := h
  have hload : frame.loadArg index = [Arg.load ⟨slot, type⟩] := by simp [Frame.loadArg, harg]
  rw [hload]
  refine .shaped [] t.kinds rfl ?_
  cases t with
  | primitive kind => cases kind <;> cases htype <;> rfl
  | _ => cases htype; rfl

theorem flows_storeArg {frame : Frame} {index : Nat} {t : Ty} (h : frame.HasArg index t) :
    Flows ρ ret (frame.storeArg index) (some (t.kinds ++ σ)) (some σ) := by
  obtain ⟨⟨slot, type⟩, harg, htype⟩ := h
  have hstore : frame.storeArg index = [Arg.store ⟨slot, type⟩] := by simp [Frame.storeArg, harg]
  rw [hstore]
  refine .shaped t.kinds [] rfl ?_
  cases t with
  | primitive kind => cases kind <;> cases htype <;> rfl
  | _ => cases htype; rfl

/-- The storage holds a value of its type. -/
def Storage.Holds (frame : Frame) : Storage → Prop
  | slot _ t => t.isVoid = false
  | param index t => frame.HasArg index t

theorem flows_load {frame : Frame} {st : Storage} (h : st.Holds frame) :
    Flows ρ ret (st.load frame) (some σ) (some (st.type.kinds ++ σ)) := by
  cases st with
  | slot n t => exact flows_loadSlot n h
  | param i t => exact flows_loadArg h

theorem flows_store {frame : Frame} {st : Storage} (h : st.Holds frame) :
    Flows ρ ret (st.store frame) (some (st.type.kinds ++ σ)) (some σ) := by
  cases st with
  | slot n t => exact flows_storeSlot n h
  | param i t => exact flows_storeArg h

/-- A field or argument of a type that has values, as descriptors show it. -/
theorem parse_valued {t : Ty} (h : t.isValued) :
    ∃ f k, FieldType.parse t.descriptor = .ok f ∧ f.kind? = some k ∧ t.kinds = [k] := by
  obtain ⟨hvoid, hnamed⟩ := Ty.isValued_iff.mp h
  obtain ⟨f, hf⟩ := Ty.fieldType?_isSome hvoid
  obtain ⟨k, hk, hkinds⟩ := Option.map_eq_some_iff.mp (Ty.kinds_fieldType hf)
  exact ⟨f, k, Ty.parse_descriptor hf hnamed, hk, hkinds.symm⟩

theorem flows_getField (decl : StructDef) (field : String) {t : Ty} (h : t.isValued) :
    Flows ρ ret [Code.getField (fieldMember decl field t)] (some (.ref :: σ))
      (some (t.kinds ++ σ)) := by
  obtain ⟨f, k, hparse, hk, hkinds⟩ := parse_valued h
  refine .shaped [.ref] t.kinds rfl ?_
  simp [Code.getField, fieldMember, Instr.shape?, hparse, Except.toOption, hk, hkinds]
  rfl

theorem flows_putField (decl : StructDef) (field : String) {t : Ty} (h : t.isValued) :
    Flows ρ ret [Code.putField (fieldMember decl field t)] (some (t.kinds ++ .ref :: σ))
      (some σ) := by
  obtain ⟨f, k, hparse, hk, hkinds⟩ := parse_valued h
  rw [hkinds]
  refine .shaped [k, .ref] [] rfl ?_
  simp [Code.putField, fieldMember, Instr.shape?, hparse, Except.toOption, hk]
  rfl

/-! ### Calls -/

theorem kinds_fieldTypes {params : List Ty} (h : ∀ t ∈ params, t.isValued) :
    ∃ fs : List FieldType, params.map Ty.fieldType? = fs.map some ∧
      fs.mapM FieldType.kind? = some (params.flatMap Ty.kinds) := by
  induction params with
  | nil => exact ⟨[], rfl, rfl⟩
  | cons t ts ih =>
    obtain ⟨fs, hfs, hkinds⟩ := ih fun u hu => h u (List.mem_cons_of_mem _ hu)
    obtain ⟨f, hf⟩ := Ty.fieldType?_isSome (Ty.isValued_iff.mp (h t List.mem_cons_self)).1
    obtain ⟨k, hk, hkt⟩ := Option.map_eq_some_iff.mp (Ty.kinds_fieldType hf)
    refine ⟨f :: fs, by simp [hf, hfs], ?_⟩
    simp [hk, hkinds, ← hkt]

/-- The descriptor of a method whose parameters have values says the kinds it takes and leaves. -/
theorem parse_valuedMethod {params : List Ty} {r : Ty} (hp : ∀ t ∈ params, t.isValued)
    (hr : r.isNamed) :
    ∃ d, MethodDescriptor.parse (methodDescriptor params r) = .ok d ∧
      d.argKinds? = some (Ty.argKinds params) ∧ d.resultKinds? = some r.kinds ∧
      params.map Ty.fieldType? = d.params.map some ∧ d.ret = r.fieldType? := by
  obtain ⟨fs, hfs, hkinds⟩ := kinds_fieldTypes hp
  refine ⟨⟨fs, r.fieldType?⟩, parse_methodDescriptor hfs
    (fun t ht => (Ty.isValued_iff.mp (hp t ht)).2) hr, ?_, ?_, hfs, rfl⟩
  · simp [MethodDescriptor.argKinds?, hkinds, Ty.argKinds]
  · cases hvoid : r.isVoid with
    | true =>
      have hnone : r.fieldType? = none := by
        cases r with
        | primitive kind => cases kind <;> first | rfl | cases hvoid
        | _ => cases hvoid
      simp [MethodDescriptor.resultKinds?, hnone, Ty.kinds_of_void hvoid]
    | false =>
      obtain ⟨f, hf⟩ := Ty.fieldType?_isSome hvoid
      simp [MethodDescriptor.resultKinds?, hf, Ty.kinds_fieldType hf]

theorem flows_callStatic (owner name : String) {params : List Ty} {type : Ty}
    (hp : ∀ t ∈ params, t.isValued) (hr : type.isNamed) :
    Flows ρ ret [Code.callStatic ⟨owner, name, methodDescriptor params type⟩]
      (some (Ty.argKinds params ++ σ)) (some (type.kinds ++ σ)) := by
  obtain ⟨d, hparse, hargs, hresults, -, -⟩ := parse_valuedMethod hp hr
  refine .shaped _ _ rfl ?_
  simp [Code.callStatic, Instr.shape?, hparse, Except.toOption, hargs, hresults]
  rfl

theorem constructorDescriptor_eq (d : StructDef) :
    d.constructorDescriptor = methodDescriptor (d.fields.map Prod.snd) .void := by
  simp only [StructDef.constructorDescriptor, methodDescriptor, List.map_map, Function.comp_def]
  have hend : ")V" = ")" ++ Ty.descriptor .void := rfl
  rw [hend]
  simp only [String.append_assoc]

theorem flows_construct {decl : StructDef} (hp : ∀ t ∈ decl.fields.map Prod.snd, t.isValued) :
    Flows ρ ret [Code.construct decl.qualifiedName decl.constructorDescriptor]
      (some (Ty.argKinds (decl.fields.map Prod.snd) ++ .ref :: σ)) (some σ) := by
  obtain ⟨d, hparse, hargs, hresults, -, -⟩ := parse_valuedMethod (r := .void) hp rfl
  have hflow : Flows ρ ret [Code.construct decl.qualifiedName decl.constructorDescriptor]
      (some ((Ty.argKinds (decl.fields.map Prod.snd) ++ [Kind.ref]) ++ σ)) (some ([] ++ σ)) := by
    refine .shaped _ _ rfl ?_
    simp [Code.construct, Code.callSpecial, Instr.shape?, constructorDescriptor_eq, hparse,
      Except.toOption, hargs, hresults, Ty.kinds_void]
    rfl
  simpa using hflow

/-! ### Conversions and operators -/

theorem flows_box {kind : Primitive} (h : kind.isScalar) :
    Flows ρ ret (Code.box kind) (some (kind.kind :: σ)) (some (.ref :: σ)) := by
  cases kind with
  | int | boolean => exact .shaped [.int] [.ref] rfl rfl
  | float => exact .shaped [.float] [.ref] rfl rfl
  | double => exact .shaped [.double] [.ref] rfl rfl
  | string | void => cases h

theorem flows_unboxUnchecked {kind : Primitive} (h : kind.isScalar) :
    Flows ρ ret (Code.unboxUnchecked kind) (some (.ref :: σ)) (some (kind.kind :: σ)) := by
  cases kind with
  | int | boolean => exact .shaped [.ref] [.int] rfl rfl
  | float => exact .shaped [.ref] [.float] rfl rfl
  | double => exact .shaped [.ref] [.double] rfl rfl
  | string | void => cases h

theorem flows_checkcast (className : String) :
    Flows ρ ret [Code.checkcast className] (some (.ref :: σ)) (some (.ref :: σ)) :=
  .shaped [.ref] [.ref] rfl rfl

theorem flows_widen {given wanted : Primitive} {code : Opcode}
    (h : given.widenOp? wanted = some code) :
    Flows ρ ret [.op code] (some (given.kind :: σ)) (some (wanted.kind :: σ)) := by
  refine .shaped [given.kind] [wanted.kind] rfl ?_
  cases given <;> cases wanted <;> cases h <;> rfl

/-- A value that converts becomes one of the wanted type. -/
theorem flows_coerce {source target : Ty} (hc : source.converts target)
    (hv : source.isVoid → target.isVoid) :
    Flows ρ ret (coerce source target) (some (source.kinds ++ σ)) (some (target.kinds ++ σ)) := by
  have hscalar : ∀ {t : Ty} {kind : Primitive}, t.representation = .scalar kind →
      kind.isScalar := by
    intro t kind h
    cases t with
    | primitive p =>
      cases p <;> simp only [Ty.representation, Primitive.isScalar] at h <;> cases h <;> rfl
    | _ => cases h
  unfold coerce Ty.kinds
  unfold Ty.converts at hc
  cases hs : source.representation with
  | scalar given =>
    cases ht : target.representation with
    | scalar wanted =>
      simp only [hs, ht] at hc ⊢
      cases hw : given.widenOp? wanted with
      | some code => exact flows_widen hw
      | none =>
        have hkind : given.kind = wanted.kind := by simpa [hw] using hc
        rw [Representation.kinds, Representation.kinds, hkind]
        exact .nil
    | reference => exact flows_box (hscalar hs)
    | void => simp [hs, ht] at hc
  | reference =>
    cases ht : target.representation with
    | scalar wanted =>
      have hunbox : Code.unbox wanted =
          Code.checkcast (wanted.boxedClass?.getD "") :: Code.unboxUnchecked wanted := by
        have := hscalar ht
        cases wanted <;> first | rfl | cases this
      simp only [hunbox]
      exact (flows_checkcast _).cons (flows_unboxUnchecked (hscalar ht))
    | reference =>
      simp only
      split
      · exact .nil
      · exact flows_checkcast _
    | void => simp [hs, ht] at hc
  | void =>
    have htarget := Ty.representation_void.mpr (hv (Ty.representation_void.mp hs))
    rw [htarget]
    exact .nil

theorem flows_coerceObject {target : Ty} (h : target.isVoid = false) :
    Flows ρ ret (coerce .object target) (some (.ref :: σ)) (some (target.kinds ++ σ)) :=
  flows_coerce (Ty.converts_of_reference rfl h) fun hvoid => absurd hvoid Bool.false_ne_true

theorem flows_arithmetic {kind : Primitive} {a : Arithmetic} (hk : kind.isNumeric) (ha : a ≠ .neg) :
    Flows ρ ret (arithmeticCode kind a) (some (kind.kind :: kind.kind :: σ))
      (some (kind.kind :: σ)) := by
  cases kind with
  | int => cases a <;> first | exact .shaped [.int, .int] [.int] rfl rfl | exact (ha rfl).elim
  | float =>
      cases a <;> first | exact .shaped [.float, .float] [.float] rfl rfl | exact (ha rfl).elim
  | double =>
      cases a <;> first | exact .shaped [.double, .double] [.double] rfl rfl | exact (ha rfl).elim
  | boolean | string | void => cases hk

theorem flows_negation {kind : Primitive} (hk : kind.isNumeric) :
    Flows ρ ret (arithmeticCode kind .neg) (some (kind.kind :: σ)) (some (kind.kind :: σ)) := by
  cases kind with
  | int => exact .shaped [.int] [.int] rfl rfl
  | float => exact .shaped [.float] [.float] rfl rfl
  | double => exact .shaped [.double] [.double] rfl rfl
  | boolean | string | void => cases hk

theorem flows_pushOne {kind : Primitive} (hk : kind.isNumeric) :
    Flows ρ ret [Code.pushOne kind] (some σ) (some (kind.kind :: σ)) := by
  cases kind with
  | int => exact .shaped [] [.int] rfl rfl
  | float => exact .shaped [] [.float] rfl rfl
  | double => exact .shaped [] [.double] rfl rfl
  | boolean | string | void => cases hk

theorem flows_pushBool (b : Bool) : Flows ρ ret [Code.pushBool b] (some σ) (some (.int :: σ)) :=
  .shaped [] [.int] rfl rfl

/-- A jump that can fall through, and the stack it leaves at its label. -/
theorem flows_branch {code : Opcode} {l : Label} {taken : List Kind}
    (h : Instr.jumpTaken? code = some taken) (hterm : code.isTerminal = false) (hl : ρ l = σ) :
    Flows ρ ret [.jump code l] (some (taken ++ σ)) (some σ) := by
  have hjump : Flows ρ ret [.jump code l] _ _ := .jump h
  rw [hterm, hl] at hjump
  exact hjump

theorem flows_goto {l : Label} (hl : ρ l = σ) : Flows ρ ret [Code.goto l] (some σ) none := by
  have hjump : Flows ρ ret [Code.goto l] (some ([] ++ ρ l)) none := .jump rfl
  rwa [hl] at hjump

/-- A test that jumps to `other` or falls through becomes one boolean or another. -/
theorem flows_choice {test : Code} {code : Opcode} {other done : Label} {τ : List Kind} (x y : Bool)
    (htest : Flows ρ ret test (some τ) (some σ)) (hmem : .jump code other ∈ test) (ho : ρ other = σ)
    (hd : ρ done = .int :: σ) :
    Flows ρ ret
      (test ++ [Code.pushBool x, Code.goto done, .mark other, Code.pushBool y, .mark done])
      (some τ) (some (.int :: σ)) := by
  have hgone : Flows ρ ret (test ++ [Code.pushBool x, Code.goto done]) (some τ) none :=
    htest.append ((flows_pushBool x).cons (flows_goto hd))
  have hother := hgone.land (List.mem_append_left _ hmem)
    (fun _ hσ => absurd hσ (Option.not_mem_none _))
  rw [ho] at hother
  have hpushed := hother.append (flows_pushBool y)
  have hjoin : Instr.jump .goto done ∈
      test ++ [Code.pushBool x, Code.goto done] ++ [Instr.mark other] ++ [Code.pushBool y] := by
    simp [Code.goto]
  have hdone := hpushed.land hjoin fun υ hυ => by cases hυ; exact hd.symm
  rw [hd] at hdone
  simpa using hdone

theorem flows_shortCircuit {left right : Code} {decided done : Label} (isAnd : Bool)
    (hl : Flows ρ ret left (some σ) (some (.int :: σ)))
    (hr : Flows ρ ret right (some σ) (some (.int :: σ))) (hdecided : ρ decided = σ)
    (hd : ρ done = .int :: σ) :
    Flows ρ ret (Code.shortCircuit isAnd decided done left right) (some σ) (some (.int :: σ)) := by
  have hjump : Flows ρ ret [.jump (if isAnd then .ifeq else .ifne) decided] (some ([Kind.int] ++ σ))
      (some σ) := by
    cases isAnd <;> exact flows_branch rfl rfl hdecided
  have htest := ((hl.append hjump).append hr).append hjump
  have hchoice := flows_choice isAnd (!isAnd) htest (List.mem_append_right _ List.mem_cons_self)
    hdecided hd
  simpa [Code.shortCircuit] using hchoice

theorem flows_negatedIntJump (op : BinaryOp) {l : Label} (hl : ρ l = σ) :
    Flows ρ ret [.jump op.negatedIntJump l] (some ([Kind.int, .int] ++ σ)) (some σ) := by
  cases op <;> exact flows_branch rfl rfl hl

theorem flows_numericTest {op : BinaryOp} {l : Label} {kind : Primitive} (hk : kind.isNumeric)
    (hl : ρ l = σ) :
    Flows ρ ret (op.numericTest l kind) (some (kind.kind :: kind.kind :: σ)) (some σ) := by
  have hjump : Flows ρ ret [.jump op.negatedJump l] (some ([Kind.int] ++ σ)) (some σ) := by
    cases op <;> exact flows_branch rfl rfl hl
  cases kind with
  | int => exact flows_negatedIntJump op hl
  | float =>
    refine .cons ?_ hjump
    split <;> exact .shaped [.float, .float] [.int] rfl rfl
  | double =>
    refine .cons ?_ hjump
    split <;> exact .shaped [.double, .double] [.int] rfl rfl
  | boolean | string | void => cases hk

theorem jump_mem_numericTest (op : BinaryOp) (l : Label) (kind : Primitive) :
    ∃ code, .jump code l ∈ op.numericTest l kind := by
  cases kind with
  | float | double => exact ⟨_, List.mem_cons_of_mem _ List.mem_cons_self⟩
  | _ => exact ⟨_, List.mem_cons_self⟩

/-- The operands of a comparison have values, and its test jumps to `l` or falls through. -/
theorem flows_comparison {op : BinaryOp} {left right common : Ty} {l : Label} {test : Code}
    (h : op.comparison? left right l = some (common, test)) :
    common.isVoid = false ∧ (∃ code, .jump code l ∈ test) ∧
      ∀ (ρ : Label → List Kind) (ret σ : List Kind), ρ l = σ →
        Flows ρ ret test (some (common.kinds ++ (common.kinds ++ σ))) (some σ) := by
  unfold BinaryOp.comparison? at h
  split at h
  · next a b ha hb =>
    cases h
    have hnumeric : (a.wider b).isNumeric := by
      unfold Primitive.wider
      split
      · exact (Ty.numeric_iff.mp hb).2
      · exact (Ty.numeric_iff.mp ha).2
    obtain ⟨hkinds, hvoid⟩ := Ty.kinds_numeric hnumeric
    refine ⟨hvoid, jump_mem_numericTest op l _, fun ρ ret σ hl => ?_⟩
    rw [hkinds]
    exact flows_numericTest hnumeric hl
  · split_ifs at h with hbool heq
    · cases h
      refine ⟨rfl, ⟨_, List.mem_cons_self⟩, fun ρ ret σ hl => ?_⟩
      exact flows_negatedIntJump op hl
    · cases h
      refine ⟨rfl, ⟨_, List.mem_cons_of_mem _ List.mem_cons_self⟩, fun ρ ret σ hl => ?_⟩
      have hcall : Flows ρ ret [Code.callStatic Library.objectsEquals] (some (.ref :: .ref :: σ))
          (some (.int :: σ)) := .shaped [.ref, .ref] [.int] rfl rfl
      have hjump : Flows ρ ret [.jump (if op = .eq then .ifeq else .ifne) l]
          (some ([Kind.int] ++ σ)) (some σ) := by
        split <;> exact flows_branch rfl rfl hl
      exact hcall.cons hjump

/-- The code of an operator takes two operands of the planned type and leaves its result. -/
theorem flows_plan {op : BinaryOp} {left right : Ty} {plan : OperatorPlan} {s t : LowerState}
    (h : op.plan? left right s = .ok (some plan) t) (σ : List Kind) :
    plan.operand.isVoid = false ∧ Labelled s.body.nextLabel t.body.nextLabel fun ρ =>
      Flows ρ ret plan.code (some (plan.operand.kinds ++ (plan.operand.kinds ++ σ)))
        (some (plan.result.kinds ++ σ)) := by
  cases hrel : op.isRelational with
  | true =>
    obtain ⟨hplan, rfl⟩ := (BinaryOp.plan?_ok_relational hrel).mp h
    obtain ⟨⟨common, test⟩, htest, rfl⟩ := Option.map_eq_some_iff.mp hplan
    obtain ⟨hvoid, ⟨code, hmem⟩, hflow⟩ := flows_comparison htest
    have labels := (Labelled.at_label s.body.nextLabel σ).and (.at_label (s.body.nextLabel + 1)
      (.int :: σ))
    exact ⟨hvoid, labels.mono fun ρ hρ => flows_choice true false (hflow ρ ret σ hρ.1)
      hmem hρ.1 hρ.2⟩
  | false =>
    by_cases hx : op = .xor
    · subst hx
      obtain ⟨hplan, rfl⟩ := BinaryOp.plan?_ok_xor.mp h
      unfold BinaryOp.xorPlan? at hplan
      split at hplan <;> cases hplan <;>
        exact ⟨rfl, .of_forall (Nat.le_refl _) fun ρ => .shaped [.int, .int] [.int] rfl rfl⟩
    · obtain ⟨hplan, rfl⟩ := (BinaryOp.plan?_ok_arithmetic hrel hx).mp h
      simp only [BinaryOp.arithmeticPlan?, Option.bind_eq_bind, Option.bind_eq_some_iff,
        Option.pure_def, Option.some.injEq] at hplan
      obtain ⟨a, -, b, -, arithmetic, harith, code, hcode, rfl⟩ := hplan
      have hneg : arithmetic ≠ .neg := by
        rintro rfl
        cases op <;> cases harith
      have hnumeric : (a.wider b).isNumeric := by
        cases hw : a.wider b <;> rw [hw] at hcode <;> first | rfl | cases hcode
      obtain ⟨hkinds, hvoid⟩ := Ty.kinds_numeric hnumeric
      refine ⟨hvoid, .of_forall (Nat.le_refl _) fun ρ => ?_⟩
      have hflow : Flows ρ ret (arithmeticCode (a.wider b) arithmetic) _ _ :=
        flows_arithmetic (σ := σ) hnumeric hneg
      rw [arithmeticCode, hcode] at hflow
      rw [hkinds]
      exact hflow

/-! ### Texts and lists -/

theorem flows_new (className : String) :
    Flows ρ ret [Code.new className, .op .dup] (some σ) (some (.ref :: .ref :: σ)) :=
  have hnew : Flows ρ ret [Code.new className] (some σ) (some (.ref :: σ)) :=
    .shaped [] [.ref] rfl rfl
  hnew.cons (.plain rfl rfl)

theorem flows_pushText (text : String) : Flows ρ ret [Code.pushText text] (some σ)
    (some (.ref :: σ)) :=
  .shaped [] [.ref] rfl rfl

theorem shape_appendObject :
    (Code.callVirtual (Library.builderAppend Ty.object.descriptor)).shape? = some
      ⟨[.ref, .ref], [.ref]⟩ := by
  decide +kernel

theorem flows_appendValue {t : Ty} (h : t.isVoid = false) :
    Flows ρ ret [appendValue t] (some (t.kinds ++ .ref :: σ)) (some (.ref :: σ)) := by
  cases t with
  | primitive kind =>
    cases kind with
    | int | boolean => exact .shaped [.int, .ref] [.ref] rfl rfl
    | float => exact .shaped [.float, .ref] [.ref] rfl rfl
    | double => exact .shaped [.double, .ref] [.ref] rfl rfl
    | string => exact .shaped [.ref, .ref] [.ref] rfl rfl
    | void => cases h
  | _ => exact .shaped [.ref, .ref] [.ref] rfl shape_appendObject

theorem flows_concat {left right : Code}
    (hl : Flows ρ ret left (some (.ref :: σ)) (some (.ref :: σ)))
    (hr : Flows ρ ret right (some (.ref :: σ)) (some (.ref :: σ))) :
    Flows ρ ret (Code.concat left right) (some σ) (some (.ref :: σ)) := by
  have hinit : Flows ρ ret [Code.callSpecial Library.builderInit] (some (.ref :: .ref :: σ))
      (some (.ref :: σ)) :=
    .shaped [.ref] [] rfl rfl
  have hend : Flows ρ ret [Code.callVirtual Library.builderToString] (some (.ref :: σ))
      (some (.ref :: σ)) :=
    .shaped [.ref] [.ref] rfl rfl
  exact ((((flows_new Library.stringBuilder).append hinit).append hl).append hr).append hend

theorem flows_newWrapper (t : Ty) : Flows ρ ret (newWrapper t) (some σ) (some (.ref :: σ)) := by
  have hinit : Flows ρ ret [Code.callSpecial Library.wrapperInit] (some (.ref :: .ref :: .ref :: σ))
      (some (.ref :: σ)) := .shaped [.ref, .ref] [] rfl rfl
  exact (flows_new Library.listWrapper).append ((flows_pushText _).cons hinit)

theorem flows_fillWrapper {entries : Code}
    (h : Flows ρ ret entries (some (.ref :: .ref :: σ)) (some (.ref :: .ref :: σ))) :
    Flows ρ ret (fillWrapper entries) (some (.ref :: σ)) (some (.ref :: σ)) := by
  have hdup : Flows ρ ret [.op .dup] (some (.ref :: σ)) (some (.ref :: .ref :: σ)) := .plain rfl rfl
  have hlist : Flows ρ ret [Code.callVirtual Library.wrapperList] (some (.ref :: .ref :: σ))
      (some (.ref :: .ref :: σ)) := .shaped [.ref] [.ref] rfl rfl
  have hpop : Flows ρ ret [.op .pop] (some (.ref :: .ref :: σ)) (some (.ref :: σ)) := .plain rfl rfl
  exact ((hdup.cons hlist).append h).append hpop

/-- One entry is added to the list on the stack. -/
theorem flows_entry {entry : Code}
    (h : Flows ρ ret entry (some (.ref :: .ref :: σ)) (some (.ref :: .ref :: .ref :: σ))) :
    Flows ρ ret ([Instr.op .dup] ++ entry ++ [Code.callVirtual Library.listAdd, .op .pop])
      (some (.ref :: σ))
      (some (.ref :: σ)) := by
  have hdup : Flows ρ ret [.op .dup] (some (.ref :: σ)) (some (.ref :: .ref :: σ)) := .plain rfl rfl
  have hadd : Flows ρ ret [Code.callVirtual Library.listAdd] (some (.ref :: .ref :: .ref :: σ))
      (some (.int :: .ref :: σ)) := .shaped [.ref, .ref] [.int] rfl rfl
  have hpop : Flows ρ ret [.op .pop] (some (.int :: .ref :: σ)) (some (.ref :: σ)) := .plain rfl rfl
  exact (hdup.append h).append (hadd.cons hpop)

theorem flows_literal (value : Literal) : Flows ρ ret [value.push] (some σ)
    (some (value.type.kinds ++ σ)) := by
  cases value with
  | int | bool => exact .shaped [] [.int] rfl rfl
  | float => exact .shaped [] [.float] rfl rfl
  | double => exact .shaped [] [.double] rfl rfl
  | text => exact .shaped [] [.ref] rfl rfl

/-! ### Loops, matches and returns -/

theorem flows_storeReference (slot : Nat) :
    Flows ρ ret [Code.storeSlot slot .reference] (some (.ref :: σ)) (some σ) :=
      .shaped [.ref] [] rfl rfl

theorem flows_loadReference (slot : Nat) :
    Flows ρ ret [Code.loadSlot slot .reference] (some σ) (some (.ref :: σ)) :=
      .shaped [] [.ref] rfl rfl

theorem flows_iteratorCode {t : Ty} {c : Code} (h : iteratorCode t = some c) :
    Flows ρ ret c (some (t.kinds ++ σ)) (some (.ref :: σ)) := by
  have hiterator : Flows ρ ret [Code.callInterface Library.iterableIterator] (some (.ref :: σ))
      (some (.ref :: σ)) :=
    .shaped [.ref] [.ref] rfl rfl
  unfold iteratorCode at h
  split at h
  · cases h
    have hlist : Flows ρ ret [Code.callVirtual Library.wrapperList] (some (.ref :: σ))
        (some (.ref :: σ)) :=
      .shaped [.ref] [.ref] rfl rfl
    exact hlist.cons (.shaped [.ref] [.ref] rfl rfl)
  · cases h
    exact flows_checkcast _
  · cases h
    exact flows_checkcast _
  · split_ifs at h <;> cases h
    · exact .nil
    · exact flows_checkcast _
    · exact hiterator
    · exact (flows_checkcast _).cons hiterator
  · cases h

/-- The loop variable is set, or the loop is left with an empty stack. -/
theorem flows_advanceLoop (iterator : Nat) (element : LocalVar) {done : Label}
    (ht : element.type.isVoid = false) (hd : ρ done = []) :
    Flows ρ ret (advanceLoop iterator element done) (some []) (some []) := by
  have hhas : Flows ρ ret [Code.callInterface Library.iteratorHasNext] (some [.ref])
      (some [.int]) :=
    .shaped [.ref] [.int] rfl rfl
  have hleave : Flows ρ ret [.jump .ifeq done] (some ([Kind.int] ++ [])) (some []) :=
    flows_branch rfl rfl hd
  have hnext : Flows ρ ret [Code.callInterface Library.iteratorNext] (some [.ref]) (some [.ref]) :=
    .shaped [.ref] [.ref] rfl rfl
  have hcast : Flows ρ ret (coerce .object element.type) (some [.ref])
      (some (element.type.kinds ++ [])) :=
    flows_coerceObject ht
  have hload : Flows ρ ret [Code.loadSlot iterator .reference] (some []) (some [.ref]) :=
    flows_loadReference iterator
  exact ((hload.cons (hhas.cons (hleave.cons (hload.cons hnext)))).append hcast).append
    (flows_storeSlot element.slot ht)

/-- The subject has the pattern, or the next arm is tried with an empty stack. -/
theorem flows_patternTest (subject : Nat) (pattern : Ty) {next : Label} (hn : ρ next = []) :
    Flows ρ ret (patternTest subject next pattern) (some []) (some []) := by
  have hload : Flows ρ ret [Code.loadSlot subject .reference] (some []) (some [.ref]) :=
    flows_loadReference subject
  have hinstance : Flows ρ ret [Code.instanceOf pattern.className] (some [.ref]) (some [.int]) :=
    .shaped [.ref] [.int] rfl rfl
  have hjump : Flows ρ ret [.jump .ifeq next] (some ([Kind.int] ++ [])) (some []) :=
    flows_branch rfl rfl hn
  refine (hload.cons (hinstance.cons hjump)).append ?_
  cases pattern with
  | list element =>
    have hname : Flows ρ ret [Code.callVirtual Library.wrapperName] (some [.ref]) (some [.ref]) :=
      .shaped [.ref] [.ref] rfl rfl
    have hequals : Flows ρ ret [Code.callVirtual Library.stringEquals] (some [.ref, .ref])
        (some [.int]) :=
      .shaped [.ref, .ref] [.int] rfl rfl
    exact hload.cons ((flows_checkcast _).cons
      (hname.cons ((flows_pushText _).cons (hequals.cons hjump))))
  | _ => exact .nil

/-- The subject is bound as a value. -/
theorem flows_boundSubject (subject : Nat) {pattern : Ty} (hp : pattern.isVoid = false) :
    (boundSubject subject pattern).type.isVoid = false ∧
      ∀ (ρ : Label → List Kind) (ret σ : List Kind),
      Flows ρ ret (boundSubject subject pattern).code (some σ)
        (some ((boundSubject subject pattern).type.kinds ++ σ)) := by
  have hload : ∀ (ρ : Label → List Kind) (ret σ : List Kind),
      Flows ρ ret [Code.loadSlot subject .reference] (some σ) (some (.ref :: σ)) :=
    fun ρ ret σ => flows_loadReference subject
  unfold boundSubject
  split
  · exact ⟨rfl, fun ρ ret σ => (hload ρ ret σ).cons (flows_checkcast _)⟩
  · next kind _ =>
    split
    · next hnumeric =>
      obtain ⟨hkinds, hvoid⟩ := Ty.kinds_numeric hnumeric
      refine ⟨hvoid, fun ρ ret σ => ((hload ρ ret σ).cons (flows_checkcast _)).append ?_⟩
      rw [hkinds]
      refine flows_unboxUnchecked ?_
      cases kind <;> first | rfl | cases hnumeric
    · exact ⟨hp, fun ρ ret σ => (hload ρ ret σ).cons (flows_coerceObject hp)⟩
  · exact ⟨hp, fun ρ ret σ => (hload ρ ret σ).cons (flows_coerceObject hp)⟩

theorem flows_returnValue (t : Ty) :
    Flows ρ t.kinds [Code.returnValue t.representation] (some (t.kinds ++ σ)) (some σ) := by
  refine .plain rfl (Instr.retype?_of_returned ?_ σ)
  cases t with
  | primitive kind => cases kind <;> rfl
  | _ => rfl

theorem flows_leave : Flows ρ [] [.op .vreturn] (some σ) (some σ) :=
  .plain rfl (Instr.retype?_of_returned rfl σ)

theorem flows_missingReturn (plan : MethodPlan) : Flows ρ ret plan.missingReturn (some σ)
    (some σ) := by
  have hinit : Flows ρ ret [Code.callSpecial Library.illegalStateInit]
      (some (.ref :: .ref :: .ref :: σ))
      (some (.ref :: σ)) := .shaped [.ref, .ref] [] rfl rfl
  have hthrow : Flows ρ ret [.op .athrow] (some (.ref :: σ)) (some σ) := .shaped [.ref] [] rfl rfl
  exact (flows_new Library.illegalState).append ((flows_pushText _).cons (hinit.cons hthrow))

end ClassGen
