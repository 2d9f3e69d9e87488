import Mathlib.Algebra.GroupWithZero.Nat
import ClassGen.Proofs.Descriptor.Grammar
import ClassGen.Proofs.Iteration.Pieces

/-! Objects with fields, on the machine that also drives iterators. The fields of all objects are a
part of the world, the one that the two instructions for fields are about. Whatever else an
instruction does, it takes no field away. -/

namespace ClassGen.Fields

open Iteration (State Through Run Step act step_effect exec_eq_some)

/-! ### Heaps -/

/-- What each field of each object holds; none if the object has no such field. -/
abbrev Heap (V : Type) := V → Member → Option V

namespace Heap

variable {V : Type} {h : Heap V} {o a x : V} {m : Member}

/-- The heap after a value was stored in one field of one object. -/
def set [DecidableEq V] (h : Heap V) (o : V) (m : Member) (x : V) : Heap V := fun o' m' =>
  if o' = o ∧ m' = m then some x else h o' m'

/-- What is found from a value along a chain of fields. -/
def walk (h : Heap V) : V → List Member → Option V
  | a, [] => some a
  | a, m :: rest => (h a m).bind fun b => h.walk b rest

/-- Only objects have fields, and a field holds what its descriptor says. -/
def Typed (h : Heap V) (kind : V → Kind) : Prop :=
  ∀ o m x, h o m = some x → kind o = .ref ∧
    ∃ f, FieldType.parse m.descriptor = .ok f ∧ ∀ k, f.kind? = some k → kind x = k

theorem isSome_set [DecidableEq V] {o' : V} {m' : Member} (hm : (h o' m').isSome) :
    ((h.set o m x) o' m').isSome := by
  unfold set
  split_ifs
  · rfl
  · exact hm

theorem walk_append (h : Heap V) (a : V) (path more : List Member) :
    h.walk a (path ++ more) = (h.walk a path).bind fun o => h.walk o more := by
  induction path generalizing a with
  | nil => rfl
  | cons m path ih =>
    rw [List.cons_append, walk, walk, Option.bind_assoc]
    exact congrArg _ (funext ih)

theorem walk_singleton (h : Heap V) (a : V) (m : Member) : h.walk a [m] = h a m := by
  rw [walk]
  exact Option.bind_fun_some _

/-- A field of a type that is known. -/
theorem Typed.kinds {kind : V → Kind} {t : Ty} (hh : h.Typed kind) (hx : h o m = some x)
    (hm : m.descriptor = t.descriptor) :
    kind o = .ref ∧ t.kinds = [kind x] ∧ ∃ f, FieldType.parse m.descriptor = .ok f ∧
      f.kind? = some (kind x) := by
  obtain ⟨ho, f, hparse, hkind⟩ := hh o m x hx
  rw [hm] at hparse
  obtain ⟨k, hk, hkinds⟩ := Option.map_eq_some_iff.mp
    (Ty.kinds_fieldType (Ty.fieldType?_of_parse hparse))
  obtain rfl := hkind k hk
  exact ⟨ho, hkinds.symm, f, hm ▸ hparse, hk⟩

end Heap

/-! ### The runtime -/

/-- What the machine is told about fields, about conversions, and about the world apart from fields.
-/
structure Runtime (V U : Type) [DecidableEq V] extends Iteration.Runtime V (Heap V × U) where
  /-- The same number in a wider type. -/
  widen : Primitive → Primitive → V → V
  getField : ∀ m o h u, effect (Code.getField m) [o] (h, u) = (h o m).map fun x => ([x], (h, u))
  putField : ∀ m x o h u,
    effect (Code.putField m) [x, o] (h, u) = if (h o m).isSome then some ([], (h.set o m x, u))
      else none
  widened : ∀ p q op x w, p.widenOp? q = some op → kind x = p.kind →
    effect (.op op) [x] w = some ([widen p q x], w) ∧ kind (widen p q x) = q.kind
  /-- A scalar is put into a box, and no field changes. -/
  boxed : ∀ p i x h u, Code.box p = [i] → kind x = p.kind →
    ∃ y u', effect i [x] (h, u) = some ([y], (h, u')) ∧ kind y = .ref ∧
      p.boxedClass?.all (passes y) = true ∧
      unbox p y = some x
  /-- No field is taken away. -/
  keeps : ∀ i operands w results w', effect i operands w = some (results, w') →
    ∀ o m, (w.1 o m).isSome → (w'.1 o m).isSome

variable {V U : Type} [DecidableEq V]

namespace Runtime

/-- A box of the scalar `x`. -/
def IsBox (R : Runtime V U) (p : Primitive) (x y : V) : Prop :=
  R.kind y = .ref ∧ p.boxedClass?.all (R.passes y) = true ∧ R.unbox p y = some x

/-- What is stored for the value `x` of a type in a field of another: a box where the field has
references and the value is a scalar, the number in the type of the field where both are scalars,
and else the value itself. -/
def Stores (R : Runtime V U) (source target : Ty) (x y : V) : Prop :=
  match source.representation, target.representation with
  | .scalar p, .reference => R.IsBox p x y
  | .scalar p, .scalar q => y = if p = q then x else R.widen p q x
  | _, _ => y = x

end Runtime

/-- The code of a value, which stands at `n`, is run from its beginning to its end and leaves `x`,
which is of the kind of its type, on the stack. -/
structure Evaluates (R : Runtime V U) (P : Code) (n : Nat) (v : Lowered) (σ : State V (Heap V × U))
    (trace : List (State V (Heap V × U))) (x : V) (τ : State V (Heap V × U)) : Prop where
  through : Through R.toRuntime P n v.code σ trace τ
  stack : τ.stack = x :: σ.stack
  kinds : v.type.kinds = [R.kind x]

/-! ### Steps -/

section Steps

variable {R : Runtime V U} {P : Code} {n : Nat} {m : Member} {f : FieldType} {o x : V} {st : List V}
  {locals : Nat → Option V} {h : Heap V} {u : U}

theorem shape?_field {op : Opcode} {k : Kind} (hf : FieldType.parse m.descriptor = .ok f)
    (hk : f.kind? = some k) : (Instr.field op m).shape? = Instr.fieldShape? k op := by
  simp [Instr.shape?, hf, Except.toOption, hk]

theorem step_getField (hi : P[n]? = some (Code.getField m))
    (hf : FieldType.parse m.descriptor = .ok f) (hk : f.kind? = some (R.kind x))
    (ho : R.kind o = .ref) (hx : h o m = some x) :
    Step R.toRuntime P ⟨n, o :: st, locals, (h, u)⟩ ⟨n + 1, x :: st, locals, (h, u)⟩ := by
  refine step_effect [o] [x] hi ?_ ?_ (fun _ => rfl) rfl
  · rw [Code.getField, shape?_field hf hk, List.map_singleton, ho]
    rfl
  · rw [R.getField, hx]
    rfl

theorem step_putField (hi : P[n]? = some (Code.putField m))
    (hf : FieldType.parse m.descriptor = .ok f) (hk : f.kind? = some (R.kind x))
    (ho : R.kind o = .ref) (hx : (h o m).isSome) :
    Step R.toRuntime P ⟨n, x :: o :: st, locals, (h, u)⟩ ⟨n + 1, st, locals, (h.set o m x, u)⟩ := by
  refine step_effect [x, o] [] hi ?_ ?_ (fun _ => rfl) rfl
  · rw [Code.putField, shape?_field hf hk, List.map_cons, List.map_singleton, ho]
    rfl
  · rw [R.putField, if_pos hx]

theorem step_widen {p q : Primitive} {op : Opcode} {w : Heap V × U} (hi : P[n]? = some (.op op))
    (hop : p.widenOp? q = some op) (hx : R.kind x = p.kind) :
    Step R.toRuntime P ⟨n, x :: st, locals, w⟩ ⟨n + 1, R.widen p q x :: st, locals, w⟩ := by
  obtain ⟨heffect, hwide⟩ := R.widened p q op x w hop hx
  refine step_effect [x] [R.widen p q x] hi ?_ heffect (fun _ => rfl) ?_
  · rw [List.map_singleton, List.map_singleton, hx, hwide]
    cases p <;> cases q <;> cases hop <;> rfl
  · cases p <;> cases q <;> cases hop <;> rfl

theorem step_box {p : Primitive} {i : Instr} (hi : P[n]? = some i) (hbox : Code.box p = [i])
    (hx : R.kind x = p.kind) :
    ∃ y u', Step R.toRuntime P ⟨n, x :: st, locals, (h, u)⟩ ⟨n + 1, y :: st, locals, (h, u')⟩ ∧
      R.IsBox p x y := by
  obtain ⟨y, u', heffect, hy, hpasses, hunbox⟩ := R.boxed p i x h u hbox hx
  refine ⟨y, u', step_effect [x] [y] hi ?_ heffect ?_ ?_, hy, hpasses, hunbox⟩
  · rw [List.map_singleton, List.map_singleton, hx, hy]
    cases p <;> cases hbox <;> rfl
  · cases p <;> cases hbox <;> exact fun _ => rfl
  · cases p <;> cases hbox <;> rfl

/-- No instruction takes a field away. -/
theorem act_keeps {σ : State V (Heap V × U)} {i : Instr} {operands results : List V}
    {locals : Nat → Option V} {w : Heap V × U}
    (hact : act R.toRuntime σ i operands = some (results, locals, w))
    (hm : (σ.world.1 o m).isSome) : (w.1 o m).isSome := by
  have heffect (hact : (R.effect i operands σ.world).map (fun r => (r.1, σ.locals, r.2)) =
      some (results, locals, w)) :
      (w.1 o m).isSome := by
    obtain ⟨r, hr, hsame⟩ := Option.map_eq_some_iff.mp hact
    cases hsame
    exact R.keeps _ _ _ _ _ hr o m hm
  cases i with
  | slot op k =>
    cases operands with
    | nil =>
      obtain ⟨v, -, hv⟩ := Option.map_eq_some_iff.mp hact
      cases hv
      exact hm
    | cons v rest =>
      cases hact
      exact hm
  | mark l | jump op l =>
    cases hact
    exact hm
  | _ => exact heffect hact

theorem run_keeps {σ τ : State V (Heap V × U)} {trace : List (State V (Heap V × U))}
    (hrun : Run R.toRuntime P σ trace τ) (hm : (σ.world.1 o m).isSome) :
    (τ.world.1 o m).isSome := by
  refine hrun.keeps (I := fun σ => (σ.world.1 o m).isSome) (fun ρ _ κ hstep hρ => ?_) hm
  obtain ⟨i, -, hexec⟩ := hstep
  obtain ⟨shape, results, -, hact, -⟩ := exec_eq_some hexec
  exact act_keeps hact hρ

end Steps

end ClassGen.Fields
