import ClassGen.Lower.Expr
import ClassGen.Proofs.Run

/-! What the small actions of lowering do to the state, and when they succeed. -/

namespace ClassGen

open Run

variable {s t : LowerState}

/-- The state after `n` labels more were taken. -/
def LowerState.skip (s : LowerState) (n : Nat) : LowerState :=
  { s with body.nextLabel := s.body.nextLabel + n }

namespace LowerState

@[simp] theorem skip_locals (s : LowerState) (n : Nat) :
    (s.skip n).body.locals = s.body.locals := rfl

@[simp] theorem skip_nextSlot (s : LowerState) (n : Nat) :
    (s.skip n).body.nextSlot = s.body.nextSlot := rfl

@[simp] theorem skip_nextLabel (s : LowerState) (n : Nat) :
    (s.skip n).body.nextLabel = s.body.nextLabel + n := rfl

@[simp] theorem skip_file (s : LowerState) (n : Nat) : (s.skip n).file = s.file := rfl

theorem skip_skip (s : LowerState) (n m : Nat) : (s.skip n).skip m = s.skip (n + m) := by
  simp [skip, Nat.add_assoc]

/-- With an event more in the trace. -/
def logged (s : LowerState) (e : Event) : LowerState := { s with file.log := e :: s.file.log }

@[simp] theorem logged_body (s : LowerState) (e : Event) : (s.logged e).body = s.body := rfl

/-- With a slot more taken, for a value of this representation. -/
def withSlot (s : LowerState) (repr : Representation) : LowerState :=
  { s with body.nextSlot := s.body.nextSlot + max repr.slots 1 }

/-- With a local more declared, in the next slot. -/
def withLocal (s : LowerState) (scope : ScopeId) (name : String) (type : Ty) : LowerState :=
  { s with
    body.nextSlot := s.body.nextSlot + max type.representation.slots 1
    body.locals := Dict.insert (scope, name) ⟨s.body.nextSlot, type⟩ s.body.locals }

@[simp] theorem withSlot_nextLabel (s : LowerState) (repr : Representation) :
    (s.withSlot repr).body.nextLabel = s.body.nextLabel := rfl

@[simp] theorem withLocal_nextLabel (s : LowerState) (scope : ScopeId) (name : String) (type : Ty) :
    (s.withLocal scope name type).body.nextLabel = s.body.nextLabel := rfl

end LowerState

namespace Lower

theorem newLabel_ok {l : Label} : newLabel s = .ok l t ↔ s.body.nextLabel = l ∧ s.skip 1 = t := by
  simp [newLabel, LowerState.skip]

theorem newSlot_ok {repr : Representation} {n : Nat} :
    newSlot repr s = .ok n t ↔
      s.body.nextSlot = n ∧ s.withSlot repr = t := by
  simp [newSlot, LowerState.withSlot]

theorem declareLocal_ok {scope : ScopeId} {name : String} {type : Ty} {n : Nat} :
    declareLocal scope name type s = .ok n t ↔
      s.body.nextSlot = n ∧ s.withLocal scope name type = t := by
  simp only [declareLocal, bind_ok, newSlot_ok, modify_ok, pure_ok]
  constructor
  · rintro ⟨a, r, ⟨rfl, rfl⟩, u, q, hm, rfl, rfl⟩
    exact ⟨rfl, hm⟩
  · rintro ⟨rfl, rfl⟩
    exact ⟨_, _, ⟨rfl, rfl⟩, ⟨⟩, _, rfl, rfl, rfl⟩

theorem log_ok {e : Event} {u : Unit} :
    log e s = .ok u t ↔ s.logged e = t := modify_ok

end Lower

namespace Lowered

theorem into_ok {v : Lowered} {target : Ty} {span : Span} {c : Code} :
    v.into target span s = .ok c t ↔
      (v.type.isVoid → target.isVoid) ∧ v.code ++ coerce v.type target = c ∧ s = t := by
  unfold into
  cases hv : v.type.isVoid <;> cases ht : target.isVoid <;> simp [pure_ok, throw_ok]

theorem appended_ok {v : Lowered} {span : Span} {c : Code} :
    v.appended span s = .ok c t ↔ v.type.isVoid = false ∧ v.code ++ [appendValue v.type] =
      c ∧ s = t := by
  unfold appended
  cases hv : v.type.isVoid <;> simp [pure_ok, throw_ok]

end Lowered

theorem structField_state {owner : Ty} {field : String} {span : Span} {a : StructDef × Ty}
    (h : structField owner field span s = .ok a t) : s = t := by
  cases owner with
  | struct decl bindings =>
    cases hf : decl.fieldType? field <;> simp only [structField, hf, throw_ok, pure_ok] at h
    exact h.2
  | _ => exact (throw_ok.mp h).elim

theorem checkArity_ok {expected found : Nat} {span : Span} {u : Unit} :
    checkArity expected found span s = .ok u t ↔ expected = found ∧ s = t := by
  unfold checkArity
  split <;> simp_all [pure_ok, throw_ok]

namespace BodyContext

variable {cx : BodyContext}

theorem resolveType_ok {type u : Ty} {span : Span} :
    cx.resolveType type span s = .ok u t ↔ Specialization.resolve cx.bindings type =
      .ok u ∧ s = t := by
  unfold resolveType
  cases Specialization.resolve cx.bindings type <;> simp [pure_ok, throw_ok]

theorem resolve_ok {note : Note} {u : Ty} :
    cx.resolve note s = .ok u t ↔ Specialization.resolve cx.bindings note.type = .ok u ∧ s = t :=
  resolveType_ok

theorem storage?_ok {name : String} {o : Option Storage} :
    cx.storage? name s = .ok o t ↔
      cx.storageIn? s.body.locals name (cx.file.scopes.chain cx.scope) = o ∧ s = t := by
  simp only [storage?, bind_ok, get_ok, pure_ok]
  constructor
  · rintro ⟨_, _, ⟨rfl, rfl⟩, h⟩
    exact h
  · intro h
    exact ⟨s, s, ⟨rfl, rfl⟩, h⟩

/-- The name is visible and the chain of the current scope has storage for it. -/
theorem storageOf_ok {name : String} {span : Span} {st : Storage} :
    cx.storageOf name span s = .ok st t ↔
      (cx.file.scopes.lookup cx.scope name).isSome ∧
        cx.storageIn? s.body.locals name (cx.file.scopes.chain cx.scope) = some st ∧ s = t := by
  simp only [storageOf, bind_ok, storage?_ok]
  constructor
  · rintro ⟨o, _, ⟨ho, rfl⟩, h⟩
    cases hl : cx.file.scopes.lookup cx.scope name <;> cases o <;>
      simp only [hl, throw_ok, pure_ok] at h
    exact ⟨rfl, h.1 ▸ ho, h.2⟩
  · rintro ⟨hl, ho, rfl⟩
    obtain ⟨u, hu⟩ := Option.isSome_iff_exists.mp hl
    exact ⟨some st, s, ⟨ho, rfl⟩, by simp [hu, pure_ok]⟩

theorem lastParam?_cons {name : String} {index : Nat} {t : Ty} {params : List (String × Ty)}
    (n : String) :
    lastParam? name index ((n, t) :: params) =
      (lastParam? name (index + 1) params).or (if n = name then some (index, t) else none) := rfl

/-- The last parameter of a name stands where it is found. -/
theorem lastParam?_get {name : String} {index i : Nat} {t : Ty} {params : List (String × Ty)}
    (h : lastParam? name index params = some (i, t)) :
    ∃ j, i = index + j ∧ params[j]? = some (name, t) := by
  induction params generalizing index with
  | nil => cases h
  | cons p params ih =>
    obtain ⟨n, u⟩ := p
    rw [lastParam?_cons] at h
    cases hr : lastParam? name (index + 1) params with
    | some later =>
      rw [hr, Option.some_or] at h
      obtain ⟨j, hj, hget⟩ := ih (hr.trans h)
      exact ⟨j + 1, by omega, hget⟩
    | none =>
      rw [hr, Option.none_or] at h
      split at h
      · next hn =>
        cases h
        exact ⟨0, rfl, by rw [List.getElem?_cons_zero, hn]⟩
      · cases h

/-- Planning a type changes nothing. -/
theorem plannedType_state {e : Expr} {u : Ty} (h : cx.plannedType e s = .ok u t) : s = t := by
  induction e using plannedType.induct with
  | case1 note name =>
    simp only [plannedType, bind_ok, storage?_ok] at h
    obtain ⟨o, _, ⟨-, rfl⟩, h⟩ := h
    cases o with
    | none => exact (resolve_ok.mp h).2
    | some st => exact (pure_ok.mp h).2
  | case2 note inner ih =>
    rw [plannedType] at h
    exact ih h
  | case3 e hi hg =>
    rw [plannedType] at h
    · exact (resolve_ok.mp h).2
    · exact hi
    · exact hg

theorem mapM_plannedType_state {es : List Expr} {us : List Ty}
    (h : es.mapM cx.plannedType s = .ok us t) : s = t := by
  induction es generalizing s us with
  | nil => exact (pure_ok.mp h).2
  | cons e es ih =>
    simp only [List.mapM_cons, bind_ok, pure_ok] at h
    obtain ⟨u, r, hu, vs, q, hvs, -, rfl⟩ := h
    exact (plannedType_state hu).trans (ih hvs)

theorem callee_state {e : Expr} {u : Ty} (h : cx.callee e s = .ok u t) : s = t := by
  cases e with
  | ident note name =>
    cases hl : cx.file.scopes.lookup cx.scope name <;>
      simp only [callee, hl, throw_ok, pure_ok] at h
    exact h.2
  | _ => exact (pure_ok.mp h).2

theorem specialize_ok {sig : Signature} {args params : List Ty} {span : Span}
    {map : Bindings} {ret : Ty} (h : specialize sig args span s = .ok (map, params, ret) t) :
    (if sig.isGeneric then sig.instantiate map = .ok (params, ret)
      else params = sig.paramTypes ∧ ret = sig.ret) ∧ s = t := by
  unfold specialize at h
  cases hm : sig.specialize args with
  | error e => simp [hm, bind, Except.bind, throw_ok] at h
  | ok m =>
    by_cases hg : sig.isGeneric
    · cases hi : sig.instantiate m with
      | error e => simp [hm, hg, hi, bind, Except.bind, throw_ok] at h
      | ok a =>
        simp [hm, hg, hi, bind, Except.bind, pure, Except.pure, EStateM.pure] at h
        obtain ⟨⟨rfl, rfl, rfl⟩, rfl⟩ := h
        simp [hg, hi]
    · simp [hm, hg, bind, Except.bind, pure, Except.pure, EStateM.pure] at h
      obtain ⟨⟨rfl, rfl, rfl⟩, rfl⟩ := h
      simp [hg]

theorem loadField_state {owner v : Lowered} {field : String} {span : Span}
    (h : cx.loadField owner field span s = .ok v t) : s = t := by
  simp only [loadField, bind_ok, pure_ok] at h
  obtain ⟨a, r, ha, -, rfl⟩ := h
  exact structField_state ha

theorem loadFields_state {fields : List String} {owner v : Lowered} {span : Span}
    (h : cx.loadFields owner span fields s = .ok v t) : s = t := by
  induction fields generalizing s owner with
  | nil => exact (pure_ok.mp h).2
  | cons field rest ih =>
    simp only [loadFields, bind_ok] at h
    obtain ⟨next, r, hn, hr⟩ := h
    exact (loadField_state hn).trans (ih hr)

/-- A receiver is taken as it is, known to be the same struct, or cast to a struct. -/
theorem receiver_ok {v r : Lowered} {note : Note} (h : cx.receiver v note s = .ok r t) :
    s = t ∧ (r = v ∨
      (∃ decl given wanted, v.type = .struct decl given ∧ r = ⟨.struct decl wanted, v.code⟩) ∨
      ∃ decl wanted, v.type.isStruct = false ∧
        r = ⟨.struct decl wanted, v.code ++ coerce v.type (.struct decl wanted)⟩) := by
  simp only [receiver, bind_ok, resolve_ok] at h
  obtain ⟨u, q, ⟨-, rfl⟩, h⟩ := h
  cases hv : v.type with
  | struct decl given =>
    cases u with
    | struct wanted bindings =>
      simp only [hv, pure_ok] at h
      obtain ⟨rfl, rfl⟩ := h
      by_cases hd : decl = wanted ∧ given.isEmpty
      · rw [if_pos hd]
        exact ⟨rfl, .inr (.inl ⟨decl, given, bindings, rfl, by rw [hd.1]⟩)⟩
      · rw [if_neg hd]
        exact ⟨rfl, .inl rfl⟩
    | _ =>
      simp only [hv, pure_ok] at h
      exact ⟨h.2, .inl h.1.symm⟩
  | _ =>
    cases u <;> simp only [hv, pure_ok] at h <;>
      first
      | exact ⟨h.2, .inl h.1.symm⟩
      | exact ⟨h.2, .inr (.inr ⟨_, _, rfl, h.1.symm⟩)⟩

/-- Finding the unit of a callee changes at most what is requested and traced. -/
theorem linkedUnit_ok {sig : Signature} {owner : Option String} {map : Bindings}
    {descriptor unit : String} (h : cx.linkedUnit sig owner map descriptor s = .ok unit t) :
    ∃ table log, { s with file.table := table, file.log := log } = t := by
  cases owner with
  | some owner =>
    obtain ⟨-, rfl⟩ := pure_ok.mp h
    exact ⟨_, _, rfl⟩
  | none =>
    simp only [linkedUnit] at h
    cases hg : sig.isGeneric with
    | true =>
      rw [hg, if_pos rfl] at h
      obtain ⟨_, r, hr, h⟩ := bind_ok.mp h
      obtain ⟨-, rfl⟩ := pure_ok.mp h
      simp only [requireInstance, bind_ok, get_ok, set_ok] at hr
      obtain ⟨_, _, ⟨rfl, rfl⟩, _, _, rfl, h⟩ := hr
      split at h
      · obtain rfl := Lower.log_ok.mp h
        exact ⟨_, _, rfl⟩
      · obtain ⟨-, rfl⟩ := pure_ok.mp h
        exact ⟨_, _, rfl⟩
    | false =>
      rw [hg, if_neg Bool.false_ne_true] at h
      obtain ⟨-, rfl⟩ := pure_ok.mp h
      exact ⟨_, _, rfl⟩

end BodyContext

namespace BinaryOp

variable {op : BinaryOp} {left right : Ty} {p : Option OperatorPlan}

theorem plan?_ok_relational (hop : op.isRelational = true) :
    op.plan? left right s = .ok p t ↔
      (op.comparison? left right s.body.nextLabel).map (fun (common, test) =>
        ⟨common, .boolean, test ++ truthValue s.body.nextLabel (s.body.nextLabel + 1)⟩) = p ∧
      s.skip 2 = t := by
  simp only [plan?, hop, if_true, bind_ok, Lower.newLabel_ok, pure_ok]
  constructor
  · rintro ⟨_, _, ⟨rfl, rfl⟩, _, _, ⟨rfl, rfl⟩, h⟩
    exact h
  · intro h
    exact ⟨_, _, ⟨rfl, rfl⟩, _, _, ⟨rfl, rfl⟩, h⟩

theorem plan?_ok_xor : xor.plan? left right s = .ok p t ↔ xorPlan? left right = p ∧ s = t := by
  simp [plan?, isRelational, pure_ok]

theorem plan?_ok_arithmetic (hop : op.isRelational = false) (hx : op ≠ xor) :
    op.plan? left right s = .ok p t ↔ op.arithmeticPlan? left right = p ∧ s = t := by
  simp [plan?, hop, hx, pure_ok]

end BinaryOp

/-! ### A body to lower -/

/-- A body without parameters, in scope one, that has these variables. The scopes after it are those
of its blocks. -/
def sampleContext (vars : List (String × Ty)) (blocks : List Scope) : BodyContext where
  file :=
    { unitName := "sample", fileName := "sample.ix"
      scopes := ⟨(⟨none, []⟩ :: ⟨some 0, vars⟩ :: blocks).toArray⟩ }
  frame :=
    { access := .publicStatic, name := "_f", descriptor := "()V", args := [], returnsVoid := true
      nextSlot := 0 }
  bindings := []
  params := []
  ret := .void
  bodyScope := 1
  scope := 1

/-- The variables are declared, one after another. -/
def sampleState (vars : List (String × Ty)) : LowerState :=
  vars.foldl (fun s var => s.withLocal 1 var.1 var.2) {}

end ClassGen
