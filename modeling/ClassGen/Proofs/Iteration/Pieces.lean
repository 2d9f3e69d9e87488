import Mathlib.Algebra.GroupWithZero.Nat
import ClassGen.Proofs.Iteration.Machine

/-! What single instructions of a loop do, and its pieces: the code that makes an iterator of the
source, and the head, which asks that iterator and moves an element into the variable. -/

namespace ClassGen.Iteration

variable {V W : Type}

/-! ### Elements and their iterator -/

namespace Runtime

/-- An element as a value of this type: unboxed, or cast to its class. -/
def convert (R : Runtime V W) (type : Ty) (x : V) : Option V :=
  match type.representation with
  | .scalar p => if p.boxedClass?.all (R.passes x) then R.unbox p x else none
  | .reference => if type.className = Library.object ∨ R.passes x type.className then some x
      else none
  | .void => none

/-- The iterator `it` of a value of some type, and the world after it was made. A list is asked for
what backs it, and that for an iterator; an erased value is an iterator; and a host object is one,
or is asked for one. -/
def Opens (R : Runtime V W) (v : V) (w : W) (it : V) (w' : W) : Ty → Prop
  | .list _ => ∃ list u, R.effect (Code.callVirtual Library.wrapperList) [v] w = some ([list], u) ∧
      R.kind list = .ref ∧ R.effect (Code.callVirtual Library.listIterator)
        [list] u = some ([it], w')
  | .generic _ | .union _ => R.passes v Library.iterator = true ∧ it = v ∧ w' = w
  | .external c =>
    if c = Library.iterator then it = v ∧ w' = w
    else if c = Library.object then R.passes v Library.iterator = true ∧ it = v ∧ w' = w
    else (c = Library.iterable ∨ R.passes v Library.iterable = true) ∧
      R.effect (Code.callInterface Library.iterableIterator) [v] w = some ([it], w')
  | _ => False

end Runtime

/-! ### The code of a loop -/

/-- The pieces of the code of a loop. -/
structure LoopCode where
  source : Lowered
  /-- Makes an iterator of the source. -/
  opening : Code
  /-- Where the iterator is kept. -/
  iterator : Nat
  element : LocalVar
  start : Label
  done : Label
  body : Code

namespace LoopCode

def keep (m : LoopCode) : Instr := Code.storeSlot m.iterator .reference

/-- Leaves the loop, or moves the next element into the variable. -/
def head (m : LoopCode) : Code := [.mark m.start] ++ advanceLoop m.iterator m.element m.done

def code (m : LoopCode) : Code :=
  m.source.code ++ (m.opening ++ [m.keep]) ++ m.head ++ m.body ++ [Code.goto m.start, .mark m.done]

def openAt (m : LoopCode) : Nat := m.source.code.length

def headAt (m : LoopCode) : Nat := m.openAt + (m.opening.length + 1)

def bodyAt (m : LoopCode) : Nat := m.headAt + m.head.length

/-- Where the body ends. -/
def backAt (m : LoopCode) : Nat := m.bodyAt + m.body.length

theorem length_code (m : LoopCode) : m.code.length = m.backAt + 2 := by
  simp only [code, backAt, bodyAt, headAt, openAt, List.length_append, List.length_cons,
    List.length_nil]

section Positions

variable {m : LoopCode} {n k : Nat}

theorem within_of_head (h : Code.Within (n + m.headAt) m.head k) : Code.Within n m.code k := by
  have hlength := m.length_code
  rw [backAt, bodyAt] at hlength
  rw [Code.Within] at h ⊢
  omega

theorem within_of_body (h : Code.Within (n + m.bodyAt) m.body k) : Code.Within n m.code k := by
  have hlength := m.length_code
  rw [backAt] at hlength
  rw [Code.Within] at h ⊢
  omega

theorem within_back : Code.Within n m.code (n + m.backAt) := by
  rw [Code.Within, length_code]
  omega

theorem within_of_setup (h : n ≤ k) (hk : k < n + m.headAt) : Code.Within n m.code k := by
  have hlength := m.length_code
  rw [backAt, bodyAt] at hlength
  rw [Code.Within]
  omega

end Positions

/-- The pieces that lowering a loop gives. -/
structure Of (m : LoopCode) (cx : BodyContext) (binding : String) (iterable : Expr) (body : Block)
    (s t : LowerState) : Prop where
  lowered : ∃ s₁, lowerExpr cx iterable s = .ok m.source s₁ ∧ m.iterator = s₁.body.nextSlot ∧
    m.element.slot = (s₁.withSlot .reference).body.nextSlot ∧ m.start = s₁.body.nextLabel ∧
    m.done = s₁.body.nextLabel + 1 ∧
    lowerBlock cx body (((s₁.withSlot .reference).withLocal body.scope binding m.element.type).skip
      2) = .ok m.body t
  opening : iteratorCode m.source.type = some m.opening
  type : ElementType cx body.scope binding m.source.type m.element.type

theorem elementType_unique {cx : BodyContext} {scope : ScopeId} {binding : String} {source t u : Ty}
    (ht : ElementType cx scope binding source t) (hu : ElementType cx scope binding source u) :
    t = u := by
  unfold ElementType at ht hu
  cases hl : cx.file.scopes.lookup scope binding with
  | some declared =>
    simp only [hl] at ht hu
    exact Except.ok.inj (ht.symm.trans hu)
  | none =>
    simp only [hl] at ht hu
    exact ht.symm.trans hu

/-- The pieces are determined. -/
theorem Of.unique {m m' : LoopCode} {cx : BodyContext} {binding : String} {iterable : Expr}
    {body : Block} {s t : LowerState} (h : m.Of cx binding iterable body s t)
    (h' : m'.Of cx binding iterable body s t) : m = m' := by
  obtain ⟨source, opening, iterator, ⟨slot, type⟩, start, done, code⟩ := m
  obtain ⟨source', opening', iterator', ⟨slot', type'⟩, start', done', code'⟩ := m'
  obtain ⟨⟨s₁, hv, rfl, rfl, rfl, rfl, hb⟩, hopening, htype⟩ := h
  obtain ⟨⟨s₂, hv', rfl, rfl, rfl, rfl, hb'⟩, hopening', htype'⟩ := h'
  cases hv.symm.trans hv'
  cases hopening.symm.trans hopening'
  cases elementType_unique htype htype'
  cases hb.symm.trans hb'
  rfl

/-- The loop stands in a method, whose labels are placed once. Its body has no way out but its end,
and leaves the slot of the iterator alone. -/
structure Placed (m : LoopCode) (P : Code) (n : Nat) : Prop where
  at_code : P.At n m.code
  once : P.marks.Nodup
  inward : m.body.Inward []
  spares : ∀ op k, .slot op k ∈ m.body → Spares m.iterator op k
  next : m.element.slot = m.iterator + 1
  narrow : m.element.slot < 2 ^ 16

theorem Placed.iterator_lt {m : LoopCode} {P : Code} {n : Nat} (h : m.Placed P n) :
    m.iterator < 2 ^ 16 := by
  have := h.next
  have := h.narrow
  omega

end LoopCode

/-! ### Single instructions -/

section Steps

variable {R : Runtime V W} {P : Code} {n : Nat} {st : List V} {locals : Nat → Option V} {w w' : W}

theorem step_mark {l : Label} (hi : P[n]? = some (.mark l)) :
    Step R P ⟨n, st, locals, w⟩ ⟨n + 1, st, locals, w⟩ :=
  step_of_shape [] [] hi rfl rfl rfl

theorem step_jump {op : Opcode} {l : Label} {m : Nat} (operands : List V)
    (hi : P[n]? = some (.jump op l)) (hshape : Instr.jumpTaken? op = some (operands.map R.kind))
    (hnext : next? R P n (.jump op l) operands = some m) :
    Step R P ⟨n, operands ++ st, locals, w⟩ ⟨m, st, locals, w⟩ := by
  refine step_of_shape operands [] hi ?_ rfl hnext
  rw [Instr.shape?, hshape]
  rfl

/-- An instruction of which the runtime says what it does. -/
theorem step_effect {i : Instr} (operands results : List V) (hi : P[n]? = some i)
    (hshape : i.shape? = some ⟨operands.map R.kind, results.map R.kind⟩)
    (heffect : R.effect i operands w = some (results, w'))
    (hact : ∀ σ : State V W, act R σ i operands = (R.effect i operands σ.world).map fun r =>
      (r.1, σ.locals, r.2))
    (hnext : next? R P n i operands = some (n + 1)) :
    Step R P ⟨n, operands ++ st, locals, w⟩ ⟨n + 1, results ++ st, locals, w'⟩ := by
  refine step_of_shape operands results hi hshape ?_ hnext
  rw [hact, heffect]
  rfl

/-- A call without arguments. -/
theorem step_call {op : Opcode} {target : Member} {v r : V} {k : Kind}
    (hi : P[n]? = some (.invoke op target))
    (hshape : (Instr.invoke op target).shape? = some ⟨[.ref], [k]⟩) (hv : R.kind v = .ref)
    (hr : R.kind r = k) (heffect : R.effect (.invoke op target) [v] w = some ([r], w'))
    (hfalls : op.isTerminal = false) :
    Step R P ⟨n, v :: st, locals, w⟩ ⟨n + 1, r :: st, locals, w'⟩ := by
  refine step_effect [v] [r] hi ?_ heffect (fun _ => rfl) ?_
  · rw [hshape, List.map_singleton, List.map_singleton, hv, hr]
  · have hterminal : (Instr.invoke op target).isTerminal = false := hfalls
    simp [next?, hterminal]

theorem step_cast {c : String} {v : V} (hi : P[n]? = some (Code.checkcast c)) (hv : R.kind v = .ref)
    (hpasses : R.passes v c = true) :
    Step R P ⟨n, v :: st, locals, w⟩ ⟨n + 1, v :: st, locals, w⟩ := by
  refine step_effect [v] [v] hi ?_ ?_ (fun _ => rfl) rfl
  · rw [List.map_singleton, hv]
    rfl
  · rw [R.checkcast, hpasses, if_pos rfl]

theorem step_load {slot : Nat} {it : V} (hi : P[n]? = some (Code.loadSlot slot .reference))
    (hslot : slot < 2 ^ 16) (hit : locals slot = some it) (hkind : R.kind it = .ref) :
    Step R P ⟨n, st, locals, w⟩ ⟨n + 1, it :: st, locals, w⟩ := by
  refine step_of_shape [] [it] hi ?_ ?_ rfl
  · rw [List.map_singleton, hkind]
    rfl
  · rw [Code.loadSlot, act, UInt16.toNat_ofNat_of_lt' hslot]
    exact congrArg (Option.map _) hit

theorem step_store {slot : Nat} {repr : Representation} {v : V}
    (hi : P[n]? = some (Code.storeSlot slot repr)) (hslot : slot < 2 ^ 16)
    (hkind : Instr.slotShape? repr.storeOp = some ⟨[R.kind v], []⟩) :
    Step R P ⟨n, v :: st, locals, w⟩ ⟨n + 1, st, store R locals slot v, w⟩ := by
  refine step_of_shape [v] [] hi hkind ?_ ?_
  · rw [Code.storeSlot, act, UInt16.toNat_ofNat_of_lt' hslot]
  · simp [next?, Code.storeSlot, Instr.isTerminal, Instr.opcode?, slotShape?_falls hkind]

/-- The iterator of the source. -/
theorem through_opening {type : Ty} {c : Code} {v it : V} (hc : iteratorCode type = some c)
    (hv : R.kind v = .ref) (hit : R.kind it = .ref) (hopens : R.Opens v w it w' type)
    (hat : P.At n c) (st : List V) (locals : Nat → Option V) :
    ∃ trace, Through R P n c ⟨n, v :: st, locals, w⟩ trace ⟨n + c.length, it :: st,
      locals, w'⟩ := by
  -- a value that is an iterator already
  have hcast (hpasses : R.passes v Library.iterator = true) (hsame : it = v ∧ w' = w)
      (hc : [Code.checkcast Library.iterator] = c) :
      ∃ trace, Through R P n c ⟨n, v :: st, locals, w⟩ trace
        ⟨n + c.length, it :: st, locals, w'⟩ := by
    obtain ⟨rfl, rfl⟩ := hsame
    subst hc
    exact ⟨_, .single (step_cast hat.head hv hpasses) rfl rfl⟩
  unfold iteratorCode at hc
  split at hc
  · obtain ⟨list, u, hlist, hkind, hiterator⟩ := hopens
    cases hc
    exact ⟨_, .cons (step_call hat.head rfl hv hkind hlist rfl) rfl rfl
      (.single (step_call hat.tail.head rfl hkind hit hiterator rfl) rfl rfl)⟩
  · exact hcast hopens.1 hopens.2 (Option.some.inj hc)
  · exact hcast hopens.1 hopens.2 (Option.some.inj hc)
  · simp only [Runtime.Opens] at hopens
    split_ifs at hc hopens with hiterator hobject hiterable
    · obtain ⟨rfl, rfl⟩ := hopens
      cases hc
      exact ⟨[], .nil rfl⟩
    · exact hcast hopens.1 hopens.2 (Option.some.inj hc)
    · cases hc
      exact ⟨_, .single (step_call hat.head rfl hv hit hopens.2 rfl) rfl rfl⟩
    · cases hc
      have hpasses := hopens.1.resolve_left hiterable
      exact ⟨_, .cons (step_cast hat.head hv hpasses) rfl rfl
        (.single (step_call hat.tail.head rfl hv hit hopens.2 rfl) rfl rfl)⟩
  · cases hc

theorem isScalar_of_representation {t : Ty} {p : Primitive} (h : t.representation = .scalar p) :
    p.isScalar = true := by
  cases t with
  | primitive kind => cases kind <;> simp only [Ty.representation,
      Primitive.isScalar] at h <;> cases h <;> rfl
  | _ => cases h

/-- How a scalar is taken out of its box, and kept. -/
theorem unbox_eq {p : Primitive} (h : p.isScalar = true) :
    ∃ boxed method, p.boxedClass? = some boxed ∧ p.unboxMethod? = some method ∧
      Code.unbox p = [Code.checkcast boxed,
        Code.callVirtual ⟨boxed, method, "()" ++ p.descriptor⟩] ∧
      (Code.callVirtual ⟨boxed, method, "()" ++ p.descriptor⟩).shape? = some ⟨[.ref], [p.kind]⟩ ∧
      Instr.slotShape? p.storeOp = some ⟨[p.kind], []⟩ := by
  cases p with
  | int | float | double | boolean => exact ⟨_, _, rfl, rfl, rfl, rfl, rfl⟩
  | string | void => cases h

theorem slotShape?_storeOp {type : Ty} {k : Kind} (h : type.kinds = [k]) :
    Instr.slotShape? type.representation.storeOp = some ⟨[k], []⟩ := by
  unfold Ty.kinds at h
  cases hrep : type.representation with
  | void =>
    rw [hrep] at h
    cases h
  | reference =>
    rw [hrep] at h
    cases h
    rfl
  | scalar p =>
    obtain ⟨-, -, -, -, -, -, hstore⟩ := unbox_eq (isScalar_of_representation hrep)
    rw [hrep] at h
    cases h
    exact hstore

/-- A reference becomes a value of another type. -/
theorem through_coerce {source type : Ty} {x y : V} (hsource : source.representation = .reference)
    (hx : R.kind x = .ref) (hy : R.convert type x = some y) (hat : P.At n (coerce source type))
    (st : List V) (locals : Nat → Option V) (w : W) :
    type.kinds = [R.kind y] ∧ ∃ trace,
    Through R P n (coerce source type) ⟨n, x :: st, locals, w⟩ trace
      ⟨n + (coerce source type).length, y :: st, locals, w⟩ := by
  unfold Runtime.convert at hy
  unfold coerce at hat ⊢
  rw [hsource] at hat ⊢
  cases hrep : type.representation with
  | void => simp [hrep] at hy
  | reference =>
    simp only [hrep] at hy hat ⊢
    split_ifs at hy with hpasses
    cases hy
    refine ⟨by rw [Ty.kinds, hrep, hx]; rfl, ?_⟩
    split_ifs at hat ⊢ with hsame
    · exact ⟨[], .nil rfl⟩
    · have hclass : type.className ≠ Library.object := fun h => hsame (.inl h)
      exact ⟨_, .single (step_cast hat.head hx (hpasses.resolve_left hclass)) rfl rfl⟩
  | scalar p =>
    simp only [hrep] at hy hat ⊢
    obtain ⟨boxed, method, hboxed, hmethod, hunbox, hshape, -⟩ :=
      unbox_eq (isScalar_of_representation hrep)
    rw [hunbox] at hat ⊢
    rw [hboxed, Option.all_some] at hy
    split_ifs at hy with hpasses
    have hkind := R.kind_unbox p x y hy
    have hkinds : type.kinds = [R.kind y] := by
      rw [Ty.kinds, hrep, hkind]
      rfl
    refine ⟨hkinds, _, .cons (step_cast hat.head hx hpasses) rfl rfl (.single ?_ rfl rfl)⟩
    refine step_call hat.tail.head hshape hx hkind ?_ rfl
    exact (R.unboxed p boxed method x w hboxed hmethod).trans (by rw [hy]; rfl)

end Steps

/-! ### The pieces in a method -/

/-- The answer of the iterator `it` to whether there is an element. -/
def asked (R : Runtime V W) (it : V) (answer : Bool) : Call V :=
  ⟨Code.callInterface Library.iteratorHasNext, it, [R.truth answer]⟩

/-- The iterator `it` gives `x`. -/
def given (it x : V) : Call V := ⟨Code.callInterface Library.iteratorNext, it, [x]⟩

namespace LoopCode

variable {m : LoopCode} {R : Runtime V W} {P : Code} {n : Nat} {it x y : V} {xs : List V}
  {locals : Nat → Option V} {w : W}

/-- Where the pieces of a loop stand. -/
theorem at_pieces (hat : P.At n m.code) :
    P.At n m.source.code ∧ P.At (n + m.openAt) (m.opening ++ [m.keep]) ∧
      P.At (n + m.headAt) m.head ∧
      P.At (n + m.bodyAt) m.body ∧ P[n + m.backAt]? = some (Code.goto m.start) ∧
      P[n + m.backAt + 1]? = some (.mark m.done) := by
  obtain ⟨hat, hback⟩ := Code.at_append.mp hat
  obtain ⟨hat, hbody⟩ := Code.at_append.mp hat
  obtain ⟨hat, hhead⟩ := Code.at_append.mp hat
  obtain ⟨hsource, hopening⟩ := Code.at_append.mp hat
  simp only [List.length_append, List.length_singleton] at hback hbody hhead
  exact ⟨hsource, hopening, hhead, hbody, hback.head, hback.tail.head⟩

/-- Asking the iterator leads on if there is an element, and else to the end. -/
theorem run_ask (st : List V) (hm : m.Placed P n) (hit : locals m.iterator = some it)
    (hrem : R.remaining w it = some xs) :
    ∃ trace w', Run R P ⟨n + m.headAt, st, locals, w⟩ trace
        ⟨if xs.isEmpty then n + m.backAt + 1 else n + m.headAt + 4, st, locals, w'⟩ ∧
      trace.map State.pc = List.range' (n + m.headAt) 4 ∧ calls R P trace =
        [asked R it !xs.isEmpty] ∧
      R.remaining w' it = some xs := by
  obtain ⟨-, -, hhead, -, -, hdone⟩ := at_pieces hm.at_code
  obtain ⟨hmark, hhead⟩ := Code.at_cons.mp hhead
  obtain ⟨hload, hhead⟩ := Code.at_cons.mp hhead
  obtain ⟨hcall, hhead⟩ := Code.at_cons.mp hhead
  have hjump := hhead.head
  have hkind := R.kind_remaining w it xs hrem
  obtain ⟨w', heffect, hrem'⟩ := R.hasNext w it xs hrem
  have hbranch : next? R P (n + m.headAt + 3) (.jump .ifeq m.done) [R.truth !xs.isEmpty] =
      some (if xs.isEmpty then n + m.backAt + 1 else n + m.headAt + 4) := by
    have hfalls : Opcode.ifeq.isTerminal = false := rfl
    simp only [next?, hfalls, R.takes_truth, Bool.not_not, Bool.false_or,
      Machine.target_eq hm.once hdone]
    split_ifs <;> rfl
  have hasks : Instr.jumpTaken? .ifeq = some ([R.truth !xs.isEmpty].map R.kind) := by
    rw [List.map_singleton, R.kind_truth]
    rfl
  refine ⟨_, w', .step (step_mark hmark) (.step (step_load hload hm.iterator_lt hit hkind) (.step
    (step_call hcall rfl hkind (R.kind_truth _) heffect rfl)
    (.single (step_jump [_] hjump hasks hbranch)))), rfl, ?_, hrem'⟩
  have hnone (k : Nat) (i : Instr) (hi : P[k]? = some i) (h : asks i = false)
      (st : List V) (w : W) :
      call? R P ⟨k, st, locals, w⟩ = none := call?_eq_none hi h
  simp only [calls, List.filterMap_cons, List.filterMap_nil, hnone _ _ hmark rfl,
    hnone _ _ hload rfl, hnone _ _ hjump rfl, call?_eq_some hcall rfl heffect, asked]

theorem asks_coerce (type : Ty) : ∀ i ∈ coerce .object type, asks i = false := by
  have hall : (coerce .object type).all (fun i => !asks i) = true := by
    have hobject : Ty.object.representation = .reference := rfl
    unfold coerce
    rw [hobject]
    cases type.representation with
    | scalar p => cases p <;> rfl
    | reference =>
      simp only
      split_ifs <;> rfl
    | void => rfl
  intro i hi
  simpa using List.all_eq_true.mp hall i hi

/-- With an element the body is begun. -/
theorem through_head (st : List V) (hm : m.Placed P n) (hit : locals m.iterator = some it)
    (hrem : R.remaining w it = some (x :: xs)) (hy : R.convert m.element.type x = some y) :
    ∃ trace w', Through R P (n + m.headAt) m.head ⟨n + m.headAt, st, locals, w⟩ trace
        ⟨n + m.bodyAt, st, store R locals m.element.slot y, w'⟩ ∧
      calls R P trace = [asked R it true, given it x] ∧ R.remaining w' it = some xs := by
  obtain ⟨-, -, hhead, -, -, -⟩ := at_pieces hm.at_code
  have hkind := R.kind_remaining w it _ hrem
  obtain ⟨first, w₁, hrun, hpc, hcalls, hrem₁⟩ := run_ask st hm hit hrem
  obtain ⟨w₂, hnext, hrem₂, hx⟩ := R.next w₁ it x xs hrem₁
  have hask : Through R P (n + m.headAt) [.mark m.start, Code.loadSlot m.iterator .reference,
      Code.callInterface Library.iteratorHasNext, .jump .ifeq m.done]
      ⟨n + m.headAt, st, locals, w⟩ first
      ⟨n + m.headAt + 4, st, locals, w₁⟩ := by
    refine ⟨hrun, rfl, fun ρ hρ => ?_, rfl⟩
    have hmem : ρ.pc ∈ List.range' (n + m.headAt) 4 := hpc ▸ List.mem_map_of_mem hρ
    simpa [Code.Within] using hmem
  have hload : P[n + m.headAt + 4]? = some (Code.loadSlot m.iterator .reference) :=
    hhead.tail.tail.tail.tail.head
  have hcall : P[n + m.headAt + 5]? = some (Code.callInterface Library.iteratorNext) :=
    hhead.tail.tail.tail.tail.tail.head
  have hlast : P.At (n + m.headAt + 6) (coerce .object m.element.type ++
      [Code.storeSlot m.element.slot m.element.type.representation]) :=
        hhead.tail.tail.tail.tail.tail.tail
  have htake : Through R P (n + m.headAt + 4)
      [Code.loadSlot m.iterator .reference, Code.callInterface Library.iteratorNext]
      ⟨n + m.headAt + 4, st, locals, w₁⟩ _ ⟨n + m.headAt + 6, x :: st, locals, w₂⟩ :=
    .cons (step_load hload hm.iterator_lt hit hkind) rfl rfl
      (.single (step_call hcall rfl hkind hx hnext rfl) rfl rfl)
  obtain ⟨hkinds, converting, hconvert⟩ := through_coerce rfl hx hy hlast.left st locals w₂
  have hend : n + m.bodyAt = n + m.headAt + 6 + (coerce .object m.element.type).length + 1 := by
    simp only [bodyAt, head, advanceLoop, List.length_append, List.length_cons, List.length_nil]
    omega
  have hstore : Through R P (n + m.headAt + 6 + (coerce .object m.element.type).length)
      [Code.storeSlot m.element.slot m.element.type.representation] ⟨_, y :: st, locals, w₂⟩ _
      ⟨n + m.bodyAt, st, store R locals m.element.slot y, w₂⟩ :=
    .single (hend ▸ step_store hlast.right.head hm.narrow (slotShape?_storeOp hkinds)) rfl hend
  refine ⟨_, w₂, hask.append (htake.append (hconvert.append hstore)), ?_, hrem₂⟩
  have hnone (k : Nat) (i : Instr) (hi : P[k]? = some i) (h : asks i = false)
      (st : List V) (w : W) :
      call? R P ⟨k, st, locals, w⟩ = none := call?_eq_none hi h
  have hconverting := hconvert.calls_eq_nil hlast.left (asks_coerce _)
  rw [calls] at hcalls hconverting
  simp only [calls, List.filterMap_append, hcalls, hconverting, List.filterMap_cons,
    List.filterMap_nil, hnone _ _ hload rfl, hnone _ _ hlast.right.head rfl,
    call?_eq_some hcall rfl hnext]
  rfl

theorem step_back (hm : m.Placed P n) (st : List V) (locals : Nat → Option V) (w : W) :
    Step R P ⟨n + m.backAt, st, locals, w⟩ ⟨n + m.headAt, st, locals, w⟩ := by
  obtain ⟨-, -, hhead, -, hback, -⟩ := at_pieces hm.at_code
  refine step_jump [] hback rfl ?_
  exact Machine.target_eq hm.once hhead.head

theorem asks_opening {type : Ty} {c : Code} (h : iteratorCode type = some c) :
    ∀ i ∈ c, asks i = false := by
  have hall : c.all (fun i => !asks i) = true := by
    unfold iteratorCode at h
    split at h
    · cases h
      rfl
    · cases h
      rfl
    · cases h
      rfl
    · split_ifs at h <;> cases h <;> rfl
    · cases h
  intro i hi
  simpa using List.all_eq_true.mp hall i hi

/-- A source that an iterator is made of is a reference. -/
theorem kinds_of_opening {type : Ty} {c : Code} (h : iteratorCode type = some c) :
    type.kinds = [Kind.ref] := by
  cases type with
  | primitive kind => cases h
  | _ => rfl

section Lowered

variable {cx : BodyContext} {cells : List Cell} {body : Block} {binding : String} {type : Ty}
  {s t : LowerState} {b : Code}

/-- The row of cells in which the body of a loop is lowered. Nothing but its width matters of the
cell that the iterator has there. -/
theorem row_of_lowered {c : Cell} (hlaid : Laid cx cells s)
    (hc : Laid cx (cells ++ [c]) (s.withSlot .reference))
    (hb : lowerBlock cx body (((s.withSlot .reference).withLocal body.scope binding type).skip 2) =
      .ok b t) :
    ∃ row, Cell.at? row s.body.nextSlot = some c ∧ Cell.span row = t.body.nextSlot ∧
      s.body.nextSlot + c.width < t.body.nextSlot ∧ b.Confined (Cell.Accessed row) [] := by
  obtain ⟨more, -, -, hrow, hconfined⟩ :=
    blockLays body hb ((hc.withLocal body.scope binding type).congr rfl rfl)
  have hspan := hrow.span
  refine ⟨_, ?_, hspan, ?_, hconfined⟩
  · rw [← hlaid.span]
    exact Cell.at?_append (Cell.at?_append (Cell.at?_span cells c []))
  · have := type.representation.cell.width_pos
    simp only [Cell.span_append, Cell.span_cons, Cell.span_nil, hlaid.span] at hspan
    omega

/-- The body of a loop leaves the slot of the iterator alone: an access to it would be of two kinds.
-/
theorem spares_of_lowered (hlaid : Laid cx cells s) (ht : t.body.nextSlot ≤ 2 ^ 16)
    (hb : lowerBlock cx body (((s.withSlot .reference).withLocal body.scope binding type).skip 2) =
      .ok b t) :
    s.body.nextSlot + 1 < t.body.nextSlot ∧ ∀ op k, .slot op k ∈ b →
      Spares s.body.nextSlot op k := by
  obtain ⟨row, hiterator, hspan, hlt, hconfined⟩ :=
    row_of_lowered hlaid (hlaid.withSlot .reference) hb
  obtain ⟨row', hiterator', hspan', -, hconfined'⟩ :=
    row_of_lowered hlaid (hlaid.withSlot (.scalar .int)) hb
  refine ⟨hlt, fun op k hk => ?_⟩
  obtain ⟨slot, c, hc, hhas, hslot⟩ := hconfined.slots op k hk
  obtain ⟨slot', c', hc', hhas', hslot'⟩ := hconfined'.slots op k hk
  have hle := Cell.at?_le hc
  have hle' := Cell.at?_le hc'
  have hpos := c.width_pos
  have hpos' := c'.width_pos
  have hk : k.toNat = slot := hslot ▸ UInt16.toNat_ofNat_of_lt' (show _ < 2 ^ 16 by omega)
  have hk' : k.toNat = slot' := hslot' ▸ UInt16.toNat_ofNat_of_lt' (show _ < 2 ^ 16 by omega)
  obtain rfl : slot = slot' := hk.symm.trans hk'
  refine ⟨c, hhas, ?_⟩
  rcases Cell.at?_apart hc hiterator with rfl | hbelow | habove
  · rw [hiterator] at hc
    rw [hiterator'] at hc'
    cases hc
    cases hc'
    cases hhas.inj hhas'
  · omega
  · have : Representation.reference.cell.width = 1 := rfl
    omega

/-- The pieces of a loop that was lowered, wherever its code stands. -/
theorem Of.placed {m : LoopCode} {iterable : Expr} {P : Code} {n : Nat}
    (h : m.Of cx binding iterable body s t) (hlaid : Laid cx cells s)
    (ht : t.body.nextSlot ≤ 2 ^ 16) (hat : P.At n m.code) (hP : P.marks.Nodup) : m.Placed P n := by
  obtain ⟨⟨s₁, hv, hiterator, hslot, -, -, hb⟩, -, -⟩ := h
  obtain ⟨hlt, hspares⟩ := spares_of_lowered (hlaid.expr hv) ht hb
  have hnext : m.element.slot = s₁.body.nextSlot + 1 := hslot
  rw [← hiterator] at hnext hspares hlt
  exact ⟨hat, hP, lowerBlock_inward hb, hspares, hnext, by omega⟩

end Lowered

end LoopCode

end ClassGen.Iteration
