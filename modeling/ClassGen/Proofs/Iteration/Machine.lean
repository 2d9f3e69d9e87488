import ClassGen.Proofs.ControlFlow.Inward

/-! A machine for code that drives iterators. Values are known by their kinds, and what an
instruction does with its operands and with the world outside the method is left open. Only local
slots and jumps are the machine's own; of casts, of unboxing and of the two calls that an iterator
answers the runtime tells more. -/

namespace ClassGen.Iteration

/-- What the machine is told about values and the world. -/
structure Runtime (V W : Type) where
  kind : V → Kind
  /-- A cast to this class succeeds. -/
  passes : V → String → Bool
  /-- The scalar in a box. -/
  unbox : Primitive → V → Option V
  truth : Bool → V
  /-- A branch on these operands is taken. -/
  takes : Opcode → List V → Bool
  /-- The elements that an iterator still has to give; none for what is no iterator, or one without
  an end. -/
  remaining : W → V → Option (List V)
  /-- What an instruction makes of its operands, the top first, and of the world; none if it throws.
  -/
  effect : Instr → List V → W → Option (List V × W)
  kind_truth : ∀ b, kind (truth b) = .int
  takes_truth : ∀ b, takes .ifeq [truth b] = !b
  kind_remaining : ∀ w it xs, remaining w it = some xs → kind it = .ref
  kind_unbox : ∀ p v y, unbox p v = some y → kind y = p.kind
  checkcast : ∀ c v w, effect (Code.checkcast c) [v] w = if passes v c then some ([v], w) else none
  unboxed : ∀ p boxed method v w, p.boxedClass? = some boxed → p.unboxMethod? = some method →
    effect (Code.callVirtual ⟨boxed, method, "()" ++ p.descriptor⟩)
      [v] w = (unbox p v).map fun y => ([y], w)
  /-- Asking does not advance. -/
  hasNext : ∀ w it xs, remaining w it = some xs →
    ∃ w', effect (Code.callInterface Library.iteratorHasNext)
      [it] w = some ([truth !xs.isEmpty], w') ∧
      remaining w' it = some xs
  next : ∀ w it x xs, remaining w it = some (x :: xs) →
    ∃ w', effect (Code.callInterface Library.iteratorNext) [it] w = some ([x], w') ∧
      remaining w' it = some xs ∧
      kind x = .ref

structure State (V W : Type) where
  pc : Nat
  stack : List V
  locals : Nat → Option V
  world : W

variable {V W : Type}

/-- A double also takes the next slot, and what it overlaps is lost. -/
def store (R : Runtime V W) (locals : Nat → Option V) (slot : Nat) (v : V) :
    Nat → Option V := fun k =>
  if k = slot then some v
  else if R.kind v = .double ∧ k = slot + 1 then none
  else if k + 1 = slot ∧ (locals k).any (R.kind · = .double) then none
  else locals k

/-- What an instruction takes and leaves, on a stack of these kinds; none if it finds anything else.
-/
def shapeOn (i : Instr) (κ : List Kind) : Option Shape :=
  match i.shape? with
  | some shape => if shape.taken <+: κ then some shape else none
  | none =>
    match i, κ with
    | .op .pop, k :: _ => if k.slots = 1 then some ⟨[k], []⟩ else none
    | .op .pop2, .double :: _ => some ⟨[.double], []⟩
    | .op .dup, k :: _ => if k.slots = 1 then some ⟨[k], [k, k]⟩ else none
    | _, _ => none

/-- Results, locals and world after an instruction with these operands. -/
def act (R : Runtime V W) (σ : State V W) (i : Instr) (operands : List V) :
    Option (List V × (Nat → Option V) × W) :=
  match i with
  | .slot _ n =>
    match operands with
    | [] => (σ.locals n.toNat).map fun v => ([v], σ.locals, σ.world)
    | v :: _ => some ([], store R σ.locals n.toNat v, σ.world)
  | .mark _ | .jump _ _ => some ([], σ.locals, σ.world)
  | i => (R.effect i operands σ.world).map fun r => (r.1, σ.locals, r.2)

/-- Where control goes. -/
def next? (R : Runtime V W) (P : Code) (n : Nat) (i : Instr) (operands : List V) : Option Nat :=
  match i with
  | .jump op l => if op.isTerminal || R.takes op operands then Machine.target P l else some (n + 1)
  | i => if i.isTerminal then none else some (n + 1)

def exec (R : Runtime V W) (P : Code) (σ : State V W) (i : Instr) : Option (State V W) :=
  (shapeOn i (σ.stack.map R.kind)).bind fun shape =>
    (act R σ i (σ.stack.take shape.taken.length)).bind fun (results, locals, world) =>
      if results.map R.kind = shape.left then
        (next? R P σ.pc i (σ.stack.take shape.taken.length)).map fun pc =>
          ⟨pc, results ++ σ.stack.drop shape.taken.length, locals, world⟩
      else none

/-- What one instruction does. -/
theorem exec_eq_some {R : Runtime V W} {P : Code} {σ τ : State V W} {i : Instr}
    (h : exec R P σ i = some τ) :
    ∃ shape results, shapeOn i (σ.stack.map R.kind) = some shape ∧
      act R σ i (σ.stack.take shape.taken.length) = some (results, τ.locals, τ.world) ∧
      results.map R.kind = shape.left ∧ next? R P σ.pc i (σ.stack.take shape.taken.length) =
        some τ.pc ∧
      τ.stack = results ++ σ.stack.drop shape.taken.length := by
  obtain ⟨shape, hshape, h⟩ := Option.bind_eq_some_iff.mp h
  obtain ⟨⟨results, locals, world⟩, hact, h⟩ := Option.bind_eq_some_iff.mp h
  dsimp only at h
  split_ifs at h with hkinds
  obtain ⟨pc, hpc, rfl⟩ := Option.map_eq_some_iff.mp h
  exact ⟨shape, results, hshape, hact, hkinds, hpc, rfl⟩

/-- Control goes where the code says. -/
theorem exec_goes {R : Runtime V W} {P : Code} {i : Instr} {σ τ : State V W}
    (hi : P[σ.pc]? = some i) (h : exec R P σ i = some τ) : P.Goes σ.pc τ.pc := by
  obtain ⟨shape, -, -, -, -, hnext, -⟩ := exec_eq_some h
  have hfalls (hn : (if i.isTerminal then none else some (σ.pc + 1)) = some τ.pc) :
      P.Goes σ.pc τ.pc := by
    split_ifs at hn with hterminal
    rw [← Option.some.inj hn]
    exact .next hi (Bool.eq_false_iff.mpr hterminal)
  cases i with
  | jump op l =>
    simp only [next?] at hnext
    split_ifs at hnext with htaken
    · exact .jump hi (Machine.getElem?_target hnext)
    · rw [Bool.or_eq_true, not_or] at htaken
      rw [← Option.some.inj hnext]
      exact .next hi (Bool.eq_false_iff.mpr htaken.1)
  | _ => exact hfalls hnext

/-- An instruction that ends the method, throws or cannot be executed leads to no state. -/
abbrev semantics (R : Runtime V W) : Machine.Semantics (State V W) where
  pc := State.pc
  acts P i σ τ := exec R P σ i = some τ
  goes := exec_goes

abbrev Step (R : Runtime V W) (P : Code) : State V W → State V W → Prop := (semantics R).Step P

abbrev Run (R : Runtime V W) (P : Code) : State V W → List (State V W) → State V W → Prop :=
  (semantics R).Run P

abbrev Through (R : Runtime V W) (P : Code) :
    Nat → Code → State V W → List (State V W) → State V W → Prop := (semantics R).Through P

abbrev Straight (R : Runtime V W) (P : Code) :
    Nat → Code → State V W → List (State V W) → State V W → Prop := (semantics R).Straight P

theorem step_unique {R : Runtime V W} {P : Code} {σ τ τ' : State V W} (h : Step R P σ τ)
    (h' : Step R P σ τ') : τ = τ' := by
  obtain ⟨i, hi, hexec⟩ := h
  obtain ⟨i', hi', hexec'⟩ := h'
  obtain rfl := Option.some.inj (hi.symm.trans hi')
  exact Option.some.inj (hexec.symm.trans hexec')

/-- Nothing follows an instruction that ends the method. -/
theorem not_step_of_return {R : Runtime V W} {P : Code} {σ : State V W}
    (h : P[σ.pc]? = some (.op .vreturn)) (τ : State V W) : ¬Step R P σ τ := by
  rintro ⟨i, hi, hexec⟩
  obtain rfl := Option.some.inj (hi.symm.trans h)
  obtain ⟨shape, -, -, -, -, hnext, -⟩ := exec_eq_some hexec
  cases hnext

/-- The state after so many instructions. -/
def after (R : Runtime V W) (P : Code) : Nat → State V W → Option (State V W)
  | 0, σ => some σ
  | k + 1, σ => P[σ.pc]?.bind fun i => (exec R P σ i).bind (after R P k)

theorem run_of_after {R : Runtime V W} {P : Code} {σ τ : State V W} {k : Nat}
    (h : after R P k σ = some τ) : ∃ trace, Run R P σ trace τ := by
  induction k generalizing σ with
  | zero =>
    obtain rfl := Option.some.inj h
    exact ⟨[], .refl σ⟩
  | succ k ih =>
    obtain ⟨i, hi, h⟩ := Option.bind_eq_some_iff.mp h
    obtain ⟨ρ, hexec, h⟩ := Option.bind_eq_some_iff.mp h
    obtain ⟨trace, hrun⟩ := ih h
    exact ⟨σ :: trace, .step ⟨i, hi, hexec⟩ hrun⟩

/-- The two calls that an iterator answers. -/
def asks (i : Instr) : Bool :=
  i = Code.callInterface Library.iteratorHasNext ∨ i = Code.callInterface Library.iteratorNext

structure Call (V : Type) where
  instr : Instr
  receiver : V
  results : List V

/-- The call to an iterator that is made in this state. -/
def call? (R : Runtime V W) (P : Code) (σ : State V W) : Option (Call V) :=
  match P[σ.pc]?, σ.stack with
  | some i, it :: _ => if asks i then (R.effect i [it] σ.world).map fun r => ⟨i, it, r.1⟩ else none
  | _, _ => none

def calls (R : Runtime V W) (P : Code) (trace : List (State V W)) : List (Call V) :=
  trace.filterMap (call? R P)

variable {R : Runtime V W} {P c : Code} {σ ρ τ : State V W} {trace later : List (State V W)}

/-! ### Steps -/

/-- A step with these operands on top of the stack. -/
theorem step_of_shape {i : Instr} {n m : Nat} (operands results : List V) {rest : List V}
    {locals locals' : Nat → Option V} {w w' : W} (hi : P[n]? = some i)
    (hshape : i.shape? = some ⟨operands.map R.kind, results.map R.kind⟩)
    (hact : act R ⟨n, operands ++ rest, locals, w⟩ i operands = some (results, locals', w'))
    (hnext : next? R P n i operands = some m) :
    Step R P ⟨n, operands ++ rest, locals, w⟩ ⟨m, results ++ rest, locals', w'⟩ := by
  have hon : shapeOn i ((operands ++ rest).map R.kind) =
      some ⟨operands.map R.kind, results.map R.kind⟩ := by
    simp [shapeOn, hshape]
  rw [List.map_append] at hon
  exact ⟨i, hi, by simp [exec, hon, hact, hnext]⟩

theorem shapeOn_taken {i : Instr} {κ : List Kind} {shape : Shape} (h : shapeOn i κ = some shape) :
    shape.taken <+: κ := by
  unfold shapeOn at h
  split at h
  · split_ifs at h with htaken
    cases h
    exact htaken
  · split at h
    · split_ifs at h
      cases h
      exact List.prefix_cons_iff.mpr (.inr ⟨[], rfl, List.nil_prefix⟩)
    · cases h
      exact List.prefix_cons_iff.mpr (.inr ⟨[], rfl, List.nil_prefix⟩)
    · split_ifs at h
      cases h
      exact List.prefix_cons_iff.mpr (.inr ⟨[], rfl, List.nil_prefix⟩)
    · cases h

/-- The operands are of the kinds that are taken. -/
theorem map_take_of_shapeOn {i : Instr} {stack : List V} {shape : Shape}
    (h : shapeOn i (stack.map R.kind) = some shape) :
    (stack.take shape.taken.length).map R.kind = shape.taken := by
  rw [List.map_take]
  exact (List.prefix_iff_eq_take.mp (shapeOn_taken h)).symm

theorem shape?_of_shapeOn_slot {op : Opcode} {n : UInt16} {κ : List Kind} {shape : Shape}
    (h : shapeOn (.slot op n) κ = some shape) : Instr.slotShape? op = some shape := by
  unfold shapeOn at h
  split at h
  · next s hs =>
    split_ifs at h
    rwa [← Option.some.inj h]
  · cases h

/-- An instruction acts on the top of a stack as the verifier says of the top alone, unless it
returns. -/
theorem retype?_of_shapeOn {i : Instr} {ret κ rest τ : List Kind} {shape : Shape}
    (hlive : ∀ code, i = .op code → code.isTerminal = false)
    (hshape : shapeOn i (κ ++ rest) = some shape) (h : i.retype? ret κ = some τ) :
    shape.taken.length ≤ κ.length ∧ τ = shape.left ++ κ.drop shape.taken.length := by
  unfold Instr.retype? at h
  unfold shapeOn at hshape
  cases hs : i.shape? with
  | some s =>
    simp only [hs] at h hshape
    split_ifs at h hshape with htaken
    obtain rfl := Option.some.inj h
    obtain rfl := Option.some.inj hshape
    exact ⟨htaken.length_le, rfl⟩
  | none =>
    simp only [hs] at h hshape
    split at h
    · split_ifs at h with hk
      simp only [List.cons_append, hk, if_true] at hshape
      cases h
      cases hshape
      exact ⟨Nat.succ_le_succ (Nat.zero_le _), rfl⟩
    · cases h
      cases hshape
      exact ⟨Nat.succ_le_succ (Nat.zero_le _), rfl⟩
    · split_ifs at h with hk
      simp only [List.cons_append, hk, if_true] at hshape
      cases h
      cases hshape
      exact ⟨Nat.succ_le_succ (Nat.zero_le _), rfl⟩
    · -- a return
      next code _ _ _ =>
      split_ifs at h with hret
      have hterminal : code.isTerminal = true := by
        have hreturned := hret.1
        unfold Instr.returned? at hreturned
        split at hreturned <;> first | rfl | cases hreturned
      rw [hlive code rfl] at hterminal
      cases hterminal
    · cases h

theorem Through.within {n : Nat} (h : Through R P n c σ trace τ) (hρ : ρ ∈ trace) :
    n ≤ ρ.pc ∧ ρ.pc < n + c.length := h.inside ρ hρ

theorem Through.pc_end {n : Nat} (h : Through R P n c σ trace τ) : τ.pc = n + c.length := h.ends

/-! ### Calls -/

theorem call?_eq_none {i : Instr} (hi : P[σ.pc]? = some i) (h : asks i = false) :
    call? R P σ = none := by
  unfold call?
  rw [hi]
  split
  · next heq _ =>
    cases heq
    rw [h, if_neg Bool.false_ne_true]
  · rfl

theorem call?_eq_some {i : Instr} {it : V} {st results : List V} {locals : Nat → Option V}
    {w w' : W} {n : Nat} (hi : P[n]? = some i) (h : asks i = true)
    (heffect : R.effect i [it] w = some (results, w')) :
    call? R P ⟨n, it :: st, locals, w⟩ = some ⟨i, it, results⟩ := by
  simp [call?, hi, h, heffect]

/-- No iterator is called in a fragment without such instructions. -/
theorem Through.calls_eq_nil {n : Nat} (h : Through R P n c σ trace τ) (hat : P.At n c)
    (hc : ∀ i ∈ c, asks i = false) : calls R P trace = [] := by
  refine List.filterMap_eq_nil_iff.mpr fun ρ hρ => ?_
  have hin := h.inside ρ hρ
  obtain ⟨k, hk⟩ := Nat.exists_eq_add_of_le hin.1
  have hlt : k < c.length := by have := hin.2; omega
  have hi := hat.getElem? hlt
  rw [← hk] at hi
  exact call?_eq_none hi (hc _ (List.getElem_mem hlt))

/-! ### The operand stack -/

/-- On top of `rest` there is a stack that the verifier knows. -/
def Framed (R : Runtime V W) (K : Nat → Option (List Kind)) (rest : List V)
    (σ : State V W) : Prop :=
  ∃ top, σ.stack = top ++ rest ∧ K σ.pc = some (top.map R.kind)

namespace Framed

variable {ret : List Kind} {K : Nat → Option (List Kind)} {rest : List V}

theorem step (hK : Typing ret P K) (hσ : Framed R K rest σ) (h : Step R P σ τ) :
    Framed R K rest τ := by
  obtain ⟨top, htop, hkinds⟩ := hσ
  obtain ⟨i, hi, hexec⟩ := h
  obtain ⟨shape, results, hshape, -, hresults, hnext, hstack⟩ := exec_eq_some hexec
  obtain ⟨κ, hretype, hfall, hjump⟩ := hK.step σ.pc i _ hi hkinds
  have hlive : ∀ code, i = .op code → code.isTerminal = false := by
    rintro code rfl
    simp only [next?] at hnext
    split_ifs at hnext with hterminal
    exact Bool.eq_false_iff.mpr hterminal
  rw [htop, List.map_append] at hshape
  obtain ⟨hlength, rfl⟩ := retype?_of_shapeOn hlive hshape hretype
  rw [List.length_map] at hlength
  refine ⟨results ++ top.drop shape.taken.length, ?_, ?_⟩
  · rw [hstack, htop, List.drop_append_of_le_length hlength, List.append_assoc]
  · rw [List.map_append, hresults, List.map_drop]
    obtain ⟨pc, stack, locals, world⟩ := τ
    cases exec_goes hi hexec with
    | next hi' hfalls =>
      rw [hi] at hi'
      exact hfall (Option.some.inj hi' ▸ hfalls)
    | jump hi' hm =>
      rw [hi] at hi'
      exact hjump _ _ (Option.some.inj hi') _ hm

theorem run (hK : Typing ret P K) (hσ : Framed R K rest σ) (h : Run R P σ trace τ) :
    Framed R K rest τ :=
  h.keeps (fun _ _ _ hstep hρ => hρ.step hK hstep) hσ

/-- The stack under what the verifier knows. -/
theorem kinds (hσ : Framed R K rest σ) (top : List V) (h : σ.stack = top ++ rest) :
    K σ.pc = some (top.map R.kind) := by
  obtain ⟨top', htop, hkinds⟩ := hσ
  rw [hkinds, List.append_cancel_right (htop.symm.trans h)]

end Framed

/-! ### Slots -/

/-- An access that does not touch the slot. -/
def Spares (slot : Nat) (op : Opcode) (n : UInt16) : Prop :=
  ∃ k : Cell, k.Has op ∧ (n.toNat + k.width ≤ slot ∨ slot < n.toNat)

theorem store_self (locals : Nat → Option V) (slot : Nat) (v : V) :
    store R locals slot v slot = some v := if_pos rfl

/-- A reference stays where it is if a value is stored elsewhere. -/
theorem store_of_ne {locals : Nat → Option V} {slot k : Nat} {v it : V} (hne : k ≠ slot)
    (hwide : R.kind v = .double → k ≠ slot + 1) (hit : locals k = some it)
    (hkind : R.kind it = .ref) : store R locals slot v k = some it := by
  have hnarrow : ¬(R.kind v = .double ∧ k = slot + 1) := fun h => hwide h.1 h.2
  have hsafe : ¬(k + 1 = slot ∧ (locals k).any (R.kind · = .double) = true) := by
    rw [hit]
    simp [hkind]
  rw [store, if_neg hne, if_neg hnarrow, if_neg hsafe, hit]

theorem slotShape?_double {op : Opcode} {shape : Shape} (h : Instr.slotShape? op = some shape)
    (hd : shape.taken.head? = some .double) : op = .dstore := by
  unfold Instr.slotShape? at h
  split at h <;> cases h <;> first | rfl | cases hd

theorem slotShape?_falls {op : Opcode} {shape : Shape} (h : Instr.slotShape? op = some shape) :
    op.isTerminal = false := by
  unfold Instr.slotShape? at h
  split at h <;> first | rfl | cases h

/-- Only stores change slots. -/
theorem act_locals {i : Instr} {operands results : List V} {locals : Nat → Option V} {w : W}
    (h : act R σ i operands = some (results, locals, w)) :
    locals = σ.locals ∨ ∃ op n v rest, i = .slot op n ∧ operands = v :: rest ∧
      locals = store R σ.locals n.toNat v := by
  unfold act at h
  split at h
  · split at h
    · obtain ⟨v, -, hv⟩ := Option.map_eq_some_iff.mp h
      cases hv
      exact .inl rfl
    · cases h
      exact .inr ⟨_, _, _, _, rfl, rfl, rfl⟩
  · cases h
    exact .inl rfl
  · cases h
    exact .inl rfl
  · obtain ⟨r, -, hr⟩ := Option.map_eq_some_iff.mp h
    cases hr
    exact .inl rfl

theorem step_keeps {slot : Nat} {it : V} (h : Step R P σ τ) (hit : σ.locals slot = some it)
    (hkind : R.kind it = .ref) (hspares : ∀ op n, P[σ.pc]? = some (.slot op n) → Spares slot op n) :
    τ.locals slot = some it := by
  obtain ⟨i, hi, hexec⟩ := h
  obtain ⟨shape, results, hshape, hact, -⟩ := exec_eq_some hexec
  rcases act_locals hact with hsame | ⟨op, n, v, rest, rfl, hoperands, hstore⟩
  · rw [hsame, hit]
  · obtain ⟨k, hhas, hapart⟩ := hspares op n hi
    have hpos := k.width_pos
    rw [hstore]
    refine store_of_ne (by omega) (fun hdouble hover => ?_) hit hkind
    -- a double is stored by one instruction, whose cell has room for it
    have htaken : shape.taken.head? = some .double := by
      rw [← map_take_of_shapeOn hshape, hoperands, List.map_cons, List.head?_cons, hdouble]
    obtain rfl := slotShape?_double (shape?_of_shapeOn_slot hshape) htaken
    obtain rfl := hhas.inj (.inr rfl : Cell.double.Has .dstore)
    have : Cell.double.width = 2 := rfl
    omega

theorem Through.keeps_slot {n slot : Nat} {it : V} (h : Through R P n c σ trace τ) (hat : P.At n c)
    (hit : σ.locals slot = some it) (hkind : R.kind it = .ref)
    (hspares : ∀ op k, .slot op k ∈ c → Spares slot op k) : τ.locals slot = some it :=
  h.keeps (fun _ _ hin hstep hρ => step_keeps hstep hρ hkind fun op k hk =>
    hspares op k (hat.mem_of_within hin hk)) hit

end ClassGen.Iteration
