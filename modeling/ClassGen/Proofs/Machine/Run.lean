import ClassGen.Proofs.Fragment
import ClassGen.Proofs.Machine.Step

/-! Running code that stands somewhere in a program: one law per form of instruction, for a program
in which every label is placed once. -/

namespace ClassGen.Machine

variable {A : Arith} {P : Code}

theorem Runs.trans {s t u : State} (h : Runs A P s t) (k : Runs A P t u) : Runs A P s u := by
  obtain ⟨_, h⟩ := h
  obtain ⟨_, k⟩ := k
  exact ⟨_, Semantics.Run.trans h k⟩

theorem runs_refl (s : State) : Runs A P s s := ⟨[], .refl s⟩

theorem runs_of_step {s t : State} (h : step A P s = some (.go t)) : Runs A P s t :=
  ⟨[s], .single (step_iff.mpr h)⟩

theorem Runs.ends {s t : State} {e : Ending} (h : Runs A P s t) (k : Ends A P t e) :
    Ends A P s e := by
  obtain ⟨u, hu, he⟩ := k
  exact ⟨u, h.trans hu, he⟩

theorem ends_of_step {s : State} {e : Ending} (h : step A P s = some (.stop e)) : Ends A P s e :=
  ⟨s, runs_refl s, h⟩

/-- A method ends where its run first cannot go on. -/
theorem Runs.ends_step {s t : State} {e : Ending} (h : Runs A P s t)
    (hs : ∀ u, step A P t ≠ some (.go u)) (k : Ends A P s e) : step A P t = some (.stop e) := by
  obtain ⟨trace, h⟩ := h
  obtain ⟨u, ⟨trace', k⟩, he⟩ := k
  have hu : ∀ v, ¬(semantics A).Step P u v := fun v hv => by
    rw [step_iff, he] at hv
    cases hv
  rw [h.stuck_unique (fun _ _ _ => step_unique) (fun v hv => hs v (step_iff.mp hv)) k hu]
  exact he

/-- A run that came to a standstill does not end the method. -/
theorem Runs.not_ends {s t : State} {e : Ending} (h : Runs A P s t) (hs : step A P t = none) :
    ¬Ends A P s e := fun k => by
  have := h.ends_step (by simp [hs]) k
  simp [hs] at this

/-- A method ends in one way. -/
theorem Ends.unique {s : State} {e e' : Ending} (h : Ends A P s e) (h' : Ends A P s e') :
    e' = e := by
  obtain ⟨t, hr, ht⟩ := h
  have := hr.ends_step (by simp [ht]) h'
  rw [ht] at this
  cases this
  rfl

namespace State

/-- Elsewhere in the program, with another stack and more slots read. -/
def moved (s : State) (pc : Nat) (stack : List Value) (reads : List Nat) : State :=
  { s with pc, stack, reads }

@[simp] theorem moved_pc (s : State) (n : Nat) (st : List Value) (r : List Nat) :
    (s.moved n st r).pc = n := rfl

@[simp] theorem moved_stack (s : State) (n : Nat) (st : List Value) (r : List Nat) :
    (s.moved n st r).stack = st := rfl

@[simp] theorem moved_reads (s : State) (n : Nat) (st : List Value) (r : List Nat) :
    (s.moved n st r).reads = r := rfl

@[simp] theorem moved_locals (s : State) (n : Nat) (st : List Value) (r : List Nat) :
    (s.moved n st r).locals = s.locals := rfl

@[simp] theorem moved_heap (s : State) (n : Nat) (st : List Value) (r : List Nat) :
    (s.moved n st r).heap = s.heap := rfl

@[simp] theorem moved_moved (s : State) (n m : Nat) (st st' : List Value) (r r' : List Nat) :
    (s.moved n st r).moved m st' r' = s.moved m st' r' := rfl

end State

variable {s : State}

theorem runs_op {code : Opcode} {st : List Value} (h : P[s.pc]? = some (.op code))
    (he : operate A s.heap code s.stack = some (.stack st)) :
    Runs A P s (s.moved (s.pc + 1) st s.reads) :=
  runs_of_step (by simp [step, h, exec, he, State.next, State.moved])

theorem ends_op {code : Opcode} {e : Ending} (h : P[s.pc]? = some (.op code))
    (he : operate A s.heap code s.stack = some (.stop e)) : Ends A P s e :=
  ends_of_step (by simp [step, h, exec, he])

theorem runs_push {c : Constant} (h : P[s.pc]? = some (.push c)) :
    Runs A P s (s.moved (s.pc + 1) (constantValue c :: s.stack) s.reads) :=
  runs_of_step (by simp [step, h, exec, State.next, State.moved])

theorem runs_mark {l : Label} (h : P[s.pc]? = some (.mark l)) :
    Runs A P s (s.moved (s.pc + 1) s.stack s.reads) :=
  runs_of_step (by simp [step, h, exec, State.next, State.moved])

theorem runs_load {code : Opcode} {index : UInt16} {accepts : Value → Bool} {v : Value}
    (h : P[s.pc]? = some (.slot code index)) (hc : loadKind? code = some accepts)
    (hv : s.locals index.toNat = some v) (ha : accepts v) :
    Runs A P s (s.moved (s.pc + 1) (v :: s.stack) (index.toNat :: s.reads)) :=
  runs_of_step (by simp [step, h, exec, State.access, hc, State.load, hv, ha, State.next,
    State.moved])

theorem runs_store {code : Opcode} {index : UInt16} {accepts : Value → Bool} {v : Value}
    {st : List Value} (h : P[s.pc]? = some (.slot code index)) (hl : loadKind? code = none)
    (hc : storeKind? code = some accepts) (hs : s.stack = v :: st) (ha : accepts v) :
    Runs A P s { s with pc := s.pc + 1, stack := st, locals := store s.locals index.toNat v } :=
  runs_of_step (by simp [step, h, exec, State.access, hl, hc, State.save, hs, ha, State.next])

theorem runs_fall {code : Opcode} {l : Label} {st : List Value} (h : P[s.pc]? = some (.jump code l))
    (hb : branches code s.stack = some (false, st)) :
    Runs A P s (s.moved (s.pc + 1) st s.reads) :=
  runs_of_step (by simp [step, h, exec, hb, State.next, State.moved])

theorem runs_jump (hP : P.marks.Nodup) {code : Opcode} {l : Label} {st : List Value} {n : Nat}
    (h : P[s.pc]? = some (.jump code l)) (hb : branches code s.stack = some (true, st))
    (hn : P[n]? = some (.mark l)) : Runs A P s (s.moved n st s.reads) :=
  runs_of_step (by simp [step, h, exec, hb, target_eq hP hn, State.moved])

theorem runs_new {className : String} (h : P[s.pc]? = some (.type .new className)) :
    Runs A P s (s.create className) :=
  runs_of_step (by simp [step, h, exec])

theorem runs_construct {member : Member} {d : MethodDescriptor} {t : State}
    (h : P[s.pc]? = some (.invoke .invokespecial member))
    (hname : member.name = Library.constructor)
    (hd : MethodDescriptor.parse member.descriptor = .ok d)
    (ht : s.construct d.params.length = some t) : Runs A P s t :=
  runs_of_step (by simp [step, h, exec, hd, hname, ht])

end ClassGen.Machine
