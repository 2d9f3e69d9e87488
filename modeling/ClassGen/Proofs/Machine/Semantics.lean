import ClassGen.Proofs.ControlFlow.Path

/-! Runs of symbolic code. What the instructions of a machine make of its states is left open, but
that control goes where the code says. -/

namespace ClassGen.Machine

/-- Position of the mark of `label`. -/
def target (P : Code) (label : Label) : Option Nat := P.findIdx? (· == .mark label)

theorem target_eq {P : Code} (hP : P.marks.Nodup) {n : Nat} {l : Label}
    (h : P[n]? = some (.mark l)) :
    target P l = some n := Code.findIdx?_mark hP h

theorem getElem?_target {P : Code} {n : Nat} {l : Label} (h : target P l = some n) :
    P[n]? = some (.mark l) := by
  obtain ⟨hn, heq, -⟩ := List.findIdx?_eq_some_iff_getElem.mp h
  rw [List.getElem?_eq_getElem hn, eq_of_beq heq]

/-- The states of a machine, and what instructions make of them. -/
structure Semantics (S : Type) where
  /-- Where a state stands in the code. -/
  pc : S → Nat
  /-- In this method, the instruction can take the first state to the second. -/
  acts : Code → Instr → S → S → Prop
  goes : ∀ {P i σ τ}, P[pc σ]? = some i → acts P i σ τ → P.Goes (pc σ) (pc τ)

namespace Semantics

variable {S : Type}

section Definitions

variable (M : Semantics S) (P : Code)

/-- One instruction of the method. -/
def Step (σ τ : S) : Prop := ∃ i, P[M.pc σ]? = some i ∧ M.acts P i σ τ

/-- The machine comes from one state to another, through these. -/
inductive Run : S → List S → S → Prop
  | refl (σ : S) : Run σ [] σ
  | step {σ ρ τ : S} {trace : List S} (h : M.Step P σ ρ) (hrest : Run ρ trace τ) :
    Run σ (σ :: trace) τ

/-- A run through the fragment `c`, which stands at `n`, from where it begins to its end. -/
structure Through (n : Nat) (c : Code) (σ : S) (trace : List S) (τ : S) : Prop where
  run : M.Run P σ trace τ
  start : M.pc σ = n
  inside : ∀ ρ ∈ trace, Code.Within n c (M.pc ρ)
  ends : M.pc τ = n + c.length

/-- A run that executes each instruction of the fragment once, in their order. -/
structure Straight (n : Nat) (c : Code) (σ : S) (trace : List S) (τ : S) : Prop where
  through : M.Through P n c σ trace τ
  positions : trace.map M.pc = List.range' n c.length

end Definitions

variable {M : Semantics S} {P : Code} {σ ρ τ : S} {trace later : List S}

theorem Step.goes (h : M.Step P σ τ) : P.Goes (M.pc σ) (M.pc τ) := by
  obtain ⟨i, hi, hacts⟩ := h
  exact M.goes hi hacts

namespace Run

theorem trans (h : M.Run P σ trace ρ) (k : M.Run P ρ later τ) : M.Run P σ (trace ++ later) τ := by
  induction h with
  | refl _ => exact k
  | step hstep _ ih => exact .step hstep (ih k)

theorem single (h : M.Step P σ τ) : M.Run P σ [σ] τ := .step h (.refl τ)

/-- What each step keeps, a run keeps. -/
theorem keeps {I : S → Prop} (h : M.Run P σ trace τ)
    (hstep : ∀ ρ ∈ trace, ∀ κ, M.Step P ρ κ → I ρ → I κ) (hσ : I σ) : I τ := by
  induction h with
  | refl _ => exact hσ
  | step hfirst _ ih =>
    rw [List.forall_mem_cons] at hstep
    exact ih hstep.2 (hstep.1 _ hfirst hσ)

/-- Every state of a run but the last is left by a step. -/
theorem exists_step (h : M.Run P σ trace τ) (hρ : ρ ∈ trace) : ∃ κ, M.Step P ρ κ := by
  induction h with
  | refl _ => cases hρ
  | step hfirst _ ih =>
    rcases List.mem_cons.mp hρ with rfl | hρ
    · exact ⟨_, hfirst⟩
    · exact ih hρ

theorem mem (h : M.Run P σ trace τ) : σ ∈ trace ++ [τ] := by
  cases h with
  | refl => exact List.mem_singleton_self _
  | step => exact List.mem_cons_self

/-- A run through states that can be left in one way is the only one: any other from its beginning
is a part of it, or goes on from its end. -/
theorem compare {trace' : List S} {τ' : S} (h : M.Run P σ trace τ)
    (hsingle : ∀ ρ ∈ trace, ∀ κ κ', M.Step P ρ κ → M.Step P ρ κ' → κ = κ')
    (h' : M.Run P σ trace' τ') :
    (∃ rest, trace = trace' ++ τ' :: rest) ∨ ∃ later,
    trace' = trace ++ later ∧ M.Run P τ later τ' := by
  induction h generalizing trace' with
  | refl σ => exact .inr ⟨trace', rfl, h'⟩
  | @step σ ρ τ trace hstep _ ih =>
    rw [List.forall_mem_cons] at hsingle
    cases h' with
    | refl => exact .inl ⟨trace, rfl⟩
    | step hstep' hrest' =>
      obtain rfl := hsingle.1 _ _ hstep hstep'
      rcases ih hsingle.2 hrest' with ⟨rest, rfl⟩ | ⟨later, rfl, hlater⟩
      · exact .inl ⟨rest, rfl⟩
      · exact .inr ⟨later, rfl, hlater⟩

/-- Where each state can be left in one way, runs from one state come to a standstill in one state.
-/
theorem stuck_unique {trace' : List S} {τ' : S} (h : M.Run P σ trace τ)
    (hsingle : ∀ ρ κ κ', M.Step P ρ κ → M.Step P ρ κ' → κ = κ') (hτ : ∀ κ, ¬M.Step P τ κ)
    (h' : M.Run P σ trace' τ') (hτ' : ∀ κ, ¬M.Step P τ' κ) : τ = τ' := by
  rcases h.compare (fun ρ _ => hsingle ρ) h' with ⟨rest, rfl⟩ | ⟨later, rfl, hlater⟩
  · obtain ⟨κ, hκ⟩ := h.exists_step (List.mem_append_right trace' List.mem_cons_self)
    exact absurd hκ (hτ' κ)
  · cases hlater with
    | refl => rfl
    | step hstep _ => exact absurd hstep (hτ _)

end Run

namespace Through

variable {n : Nat} {a b : Code}

theorem nil (hσ : M.pc σ = n) : M.Through P n [] σ [] σ := ⟨.refl σ, hσ, nofun, hσ⟩

theorem append (ha : M.Through P n a σ trace ρ) (hb : M.Through P (n + a.length) b ρ later τ) :
    M.Through P n (a ++ b) σ (trace ++ later) τ where
  run := ha.run.trans hb.run
  start := ha.start
  inside κ hκ := by
    rw [Code.Within, List.length_append]
    rcases List.mem_append.mp hκ with hκ | hκ
    · have := ha.inside κ hκ
      rw [Code.Within] at this
      omega
    · have := hb.inside κ hκ
      rw [Code.Within] at this
      omega
  ends := by rw [hb.ends, List.length_append, Nat.add_assoc]

/-- A run through one fragment ends where that through the next begins. -/
theorem trans {m : Nat} (ha : M.Through P n a σ trace ρ) (hb : M.Through P m b ρ later τ) :
    M.Through P n (a ++ b) σ (trace ++ later) τ := by
  obtain rfl : m = n + a.length := hb.start.symm.trans ha.ends
  exact ha.append hb

theorem single {i : Instr} (h : M.Step P σ τ) (hσ : M.pc σ = n) (hτ : M.pc τ = n + 1) :
    M.Through P n [i] σ [σ] τ := by
  refine ⟨.single h, hσ, ?_, hτ⟩
  rw [List.forall_mem_singleton, Code.Within, hσ, List.length_singleton]
  omega

theorem cons {i : Instr} (h : M.Step P σ ρ) (hσ : M.pc σ = n) (hρ : M.pc ρ = n + 1)
    (hrest : M.Through P (n + 1) a ρ trace τ) : M.Through P n (i :: a) σ (σ :: trace) τ :=
  (single (i := i) h hσ hρ).append hrest

/-- What the steps from positions of a fragment keep, a run through it keeps. -/
theorem keeps {I : S → Prop} (h : M.Through P n a σ trace τ)
    (hstep : ∀ ρ κ, Code.Within n a (M.pc ρ) → M.Step P ρ κ → I ρ → I κ) (hσ : I σ) : I τ :=
  h.run.keeps (fun ρ hρ κ hκ => hstep ρ κ (h.inside ρ hρ) hκ) hσ

end Through

namespace Straight

variable {n : Nat} {a b : Code}

theorem nil (hσ : M.pc σ = n) : M.Straight P n [] σ [] σ := ⟨.nil hσ, rfl⟩

theorem append (ha : M.Straight P n a σ trace ρ) (hb : M.Straight P (n + a.length) b ρ later τ) :
    M.Straight P n (a ++ b) σ (trace ++ later) τ where
  through := ha.through.append hb.through
  positions := by
    rw [List.map_append, ha.positions, hb.positions, List.range'_append_1, List.length_append]

theorem single {i : Instr} (h : M.Step P σ τ) (hσ : M.pc σ = n) (hτ : M.pc τ = n + 1) :
    M.Straight P n [i] σ [σ] τ :=
  ⟨.single h hσ hτ, by rw [List.map_singleton, hσ]; rfl⟩

theorem cons {i : Instr} (h : M.Step P σ ρ) (hσ : M.pc σ = n) (hρ : M.pc ρ = n + 1)
    (hrest : M.Straight P (n + 1) a ρ trace τ) : M.Straight P n (i :: a) σ (σ :: trace) τ :=
  (single (i := i) h hσ hρ).append hrest

end Straight

end Semantics

end ClassGen.Machine
