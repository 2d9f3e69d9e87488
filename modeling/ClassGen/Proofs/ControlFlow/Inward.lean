import ClassGen.Proofs.Machine.Semantics
import ClassGen.Proofs.Slots.Layout

/-! Control leaves the code of a statement at its end only, since its jumps go to labels of its own.
So does every run of every machine. -/

namespace ClassGen

namespace Code

/-- Jumps go to labels of the fragment, or to `exits`. -/
abbrev Inward (exits : List Label) (c : Code) : Prop := c.Confined (fun _ _ => True) exits

variable {P c : Code} {start n m : Nat} {exits : List Label}

/-- From inside a fragment control stays in it, falls off its end, or goes to an exit. -/
theorem Inward.goes (hc : c.Inward exits) (hP : P.marks.Nodup) (hat : P.At start c)
    (hn : Within start c n) (hgo : P.Goes n m) :
    Within start c m ∨ (m = start + c.length ∧ fallsThrough c = true) ∨ ∃ l ∈ exits,
    P[m]? = some (.mark l) := by
  obtain ⟨k, rfl⟩ := Nat.exists_eq_add_of_le hn.1
  have hk : k < c.length := by have := hn.2; omega
  have hi := hat.getElem? hk
  cases hgo with
  | next hi' hfalls =>
    rw [hi] at hi'
    cases hi'
    by_cases hlast : k + 1 < c.length
    · exact .inl ⟨by omega, by omega⟩
    · obtain rfl : k = c.length - 1 := by omega
      refine .inr (.inl ⟨by omega, ?_⟩)
      simp [fallsThrough, List.getLast?_eq_getElem?, hk, hfalls]
  | jump hi' hm =>
    rw [hi] at hi'
    have hmem : .jump _ _ ∈ c := Option.some.inj hi' ▸ List.getElem_mem hk
    rcases hc.jumps _ _ hmem with hmark | hexit
    · obtain ⟨n, hn, hmark⟩ := hat.within hmark
      rw [mark_unique hP hm hmark]
      exact .inl hn
    · exact .inr (.inr ⟨_, hexit, hm⟩)

theorem Inward.thenGoto {l : Label} (h : c.Inward []) (hl : fallsThrough c = true → l ∈ exits) :
    (thenGoto c l).Inward exits := by
  unfold ClassGen.thenGoto
  split_ifs with hfalls
  · exact h.loosen.append (.jump (hl hfalls))
  · exact h.loosen

end Code

namespace Machine.Semantics.Run

variable {S : Type} {M : Semantics S} {P c : Code} {σ τ : S} {trace : List S} {n : Nat}
  {exits : List Label}

/-- A run that begins inside a fragment stays there, or leaves it once at its end or at an exit. -/
theorem leaves (hc : c.Inward exits) (hP : P.marks.Nodup) (hat : P.At n c) (h : M.Run P σ trace τ)
    (hσ : Code.Within n c (M.pc σ)) :
    (∀ ρ ∈ trace ++ [τ], Code.Within n c (M.pc ρ)) ∨
      ∃ inside ρ outside, trace = inside ++ outside ∧ inside.head? = some σ ∧
        (∀ κ ∈ inside, Code.Within n c (M.pc κ)) ∧ M.Run P σ inside ρ ∧ M.Run P ρ outside τ ∧
        ((M.pc ρ = n + c.length ∧ Code.fallsThrough c = true) ∨
          ∃ l ∈ exits, P[M.pc ρ]? = some (.mark l)) := by
  induction h with
  | refl σ => exact .inl (List.forall_mem_singleton.mpr hσ)
  | @step σ ρ τ trace hstep hrest ih =>
    rcases hc.goes hP hat hσ hstep.goes with hin | hout
    · rcases ih hin with hall | ⟨inside, ρ', outside, rfl, -, hinside, hrun, hrun', hexit⟩
      · exact .inl (List.forall_mem_cons.mpr ⟨hσ, hall⟩)
      · exact .inr ⟨σ :: inside, ρ', outside, rfl, rfl, List.forall_mem_cons.mpr ⟨hσ, hinside⟩,
          .step hstep hrun, hrun', hexit⟩
    · exact .inr ⟨[σ], ρ, trace, rfl, rfl, List.forall_mem_singleton.mpr hσ, .single hstep, hrest,
        hout⟩

/-- A run that gets to the end of a fragment without exits goes through the fragment first. -/
theorem through (hc : c.Inward []) (hP : P.marks.Nodup) (hat : P.At n c) (h : M.Run P σ trace τ)
    (hσ : M.pc σ = n) (hτ : M.pc τ = n + c.length) :
    ∃ inside ρ later, trace = inside ++ later ∧ M.Through P n c σ inside ρ ∧ M.Run P ρ later τ := by
  rcases Nat.eq_zero_or_pos c.length with hempty | hpos
  · refine ⟨[], σ, trace, rfl, ⟨.refl σ, hσ, nofun, ?_⟩, h⟩
    rw [hσ, hempty, Nat.add_zero]
  · have hstart : Code.Within n c (M.pc σ) := ⟨Nat.le_of_eq hσ.symm, by omega⟩
    rcases h.leaves hc hP hat hstart with
      hall | ⟨inside, ρ, later, htrace, -, hinside, hrun, hlater, ⟨hend, -⟩ | ⟨l, hl, -⟩⟩
    · have hlast := (hall τ (List.mem_append_right _ (List.mem_singleton_self τ))).2
      omega
    · exact ⟨inside, ρ, later, htrace, ⟨hrun, hσ, hinside, hend⟩, hlater⟩
    · cases hl

end Machine.Semantics.Run

open Run

theorem lowerExpr_inward {cx : BodyContext} {e : Expr} {s t : LowerState} {v : Lowered}
    {exits : List Label} (h : lowerExpr cx e s = .ok v t) : v.code.Inward exits :=
  (lowerExpr_confined h).loosen.allow fun _ _ _ => trivial

/-- The test of a statement and the jump away from it. -/
theorem test_inward {cx : BodyContext} {e : Expr} {s t : LowerState} {v : Lowered}
    {exits : List Label} {l : Label} (h : lowerExpr cx e s = .ok v t) (hl : l ∈ exits) :
    Code.Inward exits ((v.code ++ coerce v.type .boolean) ++ [Instr.jump .ifeq l]) :=
  ((lowerExpr_inward h).coerced .boolean).append (.jump hl)

theorem bindSubject_inward {subject : Nat} {pattern : Ty} {scope : ScopeId} {binding : String}
    {s t : LowerState} {c : Code} {exits : List Label}
    (h : bindSubject subject pattern scope binding s = .ok c t) : c.Inward exits := by
  have h := bindSubject_ok.mp h
  split_ifs at h <;> obtain ⟨rfl, rfl⟩ := h
  · exact .of_simple rfl
  · exact (Code.Confined.boundSubject trivial).append (.slot trivial)

mutual

/-- The code of a statement keeps its jumps to itself. -/
theorem lowerStmt_inward : ∀ {cx : BodyContext} {stmt : Stmt} {s t : LowerState} {c : Code},
    lowerStmt cx stmt s = .ok c t → c.Inward [] := by
  intro cx stmt s t c h
  cases stmtRun_of_ok h with
  | expr hv => exact (lowerExpr_inward hv).dropped
  | var ht hvoid hv hvv => exact ((lowerExpr_inward hv).coerced _).append (.slot trivial)
  | function hf => exact .of_simple rfl
  | struct hs => exact .of_simple rfl
  | leave hret he => exact .of_simple rfl
  | discard hret he hv => exact (lowerExpr_inward hv).dropped.append (.of_simple rfl)
  | ret hret he hv hvv => exact ((lowerExpr_inward hv).coerced _).append (.of_simple rfl)
  | ifThen hv hvv hb =>
    have htest := test_inward hv (List.mem_singleton_self s.body.nextLabel)
    exact ((htest.append (lowerBlock_inward hb).loosen).append (.of_simple rfl)).close (by simp)
  | ifElse hv hvv hb he =>
    rename_i s₂ v b e
    -- the end of the branches is a label only if the first of them reaches it
    let exits := s.body.nextLabel :: if Code.fallsThrough b then [s₂.body.nextLabel] else []
    have htest : Code.Inward exits _ := test_inward hv (List.mem_cons_self ..)
    have hbody : (thenGoto b s₂.body.nextLabel).Inward exits :=
      (lowerBlock_inward hb).thenGoto fun hfalls => by simp [exits, hfalls]
    have hend : Code.Inward exits (if Code.fallsThrough b then [.mark s₂.body.nextLabel]
        else []) := by
      split_ifs <;> exact .of_simple rfl
    refine (((((htest.append hbody).append (.of_simple rfl)).append
      (lowerStmt_inward he).loosen).append hend)).close ?_
    intro l hl
    rcases List.mem_cons.mp hl with rfl | hl
    · simp
    · split_ifs at hl ⊢ with hfalls
      · simp [List.mem_singleton.mp hl]
      · cases hl
  | whileLoop hv hvv hb =>
    let exits := [s.body.nextLabel, s.body.nextLabel + 1]
    have hstart : Code.Inward exits [.mark s.body.nextLabel] := .of_simple rfl
    have htest : Code.Inward exits _ := test_inward (l := s.body.nextLabel + 1) hv (by simp [exits])
    have hback : Code.Inward exits [Code.goto s.body.nextLabel] := .jump List.mem_cons_self
    have hall := (hstart.append htest).append ((lowerBlock_inward hb).loosen.append
      (hback.append (b := [.mark (s.body.nextLabel + 1)]) (.of_simple rfl)))
    simpa using hall.close (by simp [exits])
  | forEach hv hit htype hb =>
    rename_i s₁ source code type b
    let exits := [s₁.body.nextLabel, s₁.body.nextLabel + 1]
    have hsetup : Code.Inward exits
        (source.code ++ code ++ [Code.storeSlot s₁.body.nextSlot .reference]) :=
      ((lowerExpr_inward hv).append (.of_simple (all_simple_iteratorCode hit))).append
        (.slot trivial)
    have hadvance : Code.Inward exits (advanceLoop s₁.body.nextSlot
        ⟨(s₁.withSlot .reference).body.nextSlot, type⟩ (s₁.body.nextLabel + 1)) :=
      .advanceLoop trivial trivial (by simp [exits])
    have hback : Code.Inward exits [Code.goto s₁.body.nextLabel] := .jump List.mem_cons_self
    refine ((((hsetup.append (.of_simple rfl)).append hadvance).append
      (lowerBlock_inward hb).loosen).append
      (hback.append (b := [.mark (s₁.body.nextLabel + 1)]) (.of_simple rfl))).close ?_
    simp [exits]
  | matchType hv hvv ha =>
    rename_i s₁ v a
    have hsetup : Code.Inward [s₁.body.nextLabel]
        (v.code ++ coerce v.type .object ++ [Code.storeSlot s₁.body.nextSlot .reference]) :=
      ((lowerExpr_inward hv).coerced .object).append (.slot trivial)
    exact ((hsetup.append (lowerArms_inward ha)).append (.of_simple rfl)).close (by simp)
  | block hb => exact lowerBlock_inward hb
  | exported hi => exact lowerStmt_inward hi
  | nothing h => exact .of_simple rfl

theorem lowerBlock_inward : ∀ {cx : BodyContext} {b : Block} {s t : LowerState} {c : Code},
    lowerBlock cx b s = .ok c t → c.Inward []
  | _, ⟨_, _, _⟩, _, _, _, h => lowerStmts_inward h

theorem lowerStmts_inward : ∀ {cx : BodyContext} {body : List Stmt} {s t : LowerState} {c : Code},
    lowerStmts cx [] body s = .ok c t → c.Inward []
  | _, [], _, _, _, h => by
    obtain ⟨rfl, rfl⟩ := lowerStmts_nil.mp h
    exact .of_simple rfl
  | _, stmt :: rest, _, _, _, h => by
    obtain ⟨c₁, s₁, c₂, hc, hrest, rfl⟩ := lowerStmts_cons.mp h
    exact (lowerStmt_inward hc).append (lowerStmts_inward hrest)

theorem lowerArms_inward : ∀ {cx : BodyContext} {subject : Nat} {done : Label} {arms : List Arm}
    {s t : LowerState} {c : Code}, lowerArms cx subject done arms s = .ok c t → c.Inward [done]
  | _, _, _, [], _, _, _, h => by
    obtain ⟨rfl, rfl⟩ := pure_ok.mp h
    exact .of_simple rfl
  | _, subject, done, ⟨pattern, binding, body, span⟩ :: rest, s, _, _, h => by
    obtain ⟨u, bound, s₁, b, s₂, a, -, hbound, hb, ha, rfl⟩ := lowerArms_cons h
    let exits := [s.body.nextLabel, done]
    have htest : Code.Inward exits (patternTest subject s.body.nextLabel u) :=
      .patternTest trivial List.mem_cons_self
    have hbody : Code.Inward exits (thenGoto b done) :=
      (lowerBlock_inward hb).thenGoto fun _ => by simp [exits]
    have hrest : Code.Inward exits a := (lowerArms_inward ha).mono (fun _ _ h => h)
      (by simp [exits])
    refine ((((htest.append (bindSubject_inward hbound)).append hbody).append
      (.of_simple rfl)).append hrest).exiting ?_
    simp [exits]

end

end ClassGen
