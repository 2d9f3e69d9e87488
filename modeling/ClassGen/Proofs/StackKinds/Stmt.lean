import ClassGen.Proofs.Dict
import ClassGen.Proofs.StackKinds.Expr
import ClassGen.Proofs.StackKinds.Safety

/-! Statements that are lowered faithfully start and end with an empty stack, and the methods that
come of them are safe. -/

namespace ClassGen

open Run Faithful LowerState

/-! ### Empty stacks inside a fragment -/

/-- From an empty stack on, the stack is empty at these positions of the fragment. -/
def Clear (ρ : Label → List Kind) (ret : List Kind) (c : Code) (positions : List Nat) : Prop :=
  ∀ n ∈ positions, n ≤ c.length ∧ Flows ρ ret (c.take n) (some []) (some [])

/-- The fragment keeps the stack empty, as a whole and at these positions. -/
structure Settled (ρ : Label → List Kind) (ret : List Kind) (c : Code) (positions : List Nat) :
    Prop where
  flows : Flows ρ ret c (some []) (some [])
  clear : Clear ρ ret c positions

section Clear

variable {ρ : Label → List Kind} {ret : List Kind} {a b c : Code} {A B : List Nat}

theorem clear_nil : Clear ρ ret c [] := nofun

theorem Clear.append (hA : Clear ρ ret c A) (hB : Clear ρ ret c B) : Clear ρ ret c (A ++ B) := by
  intro n hn
  rcases List.mem_append.mp hn with hn | hn
  · exact hA n hn
  · exact hB n hn

theorem clear_start : Clear ρ ret c [0] := by
  intro n hn
  obtain rfl := List.mem_singleton.mp hn
  exact ⟨Nat.zero_le _, .nil⟩

theorem clear_end (h : Flows ρ ret c (some []) (some [])) : Clear ρ ret c [c.length] := by
  intro n hn
  obtain rfl := List.mem_singleton.mp hn
  rw [List.take_length]
  exact ⟨Nat.le_refl _, h⟩

theorem Clear.left (h : Clear ρ ret a A) : Clear ρ ret (a ++ b) A := by
  intro n hn
  obtain ⟨hle, hflows⟩ := h n hn
  refine ⟨by rw [List.length_append]; omega, ?_⟩
  rwa [List.take_append_of_le_length hle]

theorem Clear.right (ha : Flows ρ ret a (some []) (some [])) (h : Clear ρ ret b B) :
    Clear ρ ret (a ++ b) (shift a.length B) := by
  intro n hn
  obtain ⟨k, hk, rfl⟩ := List.mem_map.mp hn
  obtain ⟨hle, hflows⟩ := h k hk
  refine ⟨by rw [List.length_append]; omega, ?_⟩
  rw [List.take_length_add_append]
  exact ha.append hflows

theorem Settled.of_flows (h : Flows ρ ret c (some []) (some [])) : Settled ρ ret c [] :=
  ⟨h, clear_nil⟩

theorem Settled.append (ha : Settled ρ ret a A) (hb : Settled ρ ret b B) :
    Settled ρ ret (a ++ b) (A ++ shift a.length B) :=
  ⟨ha.flows.append hb.flows, ha.clear.left.append (hb.clear.right ha.flows)⟩

theorem Settled.then (ha : Settled ρ ret a A) (hb : Flows ρ ret b (some []) (some [])) :
    Settled ρ ret (a ++ b) A :=
  ⟨ha.flows.append hb, ha.clear.left⟩

theorem Settled.within {n : Nat} (hb : Settled ρ ret b B) (ha : Flows ρ ret a (some []) (some []))
    (hc : Flows ρ ret c (some []) (some [])) (hn : a.length = n) : Settled ρ ret (a ++ b ++ c)
    (shift n B) :=
  hn ▸ ((Settled.of_flows ha).append hb).then hc

end Clear

/-! ### What lowering keeps true -/

/-- Every method so far is safe, and only functions of the file wait for their instantiations. -/
structure UnitsSafe (file : FileContext) (declared : List FunctionDecl)
    (s : LowerState) : Prop where
  methods : ∀ m ∈ s.file.methods, StackSafe file declared m
  structs : ∀ u ∈ s.file.structs, ∀ m ∈ u.methods, StackSafe file declared m
  generics : ∀ entry ∈ s.file.generics, entry.2.functions ⊆ declared

/-- The state in which a body can be lowered on. -/
structure Fit (declared : List FunctionDecl) (cx : BodyContext) (s : LowerState) : Prop where
  ready : Ready cx s
  units : UnitsSafe cx.file declared s

variable {declared : List FunctionDecl} {cx : BodyContext} {s t : LowerState}

namespace Fit

theorem of_kept (h : Fit declared cx s) (hk : Kept s t) : Fit declared cx t :=
  ⟨h.ready.of_kept hk, hk.methods ▸ h.units.methods, hk.structs ▸ h.units.structs,
    hk.generics ▸ h.units.generics⟩

theorem skip (h : Fit declared cx s) (n : Nat) : Fit declared cx (s.skip n) :=
  h.of_kept ⟨rfl, rfl, rfl, rfl⟩

theorem logged (h : Fit declared cx s) (e : Event) : Fit declared cx (s.logged e) :=
  h.of_kept ⟨rfl, rfl, rfl, rfl⟩

theorem withSlot (h : Fit declared cx s) (repr : Representation) :
    Fit declared cx (s.withSlot repr) :=
  h.of_kept ⟨rfl, rfl, rfl, rfl⟩

theorem withLocal (h : Fit declared cx s) (scope : ScopeId) (name : String) {type : Ty}
    (ht : type.isVoid = false) : Fit declared cx (s.withLocal scope name type) := by
  refine ⟨⟨fun entry hentry => ?_, h.ready.params⟩, h.units.methods, h.units.structs,
    h.units.generics⟩
  rcases Dict.mem_insert hentry with rfl | hentry
  · exact ht
  · exact h.ready.locals entry hentry

/-- The scope does not matter. -/
theorem inside (h : Fit declared cx s) (b : Block) : Fit declared (cx.inside b) s :=
  ⟨⟨h.ready.locals, h.ready.params⟩, h.units⟩

theorem outside (b : Block) (h : Fit declared (cx.inside b) s) : Fit declared cx s :=
  ⟨⟨h.ready.locals, h.ready.params⟩, h.units⟩

end Fit

/-- The code, lowered from `s` to `t`, keeps the stack empty, and lowering can go on. -/
structure Settles (declared : List FunctionDecl) (cx : BodyContext) (s t : LowerState) (c : Code)
    (positions : List Nat) : Prop where
  code : Labelled s.body.nextLabel t.body.nextLabel fun ρ => Settled ρ cx.ret.kinds c positions
  fit : Fit declared cx t

def StmtSettles (declared : List FunctionDecl) (st : Stmt) : Prop :=
  ∀ {cx : BodyContext} {s t : LowerState} {c : Code}, lowerStmt cx st s = .ok c t →
    stmt cx st s = true →
    st.functions ⊆ declared → Fit declared cx s →
      Settles declared cx s t c (innerBoundaries cx st s)

def BlockSettles (declared : List FunctionDecl) (b : Block) : Prop :=
  ∀ {cx : BodyContext} {s t : LowerState} {c : Code}, lowerBlock cx b s = .ok c t →
    block cx b s = true →
    b.functions ⊆ declared → Fit declared cx s → Settles declared cx s t c (blockBoundaries cx b s)

def StmtsSettle (declared : List FunctionDecl) (body : List Stmt) : Prop :=
  ∀ {cx : BodyContext} {s t : LowerState} {c : Code}, lowerStmts cx [] body s = .ok c t →
    stmts cx body s = true →
    functionsOf body ⊆ declared → Fit declared cx s →
      Settles declared cx s t c (boundaries cx body s)

/-- The arms leave for `done`, where the stack has to be empty. -/
def ArmsSettle (declared : List FunctionDecl) (branches : List Arm) : Prop :=
  ∀ {cx : BodyContext} {subject : Nat} {done : Label} {s t : LowerState} {c : Code},
    lowerArms cx subject done branches s = .ok c t → arms cx subject branches s = true →
    functionsOfArms branches ⊆ declared → Fit declared cx s →
    (Labelled s.body.nextLabel t.body.nextLabel fun ρ => ρ done = [] →
      Settled ρ cx.ret.kinds c (armBoundaries cx subject done branches s)) ∧ Fit declared cx t

/-! ### Simple statements -/

/-- A statement without statements inside. -/
theorem Settles.of_flows {c : Code}
    (h : Labelled s.body.nextLabel t.body.nextLabel fun ρ =>
      Flows ρ cx.ret.kinds c (some []) (some []))
    (hfit : Fit declared cx t) : Settles declared cx s t c [] :=
  ⟨h.mono fun _ hρ => .of_flows hρ, hfit⟩

theorem settles_expr (value : Expr) : StmtSettles declared (.expr value) := by
  intro cx s t c h hf hsub hfit
  cases stmtRun_of_ok h with
  | expr hv =>
    rename_i v
    rw [stmt] at hf
    refine .of_flows ?_ (hfit.of_kept (lowerExpr_kept hv))
    exact (exprPuts value hv hf hfit.ready _ []).mono fun ρ hρ => hρ.append (flows_popValue v.type)
  | nothing hn => cases hn

theorem varType_ok {name : String} {init : Expr} {type : Ty} {span : Span}
    (h : VarType cx s name init type) : varType cx name init span s = .ok type s := by
  unfold VarType at h
  unfold varType
  split at h
  · next hl => simp only [hl, h]
  · next hl => simp only [hl, h]
  · next hf hl =>
    rename_i declared
    cases declared with
    | function sig => exact (hf sig rfl).elim
    | _ => simp only [hl, BodyContext.resolveType_ok, h, and_self]

theorem settles_var (span : Span) (name : String) (init : Expr) :
    StmtSettles declared (.var span name init) := by
  intro cx s t c h hf hsub hfit
  cases stmtRun_of_ok h with
  | var ht hvoid hv hvv =>
    rename_i v s₁ type
    rw [stmt, after_ok (varType_ok ht)] at hf
    obtain ⟨hfv, hc, -⟩ := operand_ok hf hv
    have hputs := (exprPuts init hv hfv hfit.ready).coerced hc
      fun hvoid' => by rw [hvv] at hvoid'; cases hvoid'
    refine .of_flows ?_ ((hfit.of_kept (lowerExpr_kept hv)).withLocal cx.scope name hvoid)
    exact (hputs _ []).mono fun ρ hρ => hρ.append (flows_storeSlot _ hvoid)
  | nothing hn => cases hn

theorem settles_ret (span : Span) (value : Expr) : StmtSettles declared (.ret span value) := by
  intro cx s t c h hf hsub hfit
  rw [stmt] at hf
  cases stmtRun_of_ok h with
  | leave hret he =>
    refine .of_flows (.of_forall (Nat.le_refl _) fun ρ => ?_) hfit
    rw [Ty.kinds_of_void hret]
    exact flows_leave
  | discard hret he hv =>
    rename_i v
    rw [he, Bool.false_or, if_pos hret] at hf
    refine .of_flows ?_ (hfit.of_kept (lowerExpr_kept hv))
    rw [Ty.kinds_of_void hret]
    exact (exprPuts value hv hf hfit.ready _ []).mono fun ρ hρ =>
      (hρ.append (flows_popValue v.type)).append flows_leave
  | ret hret he hv hvv =>
    rw [he, Bool.false_or, if_neg (by simp [hret])] at hf
    obtain ⟨hfv, hc, -⟩ := operand_ok hf hv
    have hputs := (exprPuts value hv hfv hfit.ready).coerced hc
      fun hvoid => by rw [hvv] at hvoid; cases hvoid
    refine .of_flows ?_ (hfit.of_kept (lowerExpr_kept hv))
    exact (hputs _ []).mono fun ρ hρ => hρ.append (flows_returnValue cx.ret)
  | nothing hn => cases hn

/-! ### Branches and loops -/

/-- A test that was lowered, as code that leaves a boolean. -/
theorem test_ok {test : Expr} {v : Lowered} {next : LowerState → Bool}
    (hf : operand (expr cx test s) (lowerExpr cx test) s .boolean next = true)
    (hv : lowerExpr cx test s = .ok v t) (hvv : v.type.isVoid = false) (hready : Ready cx s) :
    next t = true ∧ Puts s t (v.code ++ coerce v.type .boolean) [.int] ∧
      lowerAs cx test .boolean s = .ok (v.code ++ coerce v.type .boolean) t := by
  obtain ⟨hfv, hc, hnext⟩ := operand_ok hf hv
  have hnot : v.type.isVoid = true → (Ty.boolean).isVoid = true :=
    fun h => by rw [hvv] at h; cases h
  refine ⟨hnext, (exprPuts test hv hfv hready).coerced hc hnot, ?_⟩
  simp only [lowerAs, bind_ok, Lowered.into_ok]
  exact ⟨v, t, hv, hnot, rfl, rfl⟩

theorem flows_test {ρ : Label → List Kind} {ret : List Kind} {c : Code} {l : Label}
    (hc : Flows ρ ret c (some []) (some ([Kind.int] ++ []))) (hl : ρ l = []) :
    Flows ρ ret (c ++ [Instr.jump .ifeq l]) (some []) (some []) :=
      hc.append (flows_branch rfl rfl hl)

theorem flows_enter {ρ : Label → List Kind} {ret : List Kind} {l : Label} (hl : ρ l = []) :
    Flows ρ ret [.mark l] (some []) (some []) := .mark hl fun σ hσ => by cases hσ; rfl

/-- A block that leaves for a label where the stack is empty, and what follows there. -/
theorem flows_thenGoto {ρ : Label → List Kind} {ret : List Kind} {b : Code} {l k : Label}
    (hb : Flows ρ ret b (some []) (some [])) (hl : ρ l = []) (hk : ρ k = []) :
    Flows ρ ret (thenGoto b l ++ [Instr.mark k]) (some []) (some []) := by
  unfold thenGoto
  split
  · exact (hb.append (flows_goto hl)).append (.mark hk nofun)
  · exact hb.append (flows_enter hk)

theorem take_thenGoto (b rest : Code) (l : Label) : ∃ d, thenGoto b l ++ rest = b ++ d := by
  unfold thenGoto
  split
  · exact ⟨_, List.append_assoc b _ _⟩
  · exact ⟨_, rfl⟩

theorem settles_ifThen {span : Span} {test : Expr} {body : Block}
    (ih : BlockSettles declared body) : StmtSettles declared (.ifElse span test body none) := by
  intro cx s t c h hf hsub hfit
  rw [stmt] at hf
  cases stmtRun_of_ok h with
  | ifThen hv hvv hb =>
    rename_i s₁ v b
    obtain ⟨hf, hputs, htest⟩ := test_ok hf hv hvv (hfit.skip 1).ready
    have hfit₁ := (hfit.skip 1).of_kept (lowerExpr_kept hv)
    obtain ⟨hcode, hfit₂⟩ := ih hb hf (by simpa [Stmt.functions] using hsub) hfit₁
    refine ⟨?_, hfit₂⟩
    have labels := Labelled.at_label s.body.nextLabel ([] : List Kind)
    refine (labels.and ((hputs cx.ret.kinds []).and hcode)).mono fun ρ hρ => ?_
    obtain ⟨hl, htestFlows, hblock⟩ := hρ
    rw [innerBoundaries, after_ok htest]
    exact hblock.within (flows_test htestFlows hl) (flows_enter hl) List.length_append
  | nothing hn => cases hn

/-- Two branches: the first comes after `pre` and leaves for `done`, the second starts at `l`. -/
theorem settled_branches {ρ : Label → List Kind} {ret : List Kind} {pre b e : Code} {B E : List Nat}
    {l done : Label} (hpre : Flows ρ ret pre (some []) (some [])) (hb : Settled ρ ret b B)
    (he : Settled ρ ret e E) (hl : ρ l = []) (hd : ρ done = []) :
    Settled ρ ret (pre ++ thenGoto b done ++ [Instr.mark l] ++ e)
      (shift pre.length B ++ shift (pre.length + (thenGoto b done).length + 1) E) := by
  have hmid : Flows ρ ret (pre ++ thenGoto b done ++ [Instr.mark l]) (some []) (some []) := by
    rw [List.append_assoc]
    exact hpre.append (flows_thenGoto hb.flows hd hl)
  refine ⟨hmid.append he.flows, .append ?_ ?_⟩
  · obtain ⟨d, hd⟩ := take_thenGoto b ([.mark l] ++ e) done
    have hcode : pre ++ thenGoto b done ++ [Instr.mark l] ++ e = (pre ++ b) ++ d := by
      simp only [List.append_assoc] at hd ⊢
      rw [hd]
    rw [hcode]
    exact (hb.clear.right hpre).left
  · simpa only [List.length_append, List.length_cons, List.length_nil,
      Nat.zero_add] using he.clear.right hmid

theorem settles_ifElse {span : Span} {test : Expr} {body : Block} {branch : Stmt}
    (ih : BlockSettles declared body) (ihb : StmtSettles declared branch) :
    StmtSettles declared (.ifElse span test body (some branch)) := by
  intro cx s t c h hf hsub hfit
  rw [stmt] at hf
  rw [Stmt.functions, List.append_subset] at hsub
  cases stmtRun_of_ok h with
  | ifElse hv hvv hb he =>
    rename_i s₁ s₂ v b e
    obtain ⟨hf, hputs, htest⟩ := test_ok hf hv hvv (hfit.skip 1).ready
    rw [after_ok hb, Bool.and_eq_true] at hf
    have hfit₁ := (hfit.skip 1).of_kept (lowerExpr_kept hv)
    obtain ⟨hblock, hfit₂⟩ := ih hb hf.1 hsub.1 hfit₁
    obtain ⟨hbranch, hfit₃⟩ := ihb he hf.2 hsub.2 (hfit₂.skip 1)
    refine ⟨?_, hfit₃⟩
    have first := (Labelled.at_label s.body.nextLabel []).and ((hputs cx.ret.kinds []).and hblock)
    have second := (Labelled.at_label s₂.body.nextLabel []).and hbranch
    refine (first.and second).mono fun ρ hρ => ?_
    obtain ⟨⟨hl, htestFlows, hblock⟩, hd, hbranch⟩ := hρ
    rw [innerBoundaries, after_ok htest, after_ok hb, after_ok he]
    have hends : Settled ρ cx.ret.kinds e
        (0 :: e.length :: innerBoundaries cx branch (s₂.skip 1)) :=
      ⟨hbranch.flows, clear_start.append ((clear_end hbranch.flows).append hbranch.clear)⟩
    have hmeet : Flows ρ cx.ret.kinds (if Code.fallsThrough b then [.mark s₂.body.nextLabel]
        else []) (some [])
        (some []) := by
      split
      · exact flows_enter hd
      · exact .nil
    have hsettled := (settled_branches (flows_test htestFlows hl) hblock hends hl hd).then hmeet
    rwa [List.length_append] at hsettled
  | nothing hn => cases hn

theorem settles_whileLoop {span : Span} {test : Expr} {body : Block}
    (ih : BlockSettles declared body) : StmtSettles declared (.whileLoop span test body) := by
  intro cx s t c h hf hsub hfit
  rw [stmt] at hf
  cases stmtRun_of_ok h with
  | whileLoop hv hvv hb =>
    rename_i s₁ v b
    obtain ⟨hf, hputs, htest⟩ := test_ok hf hv hvv (hfit.skip 2).ready
    have hfit₁ := (hfit.skip 2).of_kept (lowerExpr_kept hv)
    obtain ⟨hcode, hfit₂⟩ := ih hb hf (by simpa [Stmt.functions] using hsub) hfit₁
    refine ⟨?_, hfit₂⟩
    have labels := (Labelled.at_label s.body.nextLabel ([] : List Kind)).and
      (.at_label (s.body.nextLabel + 1) [])
    refine (labels.and ((hputs cx.ret.kinds []).and hcode)).mono fun ρ hρ => ?_
    obtain ⟨⟨hstart, hdone⟩, htestFlows, hblock⟩ := hρ
    rw [innerBoundaries, after_ok htest]
    have hpre := flows_test ((flows_enter hstart).append htestFlows) hdone
    have hloop : Flows ρ cx.ret.kinds [Code.goto s.body.nextLabel, .mark (s.body.nextLabel + 1)]
        (some []) (some []) :=
      (flows_goto hstart).cons (.mark hdone (by simp))
    exact hblock.within hpre hloop
      (by simp only [List.length_append, List.length_cons, List.length_nil])
  | nothing hn => cases hn

theorem settles_forEach {span : Span} {binding : String} {iterable : Expr} {body : Block}
    (ih : BlockSettles declared body) :
    StmtSettles declared (.forEach span binding iterable body) := by
  intro cx s t c h hf hsub hfit
  rw [stmt, Bool.and_eq_true] at hf
  obtain ⟨hfi, hf⟩ := hf
  simp only [lowerStmt, bind_ok, pure_ok, Lower.newLabel_ok] at h
  obtain ⟨⟨setup, iterator, element⟩, s₂, hopen, _, _, ⟨rfl, rfl⟩, _, _, ⟨rfl, rfl⟩, b, _, hb,
      rfl, rfl⟩ := h
  rw [LowerState.skip_skip] at hb
  rw [innerBoundaries, after_ok hopen]
  simp only [after_ok hopen, Bool.and_eq_true, Bool.not_eq_true'] at hf
  obtain ⟨helement, hf⟩ := hf
  obtain ⟨source, s₁, code, type, hv, hit, -, rfl, rfl, rfl, rfl⟩ := openLoop_ok hopen
  have hfit₁ := ((hfit.of_kept (lowerExpr_kept hv)).withSlot .reference).withLocal body.scope
    binding helement
  obtain ⟨hblock, hfit₂⟩ := ih hb hf (by simpa [Stmt.functions] using hsub) (hfit₁.skip 2)
  refine ⟨?_, hfit₂⟩
  have labels := (Labelled.at_label s₁.body.nextLabel ([] : List Kind)).and
    (.at_label (s₁.body.nextLabel + 1) [])
  have hsource := exprPuts iterable hv hfi hfit.ready cx.ret.kinds []
  refine (hsource.and (labels.and hblock)).mono fun ρ hρ => ?_
  obtain ⟨hsource, ⟨hstart, hdone⟩, hblock⟩ := hρ
  have hsetup := (hsource.append (flows_iteratorCode hit)).append
    (flows_storeReference s₁.body.nextSlot)
  have hpre := (hsetup.append (flows_enter hstart)).append (flows_advanceLoop s₁.body.nextSlot
    ⟨(s₁.withSlot .reference).body.nextSlot, type⟩ helement hdone)
  have hloop : Flows ρ cx.ret.kinds [Code.goto s₁.body.nextLabel, .mark (s₁.body.nextLabel + 1)]
      (some [])
      (some []) := (flows_goto hstart).cons (.mark hdone (by simp))
  refine hblock.within hpre hloop ?_
  rw [List.length_append, List.length_append]
  rfl

theorem settles_matchType {span : Span} {subject : Expr} {branches : List Arm}
    (ih : ArmsSettle declared branches) :
    StmtSettles declared (.matchType span subject branches) := by
  intro cx s t c h hf hsub hfit
  rw [stmt, Bool.and_eq_true] at hf
  obtain ⟨hfs, hf⟩ := hf
  rw [lowerStmt, bind_ok] at h
  obtain ⟨⟨setup, slot⟩, s₂, hopen, h⟩ := h
  simp only [bind_ok, pure_ok, Lower.newLabel_ok] at h
  obtain ⟨_, _, ⟨rfl, rfl⟩, a, _, ha, rfl, rfl⟩ := h
  rw [innerBoundaries, after_ok hopen]
  rw [after_ok hopen] at hf
  obtain ⟨v, s₁, hv, hvv, rfl, rfl, rfl⟩ := openMatch_ok hopen
  have hfit₁ := (hfit.of_kept (lowerExpr_kept hv)).withSlot .reference
  obtain ⟨harms, hfit₂⟩ := ih ha hf (by simpa [Stmt.functions] using hsub) (hfit₁.skip 1)
  refine ⟨?_, hfit₂⟩
  have hobject : v.type.converts .object := Ty.converts_to_reference _ rfl
  have hvalue := (exprPuts subject hv hfs hfit.ready).coerced hobject
    (fun hvoid => by rw [hvv] at hvoid; cases hvoid) cx.ret.kinds []
  refine (hvalue.and ((Labelled.at_label s₁.body.nextLabel []).and harms)).mono fun ρ hρ => ?_
  obtain ⟨hvalue, hdone, harms⟩ := hρ
  exact (harms hdone).within (hvalue.append (flows_storeReference _)) (flows_enter hdone) rfl

/-! ### Sequences -/

theorem armsSettle_nil : ArmsSettle declared [] := by
  intro cx subject done s t c h hf hsub hfit
  obtain ⟨rfl, rfl⟩ := pure_ok.mp h
  exact ⟨.of_forall (Nat.le_refl _) fun ρ _ => .of_flows .nil, hfit⟩

theorem bindSubject_settles {subject : Nat} {pattern : Ty} {scope : ScopeId}
    {binding : String} {c : Code} (h : bindSubject subject pattern scope binding s = .ok c t)
    (hp : pattern.isVoid = false) (hfit : Fit declared cx s) :
    (∀ ρ ret, Flows ρ ret c (some []) (some [])) ∧ Fit declared cx t ∧ t.body.nextLabel =
      s.body.nextLabel := by
  have hbind := bindSubject_ok.mp h
  split_ifs at hbind
  · obtain ⟨rfl, rfl⟩ := hbind
    exact ⟨fun _ _ => .nil, hfit, rfl⟩
  · obtain ⟨rfl, rfl⟩ := hbind
    obtain ⟨hvoid, hflows⟩ := flows_boundSubject subject hp
    refine ⟨fun ρ ret => ?_, hfit.withLocal scope binding hvoid, rfl⟩
    exact (hflows ρ ret []).append (flows_storeSlot _ hvoid)

theorem armsSettle_cons {pattern : Ty} {binding : String} {body : Block} {span : Span}
    {rest : List Arm} (ih : BlockSettles declared body) (ihr : ArmsSettle declared rest) :
    ArmsSettle declared (⟨pattern, binding, body, span⟩ :: rest) := by
  intro cx subject done s t c h hf hsub hfit
  rw [functionsOfArms, List.append_subset] at hsub
  obtain ⟨u, bound, s₁, b, s₂, a, hu, hbound, hb, ha, rfl⟩ := lowerArms_cons h
  have hresolve : cx.resolveType pattern span (s.skip 1) = .ok u (s.skip 1) :=
    BodyContext.resolveType_ok.mpr ⟨hu, rfl⟩
  simp only [arms, after_ok hresolve, after_ok hbound, after_ok hb, Bool.and_eq_true,
    Bool.not_eq_true'] at hf
  obtain ⟨hvoid, hfb, hfr⟩ := hf
  obtain ⟨hbind, hfit₁, hlabel⟩ := bindSubject_settles hbound hvoid (hfit.skip 1)
  obtain ⟨hblock, hfit₂⟩ := ih hb hfb hsub.1 hfit₁
  obtain ⟨hrest, hfit₃⟩ := ihr ha hfr hsub.2 hfit₂
  refine ⟨?_, hfit₃⟩
  rw [hlabel] at hblock
  refine ((Labelled.at_label s.body.nextLabel []).and (hblock.and hrest)).mono fun ρ hρ hdone => ?_
  obtain ⟨hnext, hblock, hrest⟩ := hρ
  simp only [armBoundaries, after_ok hresolve, after_ok hbound, after_ok hb]
  have hpre := (flows_patternTest subject u hnext).append (hbind ρ cx.ret.kinds)
  have hsettled := settled_branches hpre hblock (hrest hdone) hnext hdone
  rwa [List.length_append] at hsettled

theorem stmtsSettle_nil : StmtsSettle declared [] := by
  intro cx s t c h hf hsub hfit
  obtain ⟨rfl, rfl⟩ := lowerStmts_nil.mp h
  exact ⟨.of_forall (Nat.le_refl _) fun ρ => ⟨.nil, clear_start⟩, hfit⟩

theorem stmtsSettle_cons {first : Stmt} {rest : List Stmt} (ih : StmtSettles declared first)
    (ihr : StmtsSettle declared rest) : StmtsSettle declared (first :: rest) := by
  intro cx s t c h hf hsub hfit
  obtain ⟨c₁, s₁, c₂, hfirst, hrest, rfl⟩ := lowerStmts_cons.mp h
  rw [stmts, after_ok hfirst, Bool.and_eq_true] at hf
  rw [functionsOf, List.append_subset] at hsub
  obtain ⟨hcode₁, hfit₁⟩ := ih hfirst hf.1 hsub.1 (hfit.logged _)
  obtain ⟨hcode₂, hfit₂⟩ := ihr hrest hf.2 hsub.2 hfit₁
  refine ⟨?_, hfit₂⟩
  refine (hcode₁.and hcode₂).mono fun ρ hρ => ?_
  rw [boundaries, after_ok hfirst]
  have hstart : Settled ρ cx.ret.kinds c₁ (0 :: innerBoundaries cx first _) :=
    ⟨hρ.1.flows, clear_start.append hρ.1.clear⟩
  exact hstart.append hρ.2

theorem blockSettles_of_stmts {scope : ScopeId} {body : List Stmt} {span : Span}
    (ih : StmtsSettle declared body) : BlockSettles declared ⟨scope, body, span⟩ := by
  intro cx s t c h hf hsub hfit
  rw [lowerBlock] at h
  rw [block] at hf
  obtain ⟨hcode, hfit'⟩ := ih h hf hsub (hfit.inside ⟨scope, body, span⟩)
  rw [blockBoundaries]
  exact ⟨hcode, .outside ⟨scope, body, span⟩ hfit'⟩

theorem settles_block {b : Block} (ih : BlockSettles declared b) :
    StmtSettles declared (.block b) := by
  intro cx s t c h hf hsub hfit
  rw [lowerStmt] at h
  rw [stmt] at hf
  rw [innerBoundaries]
  exact ih h hf (by simpa [Stmt.functions] using hsub) hfit

theorem settles_exported {inner : Stmt} (ih : StmtSettles declared inner) :
    StmtSettles declared (.exported inner) := by
  intro cx s t c h hf hsub hfit
  rw [lowerStmt] at h
  rw [stmt_exported] at hf
  rw [innerBoundaries]
  exact ih h hf (by simpa [Stmt.functions] using hsub) hfit

end ClassGen
