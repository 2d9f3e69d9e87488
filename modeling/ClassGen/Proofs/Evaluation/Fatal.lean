import ClassGen.Proofs.Evaluation.Parts

/-! Constructs that have no code. Wherever one stands in a body, the file is not compiled: no part
of a body is passed over. -/

namespace ClassGen

open Run

/-- The name or the field that is assigned to. -/
def Expr.isTarget : Expr → Bool
  | .ident _ _ => true
  | .property _ _ fields => !fields.isEmpty
  | _ => false

/-- There is no code for the part, in a body under `bindings`: an index, a power that is no text, an
assignment to what is no target, a name that no scope around it has, an enum or a parameter. -/
def BodyPart.isFatal (scopes : ScopeTree) (bindings : Bindings) : BodyPart → Bool
  | .expr _ (.index _ _ _) => true
  | .expr _ (.binary note .pow _ _) =>
    match Specialization.resolve bindings note.type with
    | .ok t => !t.isString
    | .error _ => true
  | .expr _ (.assign _ target _) => !target.isTarget
  | .expr scope (.ident _ name) => (scopes.lookup scope name).isNone
  | .stmt _ (.enum _ _) | .stmt _ (.parameter _ _) => true
  | _ => false

variable {cx : BodyContext} {s t : LowerState} {v : Lowered}

/-- Powers have no plan, so a power that is lowered is a text. -/
theorem resolve_of_pow {note : Note} {left right : Expr}
    (h : lowerExpr cx (.binary note .pow left right) s = .ok v t) :
    Specialization.resolve cx.bindings note.type = .ok .string := by
  cases exprRun_of_ok h with
  | concat hs _ _ _ _ _ => exact hs
  | logic hop _ _ _ _ => rcases hop with hop | hop <;> cases hop
  | planned _ _ hplan _ _ _ _ =>
    obtain ⟨hnone, -⟩ := (BinaryOp.plan?_ok_arithmetic rfl (by decide)).mp hplan
    simp [BinaryOp.arithmeticPlan?, BinaryOp.arithmetic?] at hnone
  | absent hn => cases hn

theorem isTarget_of_assign {note : Note} {target value : Expr}
    (h : lowerExpr cx (.assign note target value) s = .ok v t) :
    target.isTarget = true := by
  cases exprRun_of_ok h with
  | assignName _ _ _ => rfl
  | @assignField _ _ _ fields _ _ _ _ _ _ _ _ _ _ _ hlast _ _ _ _ _ _ =>
    cases fields with
    | nil => cases hlast
    | cons field rest => rfl
  | absent hn => cases hn

theorem lookup_of_ident {note : Note} {name : String}
    (h : lowerExpr cx (.ident note name) s = .ok v t) :
    (cx.file.scopes.lookup cx.scope name).isSome = true := by
  cases exprRun_of_ok h with
  | ident hst => exact (BodyContext.storageOf_ok.mp hst).1
  | absent hn => cases hn

/-- What was lowered is not fatal. -/
theorem BodyPart.LoweredIn.isFatal {p : BodyPart} {code : Code} (h : p.LoweredIn cx code) :
    p.isFatal cx.file.scopes cx.bindings = false := by
  cases p with
  | expr scope e =>
    obtain ⟨s, v, t, hrun, -⟩ := h
    cases e with
    | index note target position => simp only [lowerExpr, throw_ok] at hrun
    | binary note op left right =>
      cases op with
      | pow =>
        have hresolve := resolve_of_pow hrun
        simp only [BodyPart.isFatal, hresolve]
        rfl
      | _ => rfl
    | assign note target value => simp [BodyPart.isFatal, isTarget_of_assign hrun]
    | ident note name => simpa [BodyPart.isFatal] using lookup_of_ident hrun
    | _ => rfl
  | stmt scope st =>
    obtain ⟨s, c, t, hrun, -⟩ := h
    cases st with
    | enum span name => simp only [lowerStmt, throw_ok] at hrun
    | parameter span name => simp only [lowerStmt, throw_ok] at hrun
    | _ => rfl

/-- In a file that compiles, no body that became a method has a fatal part, and all methods but
constructors and initializers are such bodies. -/
theorem compile_no_fatal {f : SourceFile} {rounds : Nat} {options : Options} {c : CompiledFile}
    {trace : List Event} (h : f.compileWithin rounds options = some ⟨.ok c, trace⟩) :
    (∀ m ∈ c.fileUnit.methods, m.name = Library.constructor ∨ m.name = Library.classInit ∨
      ∃ r ∈ (f.trail rounds options).runs, r.method = m) ∧
      ∀ r ∈ (f.trail rounds options).runs, r.method ∈ c.fileUnit.methods ∧
        r.plan.Lowers (FileContext.ofSource f options) r.body r.method ∧
        ∀ p ∈ r.body.parts, p.isFatal (FileContext.ofSource f options).scopes r.plan.bindings =
          false := by
  obtain ⟨hmethods, hruns⟩ := SourceFile.runs_of_compile h
  refine ⟨hmethods, fun r hr => ?_⟩
  obtain ⟨hmem, hsound⟩ := hruns r hr
  obtain ⟨frame, -, hparts⟩ := hsound.parts
  exact ⟨hmem, hsound.lowers, fun p hp => (hparts p hp).isFatal⟩

/-- `x ^ x` for an `x` of any type. -/
def samplePower : Expr :=
  let note : Note := ⟨.generic "T", {}⟩
  .binary note .pow (.ident note "x") (.ident note "x")

/-- A function returns this power, and in a loop it is called with a text. -/
def powerSource : SourceFile :=
  let item : Ty := .generic "T"
  { path := "demo/power.ix"
    scopes := ⟨#[
      { parent := none
        vars := [("twice", .function ⟨"twice", [("x", item)], item, .user none⟩),
          ("main", .function ⟨"main", [], .void, .user none⟩)] },
      { parent := some 0, vars := [("x", item)] },
      { parent := some 0, vars := [("text", .string)] }, { parent := some 2 }]⟩
    body := [
      .function ⟨"twice", ⟨1, [.ret {} samplePower], {}⟩, {}⟩,
      .function ⟨"main", ⟨2, [.var {} "text" (.literal ⟨.string, {}⟩ (.text "a")),
        .whileLoop {} (.literal ⟨.boolean, {}⟩ (.bool true)) ⟨3, [.expr (.assign ⟨.void, {}⟩
          (.ident ⟨.string, {}⟩ "text") (.call ⟨.string, {}⟩ (.ident ⟨.void, {}⟩ "twice")
            [.ident ⟨.string, {}⟩ "text"]))], {}⟩], {}⟩, {}⟩] }

/-- The power is fatal unless the instantiation is for texts. -/
example : ([[], [("T", .int)], [("T", .string)]] : List Bindings).map
      (fun bindings => BodyPart.isFatal powerSource.scopes bindings (.expr 1 samplePower)) =
    [true, true, false] := by decide +kernel

theorem compile_no_fatal_power :
    ∃ c trace, powerSource.compile {} = some ⟨.ok c, trace⟩ ∧
      (powerSource.trail roundLimit {}).runs.map (fun r => (r.plan.name, r.body.parts.length)) =
        [("main", 8), ("_twice", 4)] ∧
      ∀ r ∈ (powerSource.trail roundLimit {}).runs, ∀ p ∈ r.body.parts,
        p.isFatal (FileContext.ofSource powerSource {}).scopes r.plan.bindings = false := by
  have hcompiles : (powerSource.compiled? roundLimit {}).isSome = true := by decide +kernel
  have hruns : (powerSource.trail roundLimit {}).runs.map
      (fun r => (r.plan.name, r.body.parts.length)) =
      [("main", 8), ("_twice", 4)] := by decide +kernel
  obtain ⟨c, hc⟩ := Option.isSome_iff_exists.mp hcompiles
  obtain ⟨trace, hcompile⟩ := SourceFile.compiled?_eq_some.mp hc
  exact ⟨c, trace, hcompile, hruns, fun r hr => ((compile_no_fatal hcompile).2 r hr).2.2⟩

end ClassGen
