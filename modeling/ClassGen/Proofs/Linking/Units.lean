import ClassGen.Proofs.Linking.File
import ClassGen.Proofs.Lowering.Confined

/-! Where the methods of the units of a file come from: bodies of functions that were lowered, and
the few methods that no function is lowered to. -/

namespace ClassGen

open Run

/-- The methods without a function: name and descriptor, and the code in the frame of the method. -/
inductive Generated (file : FileContext) : Access → String → String → (Frame → Code) → Prop
  | init : Generated file .publicFlag Library.constructor "()V"
      fun _ => [Code.loadThis, Code.callSpecial Library.objectInit]
  | classInit : Generated file .staticFlag Library.classInit "()V"
      fun _ => [Code.new file.unitName, .op .dup, Code.construct file.unitName "()V",
        Code.putStatic file.instanceMember]
  | constructor (decl : StructDef) :
      Generated file .publicFlag Library.constructor decl.constructorDescriptor decl.constructorCode
  | text (decl : StructDef) :
      Generated file .publicFlag "toString" "()Ljava/lang/String;" fun _ => decl.toStringCode

/-- A body that was lowered in the run, of a declaration, or a method without a function. -/
inductive MethodOrigin (file : FileContext) (D : List Declaration) (runs : List BodyRun) :
    Method → Prop
  | function {r : BodyRun} {d : Declaration} (hr : r ∈ runs) (hd : d ∈ D) (ho : r.Origin file d)
    (hs : r.Sound file) : MethodOrigin file D runs r.method
  | generated {access : Access} {name descriptor : String} {code : Frame → Code} {frame : Frame}
    (h : Generated file access name descriptor code)
    (hframe : Frame.start access name descriptor = .ok frame) :
    MethodOrigin file D runs (frame.finish (code frame))

variable {file : FileContext} {s t : LowerState} {D : List Declaration} {runs : List BodyRun}

theorem scaffolding_origin {emitInstance : Bool} (h : file.scaffolding emitInstance {} = .ok () t) :
    t.file.structs = [] ∧ ∀ m ∈ t.file.methods, MethodOrigin file D runs m := by
  simp only [FileContext.scaffolding, bind_ok, startFrame_ok, Lower.addMethod, modify_ok] at h
  obtain ⟨init, _, ⟨hinit, rfl⟩, _, _, rfl, h⟩ := h
  have hinitOrigin : MethodOrigin file D runs
      (init.finish [Code.loadThis, Code.callSpecial Library.objectInit]) :=
    .generated .init hinit
  cases emitInstance with
  | false =>
    obtain ⟨-, rfl⟩ := pure_ok.mp h
    exact ⟨rfl, by simpa using hinitOrigin⟩
  | true =>
    simp only [if_true, bind_ok, startFrame_ok, modify_ok] at h
    obtain ⟨clinit, _, ⟨hclinit, rfl⟩, rfl⟩ := h
    exact ⟨rfl, by simpa using ⟨hinitOrigin, .generated .classInit hclinit⟩⟩

/-! ### Code without a function -/

section Code

variable {A : Opcode → UInt16 → Prop} {frame : Frame}

theorem Code.Confined.loadArg (hargs : ∀ a ∈ frame.args, A a.loadOp a.slot.toUInt16) (index : Nat) :
    Code.Confined A [] (frame.loadArg index) := by
  unfold Frame.loadArg
  cases ha : frame.args[index]? with
  | none => exact .of_simple rfl
  | some a => exact .slot (hargs a (List.mem_of_getElem? ha))

theorem Code.Confined.storeFields (hthis : A .aload 0)
    (hargs : ∀ a ∈ frame.args, A a.loadOp a.slot.toUInt16) {owner : StructDef} {index : Nat}
    {fields : List (String × Ty)} : Code.Confined A [] (storeFields frame owner index fields) := by
  induction fields generalizing index with
  | nil => exact .of_simple rfl
  | cons field rest ih =>
    exact (((Code.Confined.slot hthis).append (.loadArg hargs index)).append
      (.of_simple rfl)).append ih

theorem Code.Confined.appendFields (hthis : A .aload 0) {owner : StructDef} {first : Bool}
    {fields : List (String × Ty)} : Code.Confined A [] (appendFields owner first fields) := by
  induction fields generalizing first with
  | nil => exact .of_simple rfl
  | cons field rest ih =>
    have hlabel (text : String) : Code.Confined A [] [Code.pushText text, appendValue .string] :=
      .of_simple rfl
    exact ((hlabel _).append ((Code.Confined.slot hthis).append (.of_simple rfl))).append ih

/-- Nothing but the receiver and the arguments is accessed, and there are no jumps. -/
theorem Generated.confined {access : Access} {name descriptor : String} {code : Frame → Code}
    (h : Generated file access name descriptor code) (hthis : access.isStatic = false → A .aload 0)
    (hargs : ∀ a ∈ frame.args, A a.loadOp a.slot.toUInt16) : (code frame).Confined A [] := by
  cases h with
  | init => exact (Code.Confined.slot (hthis rfl)).append (.of_simple rfl)
  | classInit => exact .of_simple rfl
  | constructor decl =>
    have hinit : Code.Confined A [] [Code.loadThis, Code.callSpecial Library.objectInit] :=
      (Code.Confined.slot (hthis rfl)).append (.of_simple rfl)
    exact hinit.append (.storeFields (hthis rfl) hargs)
  | text decl =>
    show Code.Confined A [] decl.toStringCode
    unfold StructDef.toStringCode
    split_ifs
    · exact .of_simple rfl
    · exact ((Code.Confined.of_simple rfl).append (.appendFields (hthis rfl))).append
        (.of_simple rfl)

end Code

/-! ### Units of structs -/

/-- The unit of a struct. -/
def IsStructUnit (file : FileContext) (unit : ClassUnit) : Prop :=
  ∃ decl s, StructDef.unit decl file s = .ok unit s

theorem IsStructUnit.origin {unit : ClassUnit} (h : IsStructUnit file unit) :
    ∀ m ∈ unit.methods, MethodOrigin file D runs m := by
  obtain ⟨decl, s, h⟩ := h
  simp only [StructDef.unit, bind_ok, startFrame_ok, pure_ok] at h
  obtain ⟨init, _, ⟨hinit, rfl⟩, toText, _, ⟨htext, rfl⟩, rfl, -⟩ := h
  intro m hm
  rcases List.mem_pair.mp hm with rfl | rfl
  · exact .generated (.constructor decl) hinit
  · exact .generated (.text decl) htext

/-- The file got no units but those of structs. -/
def StructsGrow (file : FileContext) (s t : FileState) : Prop :=
  ∀ unit ∈ t.structs, unit ∈ s.structs ∨ IsStructUnit file unit

namespace StructsGrow

theorem of_eq {s t : FileState} (h : t.structs = s.structs) : StructsGrow file s t :=
  fun _ hmem => .inl (h ▸ hmem)

theorem trans {s t u : FileState} (hst : StructsGrow file s t) (htu : StructsGrow file t u) :
    StructsGrow file s u :=
  fun unit hmem => (htu unit hmem).elim (hst unit) .inr

theorem expr {cx : BodyContext} {e : Expr} {v : Lowered} (h : lowerExpr cx e s = .ok v t) :
    StructsGrow file s.file t.file :=
  of_eq (lowerExpr_kept h).structs

theorem struct {scope : ScopeId} {name : String} {span : Span}
    (h : lowerStruct file scope name span s = .ok () t) : StructsGrow file s.file t.file := by
  obtain rfl | ⟨decl, _, unit, -, hunit, rfl⟩ := lowerStruct_ok h
  · exact of_eq rfl
  · intro other hmem
    rcases List.mem_append.mp hmem with hmem | hmem
    · exact .inl hmem
    · rw [List.mem_singleton.mp hmem]
      exact .inr ⟨decl, s, hunit⟩

/-- A body, with what its statements do. -/
theorem body {plan : MethodPlan} {b : Block}
    (ih : ∀ {cx : BodyContext} {s t : LowerState} {c : Code}, lowerStmts cx [] b.body s = .ok c t →
      StructsGrow cx.file s.file t.file)
    (h : lowerBody file plan b s = .ok () t) : StructsGrow file s.file t.file := by
  cases hemitted : plan.emitted s with
  | true =>
    obtain ⟨_, _, rfl⟩ := lowerBody_emitted hemitted h
    exact of_eq rfl
  | false =>
    obtain ⟨frame, code, u, -, hcode, rfl⟩ := (lowerBody_new hemitted).mp h
    exact ih hcode

/-- Actions one after the other. -/
theorem each {α : Type} {act : α → Lower Unit} {list : List α}
    (hact : ∀ a ∈ list, ∀ {s t : LowerState}, act a s = .ok () t → StructsGrow file s.file t.file)
    (h : list.forM act s = .ok () t) : StructsGrow file s.file t.file := by
  induction list generalizing s with
  | nil =>
    obtain ⟨-, rfl⟩ := pure_ok.mp h
    exact of_eq rfl
  | cons a rest ih =>
    obtain ⟨_, s₁, ha, hrest⟩ := bind_ok.mp h
    exact (hact a List.mem_cons_self ha).trans
      (ih (fun b hb => hact b (List.mem_cons_of_mem _ hb)) hrest)

end StructsGrow

mutual

theorem lowerStmt_structs : ∀ {cx : BodyContext} {stmt : Stmt} {s t : LowerState} {c : Code},
    lowerStmt cx stmt s = .ok c t → StructsGrow cx.file s.file t.file := by
  intro cx stmt s t c h
  cases stmtRun_of_ok h with
  | expr hv => exact .expr hv
  | var ht hvoid hv hvv =>
    have hinit : StructsGrow cx.file s.file _ := .expr hv
    exact hinit
  | function hf => exact lowerFunction_structs hf
  | struct hs => exact .struct hs
  | leave hret he => exact .of_eq rfl
  | discard hret he hv => exact .expr hv
  | ret hret he hv hvv => exact .expr hv
  | ifThen hv hvv hb => exact (StructsGrow.expr hv).trans (lowerBlock_structs hb)
  | ifElse hv hvv hb he =>
    have hbranch := lowerStmt_structs he
    exact ((StructsGrow.expr hv).trans (lowerBlock_structs hb)).trans hbranch
  | whileLoop hv hvv hb => exact (StructsGrow.expr hv).trans (lowerBlock_structs hb)
  | forEach hv hit htype hb =>
    have hbody := lowerBlock_structs hb
    exact (StructsGrow.expr hv).trans hbody
  | matchType hv hvv ha =>
    have harms := lowerArms_structs ha
    exact (StructsGrow.expr hv).trans harms
  | block hb => exact lowerBlock_structs hb
  | exported hi => exact lowerStmt_structs hi
  | nothing h => exact .of_eq rfl

theorem lowerBlock_structs : ∀ {cx : BodyContext} {b : Block} {s t : LowerState} {c : Code},
    lowerBlock cx b s = .ok c t → StructsGrow cx.file s.file t.file
  | _, ⟨_, _, _⟩, _, _, _, h => by
    rw [lowerBlock] at h
    have hbody := lowerStmts_structs h
    exact hbody

theorem lowerStmts_structs : ∀ {cx : BodyContext} {body : List Stmt} {s t : LowerState} {c : Code},
    lowerStmts cx [] body s = .ok c t → StructsGrow cx.file s.file t.file
  | _, [], _, _, _, h => by
    obtain ⟨-, rfl⟩ := lowerStmts_nil.mp h
    exact .of_eq rfl
  | _, stmt :: rest, _, _, _, h => by
    obtain ⟨c₁, s₁, c₂, hc, hrest, rfl⟩ := lowerStmts_cons.mp h
    exact (lowerStmt_structs hc).trans (lowerStmts_structs hrest)

theorem lowerArms_structs : ∀ {cx : BodyContext} {subject : Nat} {done : Label} {arms : List Arm}
    {s t : LowerState} {c : Code}, lowerArms cx subject done arms s = .ok c t → StructsGrow cx.file
      s.file t.file
  | _, _, _, [], _, _, _, h => by
    obtain ⟨-, rfl⟩ := pure_ok.mp h
    exact .of_eq rfl
  | cx, _, _, ⟨pattern, binding, body, span⟩ :: rest, s, _, _, h => by
    obtain ⟨_, _, s₁, _, s₂, _, -, hbound, hb, ha, -⟩ := lowerArms_cons h
    have hfile := bindSubject_file hbound
    have hopen : StructsGrow cx.file s.file s₁.file := .of_eq (congrArg FileState.structs hfile)
    exact (hopen.trans (lowerBlock_structs hb)).trans (lowerArms_structs ha)

theorem lowerFunction_structs : ∀ {file : FileContext} {scope : ScopeId} {decl : FunctionDecl}
    {s t : LowerState}, lowerFunction file scope decl s = .ok () t → StructsGrow file s.file t.file
  | _, _, ⟨name, ⟨scope, body, _⟩, span⟩, _, _, h => by
    obtain ⟨sig, -, h⟩ := lowerFunction_ok.mp h
    split_ifs at h
    · simp only [defer, bind_ok, Lower.log_ok, modify_ok] at h
      obtain ⟨_, _, rfl, rfl⟩ := h
      exact .of_eq rfl
    · exact .body (fun hbody => @lowerStmts_structs _ body _ _ _ hbody) h

end

theorem lowerTop_structs {st : Stmt} (h : lowerTop file st s = .ok () t) :
    StructsGrow file s.file t.file := by
  induction topRun_of_ok h with
  | function h => exact lowerFunction_structs h
  | struct h => exact .struct h
  | exported hinner ih => exact ih h
  | use | typeAlias | unionType => exact .of_eq rfl

theorem lowerPending_structs {name : String} (h : lowerPending file name s = .ok () t) :
    StructsGrow file s.file t.file := by
  obtain ⟨decl, -, h⟩ := lowerPending_ok.mp h
  split at h
  · exact .of_eq (congrArg (·.file.structs) h.symm)
  · refine StructsGrow.trans (t := (s.handedOut name).file) (.of_eq rfl)
      (.each (fun map _ _ _ hrun => ?_) h)
    obtain ⟨plan, -, hbody⟩ := lowerInstance_ok.mp hrun
    exact .body lowerStmts_structs hbody

theorem drain_structs {rounds : Nat} {complete : Bool} (h : drain file rounds s = .ok complete t) :
    StructsGrow file s.file t.file := by
  induction rounds generalizing s with
  | zero =>
    obtain ⟨-, rfl⟩ := drain_zero.mp h
    exact .of_eq rfl
  | succ rounds ih =>
    have hround := drain_succ.mp h
    split_ifs at hround with hnames
    · exact .of_eq (congrArg (·.file.structs) hround.2.symm)
    · obtain ⟨u, hround, hrest⟩ := hround
      exact (StructsGrow.each (fun _ _ _ _ hrun => lowerPending_structs hrun) hround).trans
        (ih hrest)

/-- Every method of every unit of a compiled file is one of these. -/
theorem SourceFile.methodOrigin {f : SourceFile} {rounds : Nat} {options : Options}
    {c : CompiledFile} (h : f.compiled? rounds options = some c) : ∀ u ∈ c.units, ∀ m ∈ u.methods,
      MethodOrigin (FileContext.ofSource f options) f.declarations
        (f.trail rounds options).runs m := by
  obtain ⟨final, hlowered, rfl⟩ := Option.map_eq_some_iff.mp h
  obtain ⟨t, hrun, rfl⟩ := lowered?_eq_some.mp hlowered
  obtain ⟨base, hscaffolding, ⟨done, hs⟩, -⟩ := lowerFile_between hrun
  obtain ⟨s₁, s₂, s₃, hscaffolding', htop, hdrain, rfl⟩ := lowerFile_ok.mp hrun
  obtain ⟨-, rfl⟩ := EStateM.Result.ok.inj (hscaffolding.symm.trans hscaffolding')
  obtain ⟨hstructs, hbase⟩ := scaffolding_origin hscaffolding
  intro u hu m hm
  rcases List.mem_cons.mp hu with rfl | hu
  · have hm : m ∈ base.file.methods ++ (f.trail rounds options).runs.map BodyRun.method :=
      hs.advances.methods ▸ hm
    rcases List.mem_append.mp hm with hm | hm
    · exact hbase m hm
    · obtain ⟨r, hr, rfl⟩ := List.mem_map.mp hm
      obtain ⟨d, hd, ho⟩ := hs.origin r hr
      exact .function hr hd ho (hs.advances.sound r hr)
  · have hgrow := (StructsGrow.each (fun _ _ _ _ hact => lowerTop_structs hact) htop).trans
      (drain_structs hdrain)
    rcases hgrow u hu with hu | hunit
    · rw [hstructs] at hu
      cases hu
    · exact hunit.origin m hm

end ClassGen
