import ClassGen.Proofs.Lowering.Confined
import ClassGen.Proofs.Lowering.Stmt
import ClassGen.Proofs.Slots.Cells
import ClassGen.Proofs.StackKinds.Stmt

/-! Lowering a body gives each of its variables a cell of its own. Code that is lowered later leaves
the cells where they are, so that accesses stay what they were. -/

namespace ClassGen

open Run

/-! ### Variables -/

mutual

/-- The variables of a statement, those of functions inside it apart. The iterator of a loop and the
subject of a match have no name. -/
def Stmt.variables : Stmt → List (Option String)
  | .var _ name _ => [some name]
  | .ifElse _ _ body none => body.variables
  | .ifElse _ _ body (some branch) => body.variables ++ branch.variables
  | .whileLoop _ _ body | .block body => body.variables
  | .forEach _ binding _ body => [none, some binding] ++ body.variables
  | .matchType _ _ arms => [none] ++ variablesOfArms arms
  | .exported inner => inner.variables
  | .expr _ | .function _ | .struct _ _ | .ret _ _ | .use _ _ | .typeAlias _ _
  | .unionType _ _ | .enum _ _
  | .parameter _ _ => []

def Block.variables : Block → List (Option String)
  | ⟨_, body, _⟩ => variablesOf body

def variablesOf : List Stmt → List (Option String)
  | [] => []
  | first :: rest => first.variables ++ variablesOf rest

def variablesOfArms : List Arm → List (Option String)
  | [] => []
  | ⟨_, binding, body, _⟩ :: rest =>
    (if binding.isEmpty then [] else [some binding]) ++ body.variables ++ variablesOfArms rest

end

theorem Block.variables_eq (b : Block) : b.variables = variablesOf b.body := by
  cases b
  rw [Block.variables]

theorem Stmt.variables_exported (inner : Stmt) :
    (Stmt.exported inner).variables = inner.variables := by
  rw [Stmt.variables]

/-! ### Cells of the variables so far -/

/-- An access to the first slot of a cell, as far as an instruction can name that. -/
def Cell.Accessed (cells : List Cell) (op : Opcode) (n : UInt16) : Prop :=
  ∃ slot k, Cell.at? cells slot = some k ∧ k.Has op ∧ slot.toUInt16 = n

/-- The cells are those of the arguments and of the variables so far. -/
structure Laid (cx : BodyContext) (cells : List Cell) (s : LowerState) : Prop where
  span : Cell.span cells = s.body.nextSlot
  args : ∀ a ∈ cx.frame.args, Cell.at? cells a.slot = some a.type.cell
  locals : ∀ entry ∈ s.body.locals, Cell.at? cells entry.2.slot =
    some entry.2.type.representation.cell

variable {cx : BodyContext} {cells more : List Cell} {s t : LowerState} {op : Opcode}
  {n : UInt16} {c : Code} {exits : List Label} {vars : List (Option String)}

theorem Cell.Accessed.append (h : Cell.Accessed cells op n) :
    Cell.Accessed (cells ++ more) op n := by
  obtain ⟨slot, k, hat, hhas, rfl⟩ := h
  exact ⟨slot, k, Cell.at?_append hat, hhas, rfl⟩

theorem Code.Confined.grow (h : c.Confined (Cell.Accessed cells) exits) (more : List Cell) :
    c.Confined (Cell.Accessed (cells ++ more)) exits :=
  h.allow fun _ _ => Cell.Accessed.append

namespace Laid

theorem congr (h : Laid cx cells s) (hlocals : t.body.locals = s.body.locals)
    (hslot : t.body.nextSlot = s.body.nextSlot) : Laid cx cells t :=
  ⟨h.span.trans hslot.symm, h.args, hlocals ▸ h.locals⟩

theorem expr {e : Expr} {v : Lowered} (h : Laid cx cells s) (hv : lowerExpr cx e s = .ok v t) :
    Laid cx cells t :=
  h.congr (lowerExpr_kept hv).locals (lowerExpr_untouched hv).nextSlot

theorem withSlot (h : Laid cx cells s) (repr : Representation) : Laid cx (cells ++ [repr.cell])
    (s.withSlot repr) where
  span := by
    rw [Cell.span_append, h.span, Cell.span_cons, Cell.span_nil, ← Representation.slots_eq]
    rfl
  args a ha := Cell.at?_append (h.args a ha)
  locals entry hentry := Cell.at?_append (h.locals entry hentry)

theorem withLocal (h : Laid cx cells s) (scope : ScopeId) (name : String) (type : Ty) :
    Laid cx (cells ++ [type.representation.cell]) (s.withLocal scope name type) where
  span := (h.withSlot type.representation).span
  args a ha := Cell.at?_append (h.args a ha)
  locals entry hentry := by
    rcases Dict.mem_insert hentry with rfl | hentry
    · show Cell.at? _ s.body.nextSlot = _
      rw [← h.span]
      exact Cell.at?_span _ _ _
    · exact Cell.at?_append (h.locals entry hentry)

/-- The next slot, once a cell is there for it. -/
theorem accessed_next (h : Laid cx cells s) (repr : Representation) (more : List Cell) :
    Cell.Accessed (cells ++ repr.cell :: more) repr.loadOp s.body.nextSlot.toUInt16 ∧
      Cell.Accessed (cells ++ repr.cell :: more) repr.storeOp s.body.nextSlot.toUInt16 := by
  have hat := Cell.at?_span cells repr.cell more
  rw [h.span] at hat
  exact ⟨⟨_, _, hat, .inl repr.loadOp_eq, rfl⟩, ⟨_, _, hat, .inr repr.storeOp_eq, rfl⟩⟩

/-- Variables in sight have cells. -/
theorem sight (h : Laid cx cells s) (hsight : cx.InSight s.body.locals op n) :
    Cell.Accessed cells op n := by
  have hlocal {key : ScopeId × String} {l : LocalVar} (hl : s.body.locals.lookup key = some l) :
      Cell.at? cells l.slot = some l.type.representation.cell := by
    obtain ⟨before, after, heq, -⟩ := List.lookup_eq_some_iff.mp hl
    exact h.locals (key, l) (heq ▸ List.mem_append_right _ List.mem_cons_self)
  cases hsight with
  | load hid hl => exact ⟨_, _, hlocal hl, .inl (Representation.loadOp_eq _), rfl⟩
  | store hid hl => exact ⟨_, _, hlocal hl, .inr (Representation.storeOp_eq _), rfl⟩
  | loadArg ha => exact ⟨_, _, h.args _ ha, .inl (Arg.loadOp_eq _), rfl⟩
  | storeArg ha => exact ⟨_, _, h.args _ ha, .inr (Arg.storeOp_eq _), rfl⟩

theorem confined {e : Expr} {v : Lowered} (h : Laid cx cells s) (hv : lowerExpr cx e s = .ok v t) :
    v.code.Confined (Cell.Accessed cells) exits :=
  (lowerExpr_confined hv).loosen.allow fun _ _ => h.sight

/-- The test of a statement and the jump away from it. -/
theorem test {e : Expr} {v : Lowered} {k : Nat} {target : Label} (h : Laid cx cells s)
    (hv : lowerExpr cx e (s.skip k) = .ok v t) (htarget : target ∈ exits) :
    Code.Confined (Cell.Accessed cells) exits
      ((v.code ++ coerce v.type .boolean) ++ [Instr.jump .ifeq target]) ∧
      Laid cx cells t := by
  have hskip : Laid cx cells (s.skip k) := h.congr rfl rfl
  exact ⟨((hskip.confined hv).coerced _).append (.jump htarget), hskip.expr hv⟩

end Laid

/-! ### Fragments of loops and matches -/

section Fragments

variable {A : Opcode → UInt16 → Prop} {subject iterator : Nat}

theorem Code.Confined.nextElement {type : Ty} {done : Label} (hload : A .aload iterator.toUInt16)
    (hdone : done ∈ exits) :
    Code.Confined A exits ([Code.loadSlot iterator .reference,
      Code.callInterface Library.iteratorHasNext, .jump .ifeq done,
      Code.loadSlot iterator .reference, Code.callInterface Library.iteratorNext] ++
        coerce .object type) := by
  have hnext : Code.Confined A exits [Code.loadSlot iterator .reference,
      Code.callInterface Library.iteratorNext] :=
    (Code.Confined.slot hload).append (.of_simple rfl)
  have htest : Code.Confined A exits [Code.loadSlot iterator .reference,
      Code.callInterface Library.iteratorHasNext, .jump .ifeq done] :=
    ((Code.Confined.slot hload).append (b := [Code.callInterface Library.iteratorHasNext])
      (.of_simple rfl)).append
      (.jump hdone)
  exact (htest.append hnext).append (.of_simple (all_simple_coerce _ _))

theorem Code.Confined.advanceLoop {element : LocalVar} {done : Label}
    (hload : A .aload iterator.toUInt16)
    (hstore : A element.type.representation.storeOp element.slot.toUInt16) (hdone : done ∈ exits) :
    Code.Confined A exits (advanceLoop iterator element done) :=
  (Code.Confined.nextElement hload hdone).append (.slot hstore)

theorem Code.Confined.patternTest {next : Label} {pattern : Ty} (hload : A .aload subject.toUInt16)
    (hnext : next ∈ exits) : Code.Confined A exits (patternTest subject next pattern) := by
  have hjump : Code.Confined A exits [.jump .ifeq next] := .jump hnext
  have hclass : Code.Confined A exits [Code.loadSlot subject .reference,
      Code.instanceOf pattern.className, .jump .ifeq next] :=
    ((Code.Confined.slot hload).append (b := [Code.instanceOf pattern.className])
      (.of_simple rfl)).append hjump
  unfold ClassGen.patternTest
  split
  · next element =>
    refine hclass.append ((Code.Confined.slot hload).append
      (Code.Confined.append (a := [_, _, _, _]) ?_ hjump))
    exact .of_simple rfl
  · exact hclass.append (.of_simple rfl)

theorem Code.Confined.boundSubject {pattern : Ty} (hload : A .aload subject.toUInt16) :
    (boundSubject subject pattern).code.Confined A exits := by
  have hslot : Code.Confined A exits [Code.loadSlot subject .reference] := .slot hload
  have hcoerced (t : Ty) : Code.Confined A exits
      (Code.loadSlot subject .reference :: coerce .object t) :=
    hslot.append (.of_simple (all_simple_coerce _ _))
  have hcast : Code.Confined A exits [Code.loadSlot subject .reference,
      Code.checkcast pattern.className] :=
    hslot.append (.of_simple rfl)
  unfold ClassGen.boundSubject
  split
  · exact hcast
  · split_ifs
    · exact hcast.append (.of_simple (all_simple_unboxUnchecked _))
    · exact hcoerced _
  · exact hcoerced _

end Fragments

/-! ### What lowering adds -/

/-- Behind the cells there are now some for these variables, and the code keeps to its cells. -/
def Lays (cx : BodyContext) (cells : List Cell) (vars : List (Option String))
    (exits : List Label) (c : Code) (t : LowerState) : Prop :=
  ∃ more, more.length = vars.length ∧ .long ∉ more ∧ Laid cx (cells ++ more) t ∧
    c.Confined (Cell.Accessed (cells ++ more)) exits

namespace Lays

variable {a b : Code} {others : List (Option String)} {l : Label} {further : List Label}

theorem nothing (h : Laid cx cells t) (hc : c.Confined (Cell.Accessed cells) exits) :
    Lays cx cells [] exits c t :=
  ⟨[], rfl, by simp, by rwa [List.append_nil], by rwa [List.append_nil]⟩

theorem andThen (ha : Lays cx cells vars exits a s)
    (hb : ∀ more, Laid cx (cells ++ more) s → Lays cx (cells ++ more) others exits b t) :
    Lays cx cells (vars ++ others) exits (a ++ b) t := by
  obtain ⟨first, hlength, hlong, hlaid, hconfined⟩ := ha
  obtain ⟨more, hlength', hlong', hlaid', hconfined'⟩ := hb first hlaid
  have hfirst := hconfined.grow more
  rw [List.append_assoc] at hlaid' hconfined' hfirst
  exact ⟨first ++ more, by simp [hlength, hlength'], by simp [hlong,
    hlong'], hlaid', hfirst.append hconfined'⟩

/-- A cell that is already there counts as one of the new ones. -/
theorem behind {k : Cell} {var : Option String} (h : Lays cx (cells ++ [k]) vars exits c t)
    (hlong : k ≠ .long) : Lays cx cells (var :: vars) exits c t := by
  obtain ⟨more, hlength, hlong', hlaid, hconfined⟩ := h
  rw [List.append_assoc] at hlaid hconfined
  exact ⟨k :: more, by simp [hlength], by simp [hlong.symm, hlong'], hlaid, hconfined⟩

/-- Code before it that accesses what was there. -/
theorem after (h : Lays cx cells vars exits b t) (ha : a.Confined (Cell.Accessed cells) exits) :
    Lays cx cells vars exits (a ++ b) t := by
  obtain ⟨more, hlength, hlong, hlaid, hconfined⟩ := h
  exact ⟨more, hlength, hlong, hlaid, (ha.grow more).append hconfined⟩

theorem before (h : Lays cx cells vars exits a t) (hb : b.Confined (Cell.Accessed cells) exits) :
    Lays cx cells vars exits (a ++ b) t := by
  obtain ⟨more, hlength, hlong, hlaid, hconfined⟩ := h
  exact ⟨more, hlength, hlong, hlaid, hconfined.append (hb.grow more)⟩

theorem exiting (h : Lays cx cells vars exits c t)
    (hexits : ∀ l ∈ exits, .mark l ∈ c ∨ l ∈ further) : Lays cx cells vars further c t := by
  obtain ⟨more, hlength, hlong, hlaid, hconfined⟩ := h
  exact ⟨more, hlength, hlong, hlaid, hconfined.exiting hexits⟩

theorem loosen (h : Lays cx cells vars [] c t) : Lays cx cells vars exits c t := h.exiting (by simp)

theorem thenGoto (h : Lays cx cells vars [] b t) (hl : Code.fallsThrough b = true → l ∈ exits) :
    Lays cx cells vars exits (thenGoto b l) t := by
  unfold ClassGen.thenGoto
  split_ifs with hfalls
  · exact h.loosen.before (.jump (hl hfalls))
  · exact h.loosen

end Lays

def StmtLays (st : Stmt) : Prop :=
  ∀ {cx : BodyContext} {cells : List Cell} {s t : LowerState} {c : Code},
    lowerStmt cx st s = .ok c t →
    Laid cx cells s → Lays cx cells st.variables [] c t

def BlockLays (b : Block) : Prop :=
  ∀ {cx : BodyContext} {cells : List Cell} {s t : LowerState} {c : Code},
    lowerBlock cx b s = .ok c t →
    Laid cx cells s → Lays cx cells b.variables [] c t

def StmtsLay (body : List Stmt) : Prop :=
  ∀ {cx : BodyContext} {cells : List Cell} {s t : LowerState} {c : Code},
    lowerStmts cx [] body s = .ok c t →
    Laid cx cells s → Lays cx cells (variablesOf body) [] c t

/-- The arms leave to `done`. -/
def ArmsLay (arms : List Arm) : Prop :=
  ∀ {cx : BodyContext} {cells : List Cell} {subject : Nat} {done : Label}
    {s t : LowerState} {c : Code}, lowerArms cx subject done arms s = .ok c t → Laid cx cells s →
      Cell.at? cells subject = some .ref →
      Lays cx cells (variablesOfArms arms) [done] c t

/-! ### Statements -/

theorem lays_expr (value : Expr) : StmtLays (.expr value) := by
  intro cx cells s t c h hlaid
  cases stmtRun_of_ok h with
  | expr hv =>
    rw [Stmt.variables]
    exact .nothing (hlaid.expr hv) (hlaid.confined hv).dropped
  | nothing hn => cases hn

theorem lays_var (span : Span) (name : String) (init : Expr) : StmtLays (.var span name init) := by
  intro cx cells s t c h hlaid
  cases stmtRun_of_ok h with
  | var ht hvoid hv hvv =>
    rename_i v s₁ type
    rw [Stmt.variables]
    have hvalue : Code.Confined (Cell.Accessed cells) [] (v.code ++ coerce v.type type) :=
      (hlaid.confined hv).coerced type
    have hstore := (hlaid.expr hv).accessed_next type.representation []
    refine Lays.behind (.nothing ((hlaid.expr hv).withLocal cx.scope name type) ?_)
      type.representation.cell_ne_long
    exact (hvalue.grow _).append (.slot hstore.2)
  | nothing hn => cases hn

theorem lays_ret (span : Span) (value : Expr) : StmtLays (.ret span value) := by
  intro cx cells s t c h hlaid
  rw [Stmt.variables]
  cases stmtRun_of_ok h with
  | leave hret he => exact .nothing hlaid (.of_simple rfl)
  | discard hret he hv =>
      exact .nothing (hlaid.expr hv) ((hlaid.confined hv).dropped.append (.of_simple rfl))
  | ret hret he hv hvv =>
      exact .nothing (hlaid.expr hv) (((hlaid.confined hv).coerced _).append (.of_simple rfl))
  | nothing hn => cases hn

theorem lays_ifThen {span : Span} {test : Expr} {body : Block} (ih : BlockLays body) :
    StmtLays (.ifElse span test body none) := by
  intro cx cells s t c h hlaid
  cases stmtRun_of_ok h with
  | ifThen hv hvv hb =>
    rw [Stmt.variables]
    obtain ⟨htest, hlaid'⟩ := hlaid.test hv (List.mem_singleton_self s.body.nextLabel)
    exact (((ih hb hlaid').loosen.after htest).before (.of_simple rfl)).exiting (by simp)
  | nothing hn => cases hn

theorem lays_ifElse {span : Span} {test : Expr} {body : Block} {branch : Stmt} (ih : BlockLays body)
    (ihb : StmtLays branch) : StmtLays (.ifElse span test body (some branch)) := by
  intro cx cells s t c h hlaid
  cases stmtRun_of_ok h with
  | ifElse hv hvv hb he =>
    rename_i s₁ s₂ v b e
    rw [Stmt.variables]
    -- The end is an exit only if the first branch comes to it.
    let exits := s.body.nextLabel :: if Code.fallsThrough b then [s₂.body.nextLabel] else []
    obtain ⟨htest, hlaid'⟩ := hlaid.test hv (List.mem_cons_self : s.body.nextLabel ∈ exits)
    have hbody : Lays cx cells body.variables exits (thenGoto b s₂.body.nextLabel) s₂ :=
      (ih hb hlaid').thenGoto fun hfalls => by simp [exits, hfalls]
    have hfirst := (hbody.after htest).before (b := [.mark s.body.nextLabel]) (.of_simple rfl)
    have hboth := hfirst.andThen fun more hmore => (ihb he (hmore.congr rfl rfl)).loosen
    refine (hboth.before ?_).exiting fun l hl => .inl ?_
    · split_ifs <;> exact .of_simple rfl
    · rcases List.mem_cons.mp hl with rfl | hl
      · simp
      · split_ifs at hl ⊢
        · simp [List.mem_singleton.mp hl]
        · cases hl
  | nothing hn => cases hn

theorem lays_whileLoop {span : Span} {test : Expr} {body : Block} (ih : BlockLays body) :
    StmtLays (.whileLoop span test body) := by
  intro cx cells s t c h hlaid
  cases stmtRun_of_ok h with
  | whileLoop hv hvv hb =>
    rename_i s₁ v b
    rw [Stmt.variables]
    let exits := [s.body.nextLabel, s.body.nextLabel + 1]
    obtain ⟨htest, hlaid'⟩ := hlaid.test hv (by simp [exits] : s.body.nextLabel + 1 ∈ exits)
    have hstart : Code.Confined (Cell.Accessed cells) exits [.mark s.body.nextLabel] :=
      .of_simple rfl
    have hback : Code.Confined (Cell.Accessed cells) exits
        [Code.goto s.body.nextLabel, .mark (s.body.nextLabel + 1)] :=
      (Code.Confined.jump List.mem_cons_self).append (.of_simple rfl)
    exact (((ih hb hlaid').loosen.after (hstart.append htest)).before hback).exiting
      (by simp [exits])
  | nothing hn => cases hn

theorem lays_forEach {span : Span} {binding : String} {iterable : Expr} {body : Block}
    (ih : BlockLays body) : StmtLays (.forEach span binding iterable body) := by
  intro cx cells s t c h hlaid
  cases stmtRun_of_ok h with
  | forEach hv hit htype hb =>
    rename_i s₁ source code type b
    rw [Stmt.variables]
    let exits := [s₁.body.nextLabel, s₁.body.nextLabel + 1]
    have hlaid₁ := hlaid.expr hv
    have hlaid₂ := hlaid₁.withSlot .reference
    -- The two cells of the loop: first its iterator, then its variable.
    have hiterator := hlaid₁.accessed_next .reference []
    have helement := hlaid₂.accessed_next type.representation []
    have hopen : Code.Confined (Cell.Accessed (cells ++ [Cell.ref])) exits
        (source.code ++ code ++ [Code.storeSlot s₁.body.nextSlot .reference]) :=
      (((hlaid.confined hv).append (.of_simple (all_simple_iteratorCode hit))).grow _).append
        (.slot hiterator.2)
    have hstart : Code.Confined (Cell.Accessed (cells ++ [Cell.ref])) exits
        [.mark s₁.body.nextLabel] := .of_simple rfl
    have hadvance :
        Code.Confined (Cell.Accessed (cells ++ [Cell.ref] ++ [type.representation.cell])) exits
        (advanceLoop s₁.body.nextSlot ⟨(s₁.withSlot .reference).body.nextSlot, type⟩
          (s₁.body.nextLabel + 1)) :=
      .advanceLoop hiterator.1.append helement.2 (by simp [exits])
    have hback : Code.Confined
        (Cell.Accessed (cells ++ [Cell.ref] ++ [type.representation.cell])) exits
        [Code.goto s₁.body.nextLabel, .mark (s₁.body.nextLabel + 1)] :=
      (Code.Confined.jump List.mem_cons_self).append (.of_simple rfl)
    have hbody := ih hb ((hlaid₂.withLocal body.scope binding type).congr rfl rfl)
    have hloop := (hbody.loosen.after (((hopen.append hstart).grow _).append hadvance)).before hback
    exact ((hloop.behind (Representation.cell_ne_long _)).behind
      (Representation.cell_ne_long _)).exiting
      (by simp [exits])
  | nothing hn => cases hn

theorem lays_matchType {span : Span} {subject : Expr} {arms : List Arm} (ih : ArmsLay arms) :
    StmtLays (.matchType span subject arms) := by
  intro cx cells s t c h hlaid
  cases stmtRun_of_ok h with
  | matchType hv hvv ha =>
    rename_i s₁ v a
    rw [Stmt.variables]
    have hlaid₁ := hlaid.expr hv
    have hsubject : Cell.at? (cells ++ [Cell.ref]) s₁.body.nextSlot = some .ref :=
      hlaid₁.span ▸ Cell.at?_span cells .ref []
    have hopen : Code.Confined (Cell.Accessed (cells ++ [Cell.ref])) [s₁.body.nextLabel]
        (v.code ++ coerce v.type .object ++ [Code.storeSlot s₁.body.nextSlot .reference]) :=
      (((hlaid.confined hv).coerced .object).grow _).append
        (.slot (hlaid₁.accessed_next .reference []).2)
    have harms := ih ha ((hlaid₁.withSlot .reference).congr rfl rfl) hsubject
    exact (((harms.after hopen).before (.of_simple rfl)).behind
      (Representation.cell_ne_long _)).exiting (by simp)
  | nothing hn => cases hn

theorem armsLay_nil : ArmsLay [] := by
  intro cx cells subject done s t c h hlaid hsubject
  rw [lowerArms, pure_ok] at h
  obtain ⟨rfl, rfl⟩ := h
  exact .nothing hlaid (.of_simple rfl)

theorem bindSubject_lays {subject : Nat} {pattern : Ty} {scope : ScopeId} {binding : String}
    (h : bindSubject subject pattern scope binding s = .ok c t) (hlaid : Laid cx cells s)
    (hsubject : Cell.Accessed cells .aload subject.toUInt16) :
    Lays cx cells (if binding.isEmpty then [] else [some binding]) exits c t := by
  have h := bindSubject_ok.mp h
  split_ifs at h ⊢
  · obtain ⟨rfl, rfl⟩ := h
    exact .nothing hlaid (.of_simple rfl)
  · obtain ⟨rfl, rfl⟩ := h
    refine Lays.behind (.nothing (hlaid.withLocal _ _ _) ?_) (Representation.cell_ne_long _)
    exact ((Code.Confined.boundSubject hsubject).grow _).append (.slot (hlaid.accessed_next _ []).2)

theorem armsLay_cons {arm : Arm} {rest : List Arm} (ih : BlockLays arm.body) (ihr : ArmsLay rest) :
    ArmsLay (arm :: rest) := by
  intro cx cells subject done s t c h hlaid hsubject
  obtain ⟨pattern, bound, s₁, b, s₂, a, -, hbound, hb, ha, rfl⟩ := lowerArms_cons h
  let exits := [s.body.nextLabel, done]
  have hload : Cell.Accessed cells .aload subject.toUInt16 :=
    ⟨subject, .ref, hsubject, .inl rfl, rfl⟩
  have htest : Code.Confined (Cell.Accessed cells) exits
      (patternTest subject s.body.nextLabel pattern) :=
    .patternTest hload List.mem_cons_self
  have hskip : Laid cx cells (s.skip 1) := hlaid.congr rfl rfl
  have hopen := (bindSubject_lays hbound hskip hload).after htest
  have hbody := hopen.andThen fun more hmore =>
    (ih hb hmore).thenGoto (l := done) fun _ => by simp [exits]
  have hnext := hbody.before (b := [.mark s.body.nextLabel]) (.of_simple rfl)
  have hrest := hnext.andThen fun more hmore => (ihr ha hmore (Cell.at?_append hsubject)).exiting
    (by simp [exits])
  obtain ⟨armPattern, binding, body, span⟩ := arm
  rw [variablesOfArms]
  refine hrest.exiting fun l hl => ?_
  rcases List.mem_pair.mp hl with rfl | rfl
  · exact .inl (by simp)
  · exact .inr (List.mem_singleton_self _)

theorem stmtsLay_nil : StmtsLay [] := by
  intro cx cells s t c h hlaid
  obtain ⟨rfl, rfl⟩ := lowerStmts_nil.mp h
  exact .nothing hlaid (.of_simple rfl)

theorem stmtsLay_cons {stmt : Stmt} {rest : List Stmt} (ih : StmtLays stmt) (ihr : StmtsLay rest) :
    StmtsLay (stmt :: rest) := by
  intro cx cells s t c h hlaid
  obtain ⟨c₁, s₁, c₂, h₁, h₂, rfl⟩ := lowerStmts_cons.mp h
  exact (ih h₁ (hlaid.congr rfl rfl)).andThen fun more hmore => ihr h₂ hmore

theorem blockLays_of_stmts {body : Block} (ih : StmtsLay body.body) : BlockLays body := by
  intro cx cells s t c h hlaid
  rw [lowerBlock_eq] at h
  rw [Block.variables_eq]
  obtain ⟨more, hlength, hlong, hlaid', hconfined⟩ := ih h ⟨hlaid.span, hlaid.args, hlaid.locals⟩
  exact ⟨more, hlength, hlong, ⟨hlaid'.span, hlaid'.args, hlaid'.locals⟩, hconfined⟩

theorem lays_block {body : Block} (ih : BlockLays body) : StmtLays (.block body) := by
  intro cx cells s t c h hlaid
  rw [lowerStmt] at h
  rw [Stmt.variables]
  exact ih h hlaid

theorem lays_exported {inner : Stmt} (ih : StmtLays inner) : StmtLays (.exported inner) := by
  intro cx cells s t c h hlaid
  rw [lowerStmt] at h
  rw [Stmt.variables_exported]
  exact ih h hlaid

/-- Statements that leave the method as it is. -/
def Stmt.LeavesBody (st : Stmt) : Prop :=
  ∀ {cx : BodyContext} {s t : LowerState} {c : Code}, lowerStmt cx st s = .ok c t → c = [] ∧
    t.body = s.body

theorem function_leavesBody (decl : FunctionDecl) : (Stmt.function decl).LeavesBody := fun h => by
  cases stmtRun_of_ok h with
  | function h => exact ⟨rfl, lowerFunction_body h⟩
  | nothing hn => cases hn

theorem struct_leavesBody (span : Span) (name : String) : (Stmt.struct span name).LeavesBody :=
  fun h => by
  cases stmtRun_of_ok h with
  | struct h => exact ⟨rfl, lowerStruct_body h⟩
  | nothing hn => cases hn

theorem lays_of_leavesBody {st : Stmt} (h : st.LeavesBody) (hvars : st.variables = []) :
    StmtLays st := by
  intro cx cells s t c hrun hlaid
  obtain ⟨rfl, hbody⟩ := h hrun
  rw [hvars]
  exact .nothing (hlaid.congr (congrArg _ hbody) (congrArg _ hbody)) (.of_simple rfl)

mutual

theorem stmtLays : ∀ st : Stmt, StmtLays st
  | .expr value => lays_expr value
  | .var span name init => lays_var span name init
  | .function decl => lays_of_leavesBody (function_leavesBody decl) rfl
  | .struct span name => lays_of_leavesBody (struct_leavesBody span name) rfl
  | .ret span value => lays_ret span value
  | .ifElse _ _ body none => lays_ifThen (blockLays body)
  | .ifElse _ _ body (some branch) => lays_ifElse (blockLays body) (stmtLays branch)
  | .whileLoop _ _ body => lays_whileLoop (blockLays body)
  | .forEach _ _ _ body => lays_forEach (blockLays body)
  | .matchType _ _ arms => lays_matchType (armsLay arms)
  | .block body => lays_block (blockLays body)
  | .exported inner => lays_exported (stmtLays inner)
  | .use _ _ | .typeAlias _ _ | .unionType _ _ | .enum _ _ | .parameter _ _ =>
      lays_of_leavesBody (fun h => by
    cases stmtRun_of_ok h with
    | nothing hn => exact ⟨rfl, rfl⟩) rfl

theorem blockLays : ∀ b : Block, BlockLays b
  | ⟨_, body, _⟩ => blockLays_of_stmts (stmtsLay body)

theorem stmtsLay : ∀ body : List Stmt, StmtsLay body
  | [] => stmtsLay_nil
  | stmt :: rest => stmtsLay_cons (stmtLays stmt) (stmtsLay rest)

theorem armsLay : ∀ arms : List Arm, ArmsLay arms
  | [] => armsLay_nil
  | ⟨_, _, body, _⟩ :: rest => armsLay_cons (blockLays body) (armsLay rest)

end

end ClassGen
