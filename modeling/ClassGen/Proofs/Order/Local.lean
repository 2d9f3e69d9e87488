import ClassGen.Proofs.Lowering.Actions

/-! Lowering of a body, apart from the file around it. What a body without declarations is lowered
to depends on its own state alone, and the methods, the struct units and the generic functions of
the file stay as they are. -/

namespace ClassGen

open Run

/-- Of the file at most the table of instantiations, the record of reuse and the trace changed. -/
structure LowerState.SameUnits (s t : LowerState) : Prop where
  methods : t.file.methods = s.file.methods
  structs : t.file.structs = s.file.structs
  generics : t.file.generics = s.file.generics

namespace LowerState.SameUnits

theorem trans {s t u : LowerState} (h : SameUnits s t) (k : SameUnits t u) : SameUnits s u :=
  ⟨k.methods.trans h.methods, k.structs.trans h.structs, k.generics.trans h.generics⟩

end LowerState.SameUnits

/-- What the computation answers, and the body it leaves, depend on the body it finds. -/
structure Lower.Local {α : Type} (x : Lower α) : Prop where
  answers : ∀ {s s' t : LowerState} {a : α}, x s = .ok a t → s'.body = s.body → ∃ t',
    x s' = .ok a t' ∧ t'.body = t.body
  keeps : ∀ {s t : LowerState} {a : α}, x s = .ok a t → s.SameUnits t

namespace Lower.Local

variable {α β : Type}

theorem bind {x : Lower α} {f : α → Lower β} (hx : x.Local) (hf : ∀ a, (f a).Local) :
    (x >>= f).Local where
  answers h hbody := by
    obtain ⟨a, r, hxs, hfr⟩ := bind_ok.mp h
    obtain ⟨r', hxs', hr⟩ := hx.answers hxs hbody
    obtain ⟨t', hfr', ht⟩ := (hf a).answers hfr hr
    exact ⟨t', bind_ok.mpr ⟨a, r', hxs', hfr'⟩, ht⟩
  keeps h := by
    obtain ⟨a, r, hxs, hfr⟩ := bind_ok.mp h
    exact (hx.keeps hxs).trans ((hf a).keeps hfr)

/-- What only looks at the body and changes nothing else. -/
theorem of_ok {x : Lower α} (P : BodyState → α → Prop) (next : BodyState → BodyState)
    (h : ∀ {s t : LowerState} {a : α}, x s = .ok a t ↔ P s.body a ∧ { s with body := next s.body } =
      t) : x.Local where
  answers hx hbody := by
    obtain ⟨hP, rfl⟩ := h.mp hx
    exact ⟨_, h.mpr ⟨hbody ▸ hP, rfl⟩, congrArg next hbody⟩
  keeps hx := by
    obtain ⟨-, rfl⟩ := h.mp hx
    exact ⟨rfl, rfl, rfl⟩

theorem pure (a : α) : (Pure.pure a : Lower α).Local := .of_ok (fun _ b => a = b) id pure_ok

theorem throw (e : CodegenError) : (MonadExcept.throw e : Lower α).Local where
  answers h := (throw_ok.mp h).elim
  keeps h := (throw_ok.mp h).elim

end Lower.Local

open Lower (Local)

/-! ### Bodies without declarations -/

mutual

/-- No function and no struct is declared in it. -/
def Stmt.isFlat : Stmt → Bool
  | .function _ | .struct _ _ => false
  | .ifElse _ _ body none => body.isFlat
  | .ifElse _ _ body (some branch) => body.isFlat && branch.isFlat
  | .whileLoop _ _ body | .forEach _ _ _ body | .block body => body.isFlat
  | .matchType _ _ arms => armsFlat arms
  | .exported inner => inner.isFlat
  | .expr _ | .var _ _ _ | .ret _ _ | .use _ _ | .typeAlias _ _ | .unionType _ _
  | .enum _ _ | .parameter _ _ => true

def Block.isFlat : Block → Bool
  | ⟨_, body, _⟩ => stmtsFlat body

def stmtsFlat : List Stmt → Bool
  | [] => true
  | first :: rest => first.isFlat && stmtsFlat rest

def armsFlat : List Arm → Bool
  | [] => true
  | ⟨_, _, body, _⟩ :: rest => body.isFlat && armsFlat rest

end

theorem Block.isFlat_eq (b : Block) : b.isFlat = stmtsFlat b.body := by
  cases b
  rw [Block.isFlat]

/-! ### Steps -/

theorem Lower.newLabel_local : Lower.newLabel.Local :=
  .of_ok (fun b l => b.nextLabel = l) (fun b => { b with nextLabel := b.nextLabel + 1 })
    Lower.newLabel_ok

theorem Lower.newSlot_local (repr : Representation) : (Lower.newSlot repr).Local :=
  .of_ok (fun b n => b.nextSlot = n) (fun b => { b with nextSlot := b.nextSlot + max repr.slots 1 })
    Lower.newSlot_ok

theorem Lower.declareLocal_local (scope : ScopeId) (name : String) (type : Ty) :
    (Lower.declareLocal scope name type).Local :=
  .of_ok (fun b n => b.nextSlot = n)
    (fun b => { b with
      nextSlot := b.nextSlot + max type.representation.slots 1
      locals := Dict.insert (scope, name) ⟨b.nextSlot, type⟩ b.locals }) Lower.declareLocal_ok

theorem Lower.log_local (e : Event) : (Lower.log e).Local where
  answers h hbody := ⟨_, Lower.log_ok.mpr rfl, Lower.log_ok.mp h ▸ hbody⟩
  keeps h := Lower.log_ok.mp h ▸ ⟨rfl, rfl, rfl⟩

theorem requireInstance_local (sig : Signature) (map : Bindings) (descriptor : String) :
    (requireInstance sig map descriptor).Local := by
  refine ⟨fun {s s' t a} h hbody => ?_, fun {s t a} h => ?_⟩
  · obtain ⟨_, hs, -⟩ := requireInstance_run sig map descriptor s
    obtain ⟨_, hs', -⟩ := requireInstance_run sig map descriptor s'
    rw [hs] at h
    cases h
    exact ⟨_, hs', hbody⟩
  · obtain ⟨_, hs, -⟩ := requireInstance_run sig map descriptor s
    rw [hs] at h
    cases h
    exact ⟨rfl, rfl, rfl⟩

theorem BodyContext.storage?_local (cx : BodyContext) (name : String) : (cx.storage? name).Local :=
  .of_ok (fun b o => cx.storageIn? b.locals name (cx.file.scopes.chain cx.scope) = o) id storage?_ok

theorem local_compositional : Lower.Compositional fun _ => Local where
  pure := .pure
  throw := .throw
  bind := .bind
  newLabel := Lower.newLabel_local
  newSlot := Lower.newSlot_local
  declareLocal := Lower.declareLocal_local
  storage? := BodyContext.storage?_local
  requireInstance := requireInstance_local

/-! ### Statements -/

mutual

theorem lowerStmt_local : ∀ {st : Stmt}, st.isFlat = true → ∀ cx :
    BodyContext, (lowerStmt cx st).Local
  | .expr value, _, cx => by
    rw [lowerStmt]
    exact (local_compositional.lowerExpr cx value).bind fun _ => .pure _
  | .var span name init, _, cx => by
    rw [lowerStmt]
    exact local_compositional.lowerVar cx name init span
  | .ret span value, _, cx => by
    rw [lowerStmt]
    exact local_compositional.lowerReturn cx value span
  | .ifElse _ test body none, h, cx => by
    rw [Stmt.isFlat] at h
    rw [lowerStmt]
    exact Lower.newLabel_local.bind fun _ => (local_compositional.lowerAs cx test _).bind fun _ =>
      (lowerBlock_local h cx).bind fun _ => .pure _
  | .ifElse _ test body (some branch), h, cx => by
    rw [Stmt.isFlat, Bool.and_eq_true] at h
    rw [lowerStmt]
    exact Lower.newLabel_local.bind fun _ => (local_compositional.lowerAs cx test _).bind fun _ =>
      (lowerBlock_local h.1 cx).bind fun _ => Lower.newLabel_local.bind fun _ =>
        (lowerStmt_local h.2 cx).bind fun _ => .pure _
  | .whileLoop _ test body, h, cx => by
    rw [Stmt.isFlat] at h
    rw [lowerStmt]
    exact Lower.newLabel_local.bind fun _ => Lower.newLabel_local.bind fun _ =>
      (local_compositional.lowerAs cx test _).bind fun _ =>
        (lowerBlock_local h cx).bind fun _ => .pure _
  | .forEach span binding iterable body, h, cx => by
    rw [Stmt.isFlat] at h
    rw [lowerStmt]
    exact (local_compositional.openLoop cx binding iterable body.scope span).bind fun _ =>
      Lower.newLabel_local.bind fun _ =>
      Lower.newLabel_local.bind fun _ => (lowerBlock_local h cx).bind fun _ => .pure _
  | .matchType _ subject arms, h, cx => by
    rw [Stmt.isFlat] at h
    rw [lowerStmt]
    exact (local_compositional.openMatch cx subject).bind fun opened =>
      Lower.newLabel_local.bind fun done =>
      (lowerArms_local h cx opened.2 done).bind fun _ => .pure _
  | .block body, h, cx => by
    rw [Stmt.isFlat] at h
    rw [lowerStmt]
    exact lowerBlock_local h cx
  | .exported inner, h, cx => by
    rw [Stmt.isFlat] at h
    rw [lowerStmt]
    exact lowerStmt_local h cx
  | .use _ _, _, cx | .typeAlias _ _, _, cx | .unionType _ _, _, cx => by
    rw [lowerStmt]
    exact .pure _
  | .enum _ _, _, cx | .parameter _ _, _, cx => by
    rw [lowerStmt]
    exact .throw _

theorem lowerBlock_local : ∀ {b : Block}, b.isFlat = true → ∀ cx :
    BodyContext, (lowerBlock cx b).Local
  | ⟨scope, body, _⟩, h, cx => by
    rw [Block.isFlat] at h
    rw [lowerBlock]
    exact lowerStmts_local h _ []

theorem lowerStmts_local : ∀ {body : List Stmt}, stmtsFlat body = true → ∀ (cx : BodyContext)
    (done : List Code), (lowerStmts cx done body).Local
  | [], _, cx, done => by
    rw [lowerStmts]
    exact .pure _
  | first :: rest, h, cx, done => by
    rw [stmtsFlat, Bool.and_eq_true] at h
    rw [lowerStmts]
    exact (Lower.log_local _).bind fun _ => (lowerStmt_local h.1 cx).bind fun code =>
      lowerStmts_local h.2 cx _

theorem lowerArms_local : ∀ {arms : List Arm}, armsFlat arms = true → ∀ (cx : BodyContext)
    (subject : Nat) (done : Label), (lowerArms cx subject done arms).Local
  | [], _, cx, subject, done => by
    rw [lowerArms]
    exact .pure _
  | ⟨pattern, binding, body, span⟩ :: rest, h, cx, subject, done => by
    rw [armsFlat, Bool.and_eq_true] at h
    rw [lowerArms]
    exact Lower.newLabel_local.bind fun _ => (local_compositional.resolveType cx _ _).bind fun _ =>
      (local_compositional.bindSubject _ _ _ _).bind fun _ =>
        (lowerBlock_local h.1 cx).bind fun _ =>
        (lowerArms_local h.2 cx subject done).bind fun _ => .pure _

end

end ClassGen
