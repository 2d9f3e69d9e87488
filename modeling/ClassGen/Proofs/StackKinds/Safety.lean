import ClassGen.Proofs.StackKinds.Depth
import ClassGen.Proofs.StackKinds.Faithful

/-! What it means for the operand stack of a method to be safe: every position has one stack,
whatever way leads there, and that stack is empty between the statements of the function the method
was made from. -/

namespace ClassGen

open Faithful

/-! ### Functions and statements of a file -/

mutual

/-- The functions declared in a statement, also inside other functions. -/
@[simp] def Stmt.functions : Stmt → List FunctionDecl
  | .function decl => decl.functions
  | .ifElse _ _ body none => body.functions
  | .ifElse _ _ body (some branch) => body.functions ++ branch.functions
  | .whileLoop _ _ body | .forEach _ _ _ body | .block body => body.functions
  | .matchType _ _ arms => functionsOfArms arms
  | .exported inner => inner.functions
  | _ => []

@[simp] def Block.functions : Block → List FunctionDecl
  | ⟨_, body, _⟩ => functionsOf body

/-- The function itself first. -/
def FunctionDecl.functions : FunctionDecl → List FunctionDecl
  | ⟨name, body, span⟩ => ⟨name, body, span⟩ :: body.functions

@[simp] def functionsOf : List Stmt → List FunctionDecl
  | [] => []
  | first :: rest => first.functions ++ functionsOf rest

@[simp] def functionsOfArms : List Arm → List FunctionDecl
  | [] => []
  | ⟨_, _, body, _⟩ :: rest => body.functions ++ functionsOfArms rest

end

/-- Positions in a fragment that starts at `n`. -/
def shift (n : Nat) (positions : List Nat) : List Nat := positions.map (n + ·)

mutual

/-- Where statements begin and end inside the code of a statement. -/
@[simp] def innerBoundaries (cx : BodyContext) : Stmt → LowerState → List Nat
  | .ifElse _ test body none, s =>
    after (lowerAs cx test .boolean) (s.skip 1) [] fun t s =>
      shift (t.length + 1) (blockBoundaries cx body s)
  | .ifElse _ test body (some branch), s =>
    after (lowerAs cx test .boolean) (s.skip 1) [] fun t s =>
      shift (t.length + 1) (blockBoundaries cx body s) ++
        after (lowerBlock cx body) s [] fun b s =>
          after (lowerStmt cx branch) (s.skip 1) [] fun e _ =>
            shift (t.length + 1 + (thenGoto b s.body.nextLabel).length + 1)
              (0 :: e.length :: innerBoundaries cx branch (s.skip 1))
  | .whileLoop _ test body, s =>
    after (lowerAs cx test .boolean) (s.skip 2) [] fun t s =>
      shift (1 + t.length + 1) (blockBoundaries cx body s)
  | .forEach span binding iterable body, s =>
    after (openLoop cx binding iterable body.scope span) s [] fun opened s =>
      shift (opened.1.length + 1 + (advanceLoop opened.2.1 opened.2.2
        (s.body.nextLabel + 1)).length)
        (blockBoundaries cx body (s.skip 2))
  | .matchType _ subject arms, s =>
    after (openMatch cx subject) s [] fun opened s =>
      shift opened.1.length (armBoundaries cx opened.2 s.body.nextLabel arms (s.skip 1))
  | .block body, s => blockBoundaries cx body s
  | .exported inner, s => innerBoundaries cx inner s
  | _, _ => []

@[simp] def blockBoundaries (cx : BodyContext) : Block → LowerState → List Nat
  | ⟨scope, body, _⟩, s => boundaries { cx with scope := scope } body s

/-- Where statements begin and end in the code of several. -/
@[simp] def boundaries (cx : BodyContext) : List Stmt → LowerState → List Nat
  | [], _ => [0]
  | first :: rest, s =>
    (0 :: innerBoundaries cx first (s.logged (.statement first.kind cx.frame.name))) ++
      after (lowerStmt cx first) (s.logged (.statement first.kind cx.frame.name)) [] fun c t =>
        shift c.length (boundaries cx rest t)

@[simp] def armBoundaries (cx : BodyContext) (subject : Nat) (done : Label) :
    List Arm → LowerState → List Nat
  | [], _ => []
  | ⟨pattern, binding, body, span⟩ :: rest, s =>
    after (cx.resolveType pattern span) (s.skip 1) [] fun pattern t =>
      after (bindSubject subject pattern body.scope binding) t [] fun bound t =>
        shift ((patternTest subject s.body.nextLabel pattern).length + bound.length)
          (blockBoundaries cx body t) ++
          after (lowerBlock cx body) t [] fun b t =>
            shift ((patternTest subject s.body.nextLabel pattern).length + bound.length + (thenGoto
              b done).length + 1)
              (armBoundaries cx subject done rest t)

end

/-! ### Safety -/

/-- The plan makes a method of the function, of all of it or of one instantiation. -/
inductive FunctionDecl.Plans (decl : FunctionDecl) : MethodPlan → Prop
  | declared (sig : Signature) : decl.Plans (.declared decl.name sig)
  | instantiated {sig : Signature} {map : Bindings} {plan : MethodPlan}
    (h : MethodPlan.instantiated decl.name sig map = .ok plan) : decl.Plans plan

/-- Where statements begin and end in a method: those of the function of the file that it was
lowered from; a method that is no function has none. -/
inductive Boundaries (file : FileContext) (declared : List FunctionDecl) : Method → List Nat → Prop
  | function {decl : FunctionDecl} {plan : MethodPlan} {frame : Frame} {s u : LowerState}
      {code : Code}
    (hdecl : decl ∈ declared) (hplan : decl.Plans plan)
    (hframe : Frame.start .publicStatic plan.name plan.descriptor = .ok frame)
    (hcode : lowerStmts (plan.context file frame decl.body.scope)
      [] decl.body.body (plan.opened frame s) =
      .ok code u) :
    Boundaries file declared (plan.method frame u.body.nextSlot code)
      (boundaries (plan.context file frame decl.body.scope) decl.body.body (plan.opened frame s))
  | generated {m : Method} (h : m.access ≠ .publicStatic) : Boundaries file declared m []

/-- The stacks of the method are known: they follow its code and its descriptor, they are empty
between statements, and so the depth of the deepest can be measured. -/
structure StackSafe (file : FileContext) (declared : List FunctionDecl) (m : Method) : Prop where
  typed : ∃ d ret K B, MethodDescriptor.parse m.descriptor = .ok d ∧ d.resultKinds? = some ret ∧
    Typing ret m.code K ∧ Boundaries file declared m B ∧ ∀ n ∈ B, K n = some []
  measured : (∃ n, m.maxStack = .ok n) ∨ m.maxStack = .error (.codeTooLarge m.name)

end ClassGen
