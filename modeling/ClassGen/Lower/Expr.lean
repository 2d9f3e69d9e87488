import ClassGen.Lower.Call
import ClassGen.Lower.Operator

/-! Lowering of expressions. Operands run from left to right and each exactly once. -/

namespace ClassGen

def Literal.push : Literal → Instr
  | int value => Code.pushInt value
  | float bits => .push (.float bits)
  | double bits => .push (.double bits)
  | bool value => Code.pushBool value
  | text value => Code.pushText value

/-- An empty wrapper tagged with the name of its element type; no tag if `t` is no list. -/
def newWrapper (t : Ty) : Code :=
  let tag := match t with
    | .list element => element.name
    | _ => ""
  [Code.new Library.listWrapper, .op .dup, Code.pushText tag, Code.callSpecial Library.wrapperInit]

/-- Type of a list annotated `t`. -/
def wrapperType : Ty → Ty
  | .list element => .list element
  | _ => .list .object

/-- Adds the entries to the backing list of the wrapper on the stack. -/
def fillWrapper (entries : Code) : Code :=
  [.op .dup, Code.callVirtual Library.wrapperList] ++ entries ++ [.op .pop]

def StepOp.arithmetic : StepOp → Arithmetic
  | increment => .add
  | decrement => .sub

/-- Operand-free instruction for arithmetic in `kind`. -/
def arithmeticCode (kind : Primitive) (a : Arithmetic) : Code :=
  ((kind.arithmeticOp? a).map Instr.op).toList

mutual

/-- The value of an expression. -/
def lowerExpr (cx : BodyContext) : Expr → Lower Lowered
  | .literal _ value => return ⟨value.type, [value.push]⟩
  | .ident note name => do
    let storage ← cx.storageOf name note.span
    return ⟨storage.type, storage.load cx.frame⟩
  | .binary note op left right => do
    let result ← cx.resolve note
    if result.isString && !op.isRelational then
      let l ← (← lowerExpr cx left).appended left.span
      let r ← (← lowerExpr cx right).appended right.span
      return ⟨.string, Code.concat l r⟩
    else if op = .and ∨ op = .or then
      let decided ← Lower.newLabel
      let done ← Lower.newLabel
      let l ← (← lowerExpr cx left).into .boolean left.span
      let r ← (← lowerExpr cx right).into .boolean right.span
      return ⟨.boolean, Code.shortCircuit (op = .and) decided done l r⟩
    else if op = .pow then
      throw (.unsupported .exponentiation note.span)
    else
      let lt ← cx.plannedType left
      let rt ← cx.plannedType right
      match ← op.plan? lt rt with
      | none => throw (.fault (.undefinedOperator op lt rt) note.span)
      | some plan =>
        let l ← (← lowerExpr cx left).into plan.operand left.span
        let r ← (← lowerExpr cx right).into plan.operand right.span
        return ⟨plan.result, l ++ r ++ plan.code⟩
  | .assign _ (.ident note name) value => do
    let storage ← cx.storageOf name note.span
    let v ← (← lowerExpr cx value).into storage.type value.span
    return ⟨.void, v ++ storage.store cx.frame⟩
  | .assign _ (.property note receiver fields) value => do
    match fields.getLast? with
    | none => throw (.fault .emptyFieldChain note.span)
    | some last =>
      let r ← cx.receiver (← lowerExpr cx receiver) receiver.note
      let owner ← cx.loadFields r note.span fields.dropLast
      let (decl, declared) ← structField owner.type last note.span
      let v ← (← lowerExpr cx value).into declared value.span
      return ⟨.void, owner.code ++ v ++ [Code.putField (fieldMember decl last declared)]⟩
  | .assign note _ _ => throw (.fault .assignmentTarget note.span)
  | .call note callee args => do
    match ← cx.callee callee with
    | .function sig =>
      checkArity sig.params.length args.length note.span
      match sig.linkage with
      | .external owner method =>
        let code ← lowerArgs cx args sig.paramTypes
        return ⟨sig.ret, code ++ [Code.callStatic ⟨owner, method, sig.descriptor⟩]⟩
      | .user owner =>
        let types ← args.mapM cx.plannedType
        let (map, params, ret) ← BodyContext.specialize sig types note.span
        let code ← lowerArgs cx args params
        let descriptor := methodDescriptor params ret
        let unit ← cx.linkedUnit sig owner map descriptor
        return ⟨ret, code ++ [Code.callStatic ⟨unit, mangle sig.name, descriptor⟩]⟩
    | .struct decl bindings =>
      checkArity decl.fields.length args.length note.span
      let code ← lowerArgs cx args (decl.fields.map Prod.snd)
      let annotated ← cx.resolve note
      return ⟨if annotated.isStruct then annotated else .struct decl bindings,
        [Code.new decl.qualifiedName, .op .dup] ++ code ++
          [Code.construct decl.qualifiedName (decl.siteDescriptor args)]⟩
    | other => throw (.fault (.notCallable other) callee.span)
  | .property note receiver fields => do
    let r ← cx.receiver (← lowerExpr cx receiver) receiver.note
    cx.loadFields r note.span fields
  | .step note op (.ident operand name) => do
    let storage ← cx.storageOf name operand.span
    match storage.type.numeric? with
    | none => throw (.unsupported (.stepOn storage.type) note.span)
    | some kind =>
      return ⟨.void, storage.load cx.frame ++ [Code.pushOne kind] ++ arithmeticCode kind
        op.arithmetic ++
        storage.store cx.frame⟩
  | .step note _ _ => throw (.fault .stepTarget note.span)
  | .negate note operand => do
    let planned ← cx.plannedType operand
    match planned.numeric? with
    | none => throw (.fault (.notNegatable planned) note.span)
    | some kind =>
      let v ← (← lowerExpr cx operand).into (.primitive kind) operand.span
      return ⟨.primitive kind, v ++ arithmeticCode kind .neg⟩
  | .not _ operand => do
    let v ← (← lowerExpr cx operand).into .boolean operand.span
    return ⟨.boolean, v ++ [Code.pushInt 1, .op .ixor]⟩
  | .group _ inner => lowerExpr cx inner
  | .emptyList note => do
    let t ← cx.resolve note
    return ⟨wrapperType t, newWrapper t⟩
  | .listOf note entries => do
    let t ← cx.resolve note
    let code ← lowerEntries cx entries
    return ⟨wrapperType t, newWrapper t ++ (if entries.isEmpty then [] else fillWrapper code)⟩
  | .index note _ _ => throw (.unsupported .indexAccess note.span)
  | .moduleMember _ _ _ | .enumValue _ _ _ | .lambda _ | .empty _ | .bad _ => return Lowered.absent

/-- Arguments, each as the type of its parameter. -/
def lowerArgs (cx : BodyContext) : List Expr → List Ty → Lower Code
  | arg :: args, t :: ts => do
    let code ← (← lowerExpr cx arg).into t arg.span
    let rest ← lowerArgs cx args ts
    return code ++ rest
  | _, _ => return []

/-- Entries of a list, each added as an object to the list on the stack. -/
def lowerEntries (cx : BodyContext) : List Expr → Lower Code
  | [] => return []
  | entry :: entries => do
    let code ← (← lowerExpr cx entry).into .object entry.span
    let rest ← lowerEntries cx entries
    return [.op .dup] ++ code ++ [Code.callVirtual Library.listAdd, .op .pop] ++ rest

end

/-- The value of an expression as one of type `target`. -/
def lowerAs (cx : BodyContext) (e : Expr) (target : Ty) : Lower Code := do
  (← lowerExpr cx e).into target e.span

end ClassGen
