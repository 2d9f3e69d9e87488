import ClassGen.Lower.Expr
import ClassGen.Lower.Struct

/-! Lowering of statements, blocks and function bodies. A function declared inside a body
becomes a method of its own, completed before the method around it. -/

namespace ClassGen

/-- A method to be emitted for a function. -/
structure MethodPlan where
  name : String
  descriptor : String
  bindings : Bindings := []
  params : List (String × Ty)
  ret : Ty

namespace MethodPlan

/-- Descriptor that the host requires of the entry point. -/
def mainDescriptor : String := "([Ljava/lang/String;)V"

/-- The method of a function without placeholders. The entry point keeps its name and
takes the descriptor that the host requires. -/
def declared (name : String) (sig : Signature) : MethodPlan :=
  if name = "main" then ⟨name, mainDescriptor, [], sig.params, .void⟩
  else ⟨mangle name, sig.descriptor, [], sig.params, sig.ret⟩

/-- The method of one instantiation of a generic function. -/
def instantiated (name : String) (sig : Signature) (map : Bindings) :
    Except SpecializeError MethodPlan := do
  let (params, ret) ← sig.instantiate map
  return ⟨mangle name, methodDescriptor params ret, map,
    List.zip (sig.params.map Prod.fst) params, ret⟩

/-- Thrown where a method that owes a value would fall off its end. -/
def missingReturn (plan : MethodPlan) : Code :=
  [Code.new Library.illegalState, .op .dup, Code.pushText ("missing return in " ++ plan.name),
    Code.callSpecial Library.illegalStateInit, .op .athrow]

/-- The body with its end secured. -/
def closed (plan : MethodPlan) (frame : Frame) (code : Code) : Code :=
  if Code.fallsThrough code && !plan.ret.isVoid && !frame.returnsVoid then code ++
    plan.missingReturn
  else code

end MethodPlan

/-- The signature that `scope` declares under `name`. -/
def functionNamed (file : FileContext) (scope : ScopeId) (name : String) (span : Span) :
    Lower Signature :=
  match file.scopes.lookup scope name with
  | some (.function sig) => return sig
  | some other => throw (.fault (.notFunction name other) span)
  | none => throw (.unknownIdentifier name span)

/-- Keeps the body of a generic function for its instantiations. -/
def defer (decl : FunctionDecl) : Lower Unit := do
  Lower.log (.deferred decl.name)
  modify fun s => { s with file.generics := Dict.insert decl.name decl s.file.generics }

/-- Whether the method is already there; the first time this is found it is traced. -/
def isEmitted (plan : MethodPlan) : Lower Bool := do
  let s ← get
  if s.file.methods.any fun m => m.name == plan.name && m.descriptor == plan.descriptor then
    if !s.file.reused.contains (plan.name, plan.descriptor) then
      set { s with file.reused := (plan.name, plan.descriptor) :: s.file.reused }
      Lower.log (.reused plan.name plan.descriptor)
    return true
  else
    return false

/-- The iterator of the value on the stack. An erased value is taken for an iterator
itself, and a host class for an iterable. -/
def iteratorCode : Ty → Option Code
  | .list _ => some [Code.callVirtual Library.wrapperList, Code.callVirtual Library.listIterator]
  | .generic _ | .union _ => some [Code.checkcast Library.iterator]
  | .external c =>
    if c = Library.iterator then some []
    else if c = Library.object then some [Code.checkcast Library.iterator]
    else
      some ((if c = Library.iterable then [] else [Code.checkcast Library.iterable]) ++
        [Code.callInterface Library.iterableIterator])
  | _ => none

/-- Element type of an iterable that says nothing more about its elements. -/
def elementType : Ty → Ty
  | .list element => element
  | _ => .object

/-- Jumps to `next` unless the subject has the class of `pattern`, and for a list pattern
also the tag of its element type. -/
def patternTest (subject : Nat) (next : Label) (pattern : Ty) : Code :=
  let load := Code.loadSlot subject .reference
  [load, Code.instanceOf pattern.className, .jump .ifeq next] ++
    match pattern with
    | .list element =>
      [load, Code.checkcast Library.listWrapper, Code.callVirtual Library.wrapperName,
        Code.pushText element.name, Code.callVirtual Library.stringEquals, .jump .ifeq next]
    | _ => []

/-- The subject as it is bound in an arm for `pattern`: numbers unboxed, booleans boxed. -/
def boundSubject (subject : Nat) (pattern : Ty) : Lowered :=
  let load := Code.loadSlot subject .reference
  match pattern with
  | .primitive .boolean => ⟨.external pattern.className, [load, Code.checkcast pattern.className]⟩
  | .primitive kind =>
    if kind.isNumeric then
      ⟨pattern, [load, Code.checkcast pattern.className] ++ Code.unboxUnchecked kind⟩
    else ⟨pattern, load :: coerce .object pattern⟩
  | _ => ⟨pattern, load :: coerce .object pattern⟩

/-- Binds the subject in the scope of the arm; an empty name binds nothing. -/
def bindSubject (subject : Nat) (pattern : Ty) (scope : ScopeId) (binding : String) :
    Lower Code := do
  if binding.isEmpty then return []
  let v := boundSubject subject pattern
  let slot ← Lower.declareLocal scope binding v.type
  return v.code ++ [Code.storeSlot slot v.type.representation]

/-- Declares a local in the current scope. Its type is the declared one, or that of the
initial value if the name is undeclared or a function. -/
def lowerVar (cx : BodyContext) (name : String) (init : Expr) (span : Span) : Lower Code := do
  let t ← match cx.file.scopes.lookup cx.scope name with
    | some (.function _) | none => cx.plannedType init
    | some declared => cx.resolveType declared span
  if t.isVoid then throw (.fault (.voidVariable name) span)
  let value ← lowerAs cx init t
  let slot ← Lower.declareLocal cx.scope name t
  return value ++ [Code.storeSlot slot t.representation]

/-- A method that returns nothing evaluates and discards a returned value. -/
def lowerReturn (cx : BodyContext) (value : Expr) (span : Span) : Lower Code := do
  if cx.ret.isVoid then
    if value.isEmpty then return [.op .vreturn]
    let v ← lowerExpr cx value
    return v.dropped ++ [.op .vreturn]
  else
    if value.isEmpty then throw (.fault (.missingResult cx.frame.name cx.ret) span)
    let v ← lowerAs cx value cx.ret
    return v ++ [Code.returnValue cx.ret.representation]

/-- Evaluates the iterable of a loop into a hidden slot and declares the loop variable in
`scope`: code, slot of the iterator, slot and type of the variable. -/
def openLoop (cx : BodyContext) (binding : String) (iterable : Expr) (scope : ScopeId)
    (span : Span) :
    Lower (Code × Nat × LocalVar) := do
  let source ← lowerExpr cx iterable
  match iteratorCode source.type with
  | none => throw (.fault (.notIterable source.type) iterable.span)
  | some code =>
    let iterator ← Lower.newSlot .reference
    let element ← match cx.file.scopes.lookup scope binding with
      | some declared => cx.resolveType declared span
      | none => pure (elementType source.type)
    let slot ← Lower.declareLocal scope binding element
    return (source.code ++ code ++ [Code.storeSlot iterator .reference], iterator, ⟨slot, element⟩)

/-- Leaves the loop at `done` if the iterator is exhausted, else moves the next element
into the loop variable. -/
def advanceLoop (iterator : Nat) (element : LocalVar) (done : Label) : Code :=
  let load := Code.loadSlot iterator .reference
  [load, Code.callInterface Library.iteratorHasNext, .jump .ifeq done, load,
    Code.callInterface Library.iteratorNext] ++
    coerce .object element.type ++ [Code.storeSlot element.slot element.type.representation]

/-- Evaluates the subject of a match into a hidden slot: code and slot. -/
def openMatch (cx : BodyContext) (subject : Expr) : Lower (Code × Nat) := do
  let v ← lowerExpr cx subject
  if v.type.isVoid then throw (.fault .voidSubject subject.span)
  let slot ← Lower.newSlot .reference
  return (v.code ++ coerce v.type .object ++ [Code.storeSlot slot .reference], slot)

/-- Code that is left only if it falls through, and then to `target`. -/
def thenGoto (code : Code) (target : Label) : Code :=
  if Code.fallsThrough code then code ++ [Code.goto target] else code

mutual

def lowerStmt (cx : BodyContext) : Stmt → Lower Code
  | .expr value => return (← lowerExpr cx value).dropped
  | .var span name init => lowerVar cx name init span
  | .function decl => do
    lowerFunction cx.file cx.scope decl
    return []
  | .struct span name => do
    lowerStruct cx.file cx.scope name span
    return []
  | .ret span value => lowerReturn cx value span
  | .ifElse _ test body none => do
    let orElse ← Lower.newLabel
    let t ← lowerAs cx test .boolean
    let b ← lowerBlock cx body
    return t ++ [.jump .ifeq orElse] ++ b ++ [.mark orElse]
  | .ifElse _ test body (some branch) => do
    let orElse ← Lower.newLabel
    let t ← lowerAs cx test .boolean
    let b ← lowerBlock cx body
    let done ← Lower.newLabel
    let e ← lowerStmt cx branch
    let rest := if Code.fallsThrough b then [.mark done] else []
    return t ++ [.jump .ifeq orElse] ++ thenGoto b done ++ [.mark orElse] ++ e ++ rest
  | .whileLoop _ test body => do
    let start ← Lower.newLabel
    let done ← Lower.newLabel
    let t ← lowerAs cx test .boolean
    let b ← lowerBlock cx body
    return [.mark start] ++ t ++ [.jump .ifeq done] ++ b ++ [Code.goto start, .mark done]
  | .forEach span binding iterable body => do
    let (setup, iterator, element) ← openLoop cx binding iterable body.scope span
    let start ← Lower.newLabel
    let done ← Lower.newLabel
    let b ← lowerBlock cx body
    return setup ++ [.mark start] ++ advanceLoop iterator element done ++ b ++
      [Code.goto start, .mark done]
  | .matchType _ subject arms => do
    let (setup, slot) ← openMatch cx subject
    let done ← Lower.newLabel
    let a ← lowerArms cx slot done arms
    return setup ++ a ++ [.mark done]
  | .block body => lowerBlock cx body
  | .exported inner => lowerStmt cx inner
  | .use _ _ | .typeAlias _ _ | .unionType _ _ => return []
  | .enum span _ => throw (.unsupported .enumDeclaration span)
  | .parameter span _ => throw (.unsupported .parameterStatement span)

/-- The statements of a block, in its scope. -/
def lowerBlock (cx : BodyContext) : Block → Lower Code
  | ⟨scope, body, _⟩ => lowerStmts { cx with scope := scope } [] body

/-- Statements in order; `done` holds the code of those before, last first. -/
def lowerStmts (cx : BodyContext) (done : List Code) : List Stmt → Lower Code
  | [] => return done.reverse.flatten
  | stmt :: rest => do
    Lower.log (.statement stmt.kind cx.frame.name)
    let code ← lowerStmt cx stmt
    lowerStmts cx (code :: done) rest

/-- Arms in order; each is tried after the tests of those before it failed. -/
def lowerArms (cx : BodyContext) (subject : Nat) (done : Label) : List Arm → Lower Code
  | [] => return []
  | ⟨pattern, binding, body, span⟩ :: rest => do
    let next ← Lower.newLabel
    let pattern ← cx.resolveType pattern span
    let bound ← bindSubject subject pattern body.scope binding
    let b ← lowerBlock cx body
    let arms ← lowerArms cx subject done rest
    return patternTest subject next pattern ++ bound ++ thenGoto b done ++ [.mark next] ++ arms

/-- A function declared in `scope`. A generic one waits until calls ask for it. -/
def lowerFunction (file : FileContext) (scope : ScopeId) : FunctionDecl → Lower Unit
  | ⟨name, body, span⟩ => do
    let sig ← functionNamed file scope name span
    if sig.isGeneric then defer ⟨name, body, span⟩
    else lowerBody file (MethodPlan.declared name sig) body

/-- Emits the planned method with this body, unless it is there already. -/
def lowerBody (file : FileContext) (plan : MethodPlan) : Block → Lower Unit
  | ⟨scope, body, _⟩ => do
    if ← isEmitted plan then return ()
    Lower.log (.opened plan.name plan.descriptor)
    let frame ← Lower.startFrame file .publicStatic plan.name plan.descriptor
    let cx : BodyContext :=
      { file, frame, bindings := plan.bindings, params := plan.params, ret := plan.ret
        bodyScope := scope, scope }
    let (code, final) ← Lower.isolated { nextSlot := frame.nextSlot } (lowerStmts cx [] body)
    Lower.log (.closed plan.name plan.descriptor)
    Lower.addMethod (Frame.finish { frame with nextSlot := final.nextSlot }
      (plan.closed frame code))

end

end ClassGen
