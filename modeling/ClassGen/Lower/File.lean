import ClassGen.Lower.Stmt
import ClassGen.Settings.Options

/-! Compilation of a file: the scaffolding of its unit, its declarations, then the
instantiations that calls asked for until lowering them asks for no new ones. That may
never happen, so the number of rounds is bounded; a result is either final or absent. -/

namespace ClassGen

/-- Units of a file. -/
structure CompiledFile where
  fileUnit : ClassUnit
  /-- In order of declaration. -/
  structUnits : List ClassUnit
  deriving DecidableEq

namespace CompiledFile

def units (c : CompiledFile) : List ClassUnit := c.fileUnit :: c.structUnits

def structUnit? (c : CompiledFile) (name : String) : Option ClassUnit :=
  c.structUnits.find? (·.name == name)

/-- Every unit by name, with its class file. -/
def serialize (c : CompiledFile) (version : UInt16) : Except CodegenError (List (String × Bytes)) :=
  c.units.mapM fun u =>
    match u.toBytes version with
    | .ok bytes => .ok (u.name, bytes)
    | .error e => .error (.classFormat u.name e.message)

end CompiledFile

namespace FileContext

def ofSource (f : SourceFile) (options : Options) : FileContext where
  unitName := f.unitName
  fileName := f.fileName
  scopes := Prelude.bindInto options.runtimeOwner f.scopes ScopeTree.root

/-- The static field that holds an instance of the unit. -/
def instanceMember (file : FileContext) : Member :=
  ⟨file.unitName, "instance", Library.reference file.unitName⟩

def instanceField (file : FileContext) : Field :=
  ⟨.publicStatic, file.instanceMember.name, file.instanceMember.descriptor⟩

/-- The constructor and, if asked for, the initializer of the instance. -/
def scaffolding (file : FileContext) (emitInstance : Bool) : Lower Unit := do
  let init ← Lower.startFrame file .publicFlag Library.constructor "()V"
  Lower.addMethod (init.finish [Code.loadThis, Code.callSpecial Library.objectInit])
  if emitInstance then
    let clinit ← Lower.startFrame file .staticFlag Library.classInit "()V"
    Lower.addMethod (clinit.finish
      [Code.new file.unitName, .op .dup, Code.construct file.unitName "()V",
        Code.putStatic file.instanceMember])

end FileContext

/-- A statement at the top of a file; only declarations may stand there. -/
def lowerTop (file : FileContext) : Stmt → Lower Unit
  | .function decl => lowerFunction file ScopeTree.root decl
  | .struct span name => lowerStruct file ScopeTree.root name span
  | .exported inner => lowerTop file inner
  | .use _ _ | .typeAlias _ _ | .unionType _ _ => return ()
  | .enum span _ => throw (.unsupported .enumDeclaration span)
  | .parameter span _ => throw (.unsupported .parameterStatement span)
  | s => throw (.fault .outsideFunction s.span)

/-- One instantiation of a generic function. -/
def lowerInstance (file : FileContext) (decl : FunctionDecl) (sig : Signature) (map : Bindings) :
    Lower Unit :=
  match MethodPlan.instantiated decl.name sig map with
  | .ok plan => lowerBody file plan decl.body
  | .error e => throw (.specialization sig.name e.message decl.span)

/-- The instantiations of `name` that wait at this moment. -/
def lowerPending (file : FileContext) (name : String) : Lower Unit := do
  let s ← get
  match s.file.generics.lookup name, s.file.table.get? name with
  | none, _ => throw (.fault (.noBody name) {})
  | some _, none => return ()
  | some decl, some entry =>
    let (pending, table) := s.file.table.takePending name
    set { s with file.table := table }
    pending.forM (lowerInstance file decl entry.sig)

/-- Rounds over the functions that have waiting instantiations, at most `rounds` of them.
Answers whether none is left. -/
def drain (file : FileContext) : Nat → Lower Bool
  | 0 => return (← get).file.table.pendingFunctions.isEmpty
  | rounds + 1 => do
    match (← get).file.table.pendingFunctions with
    | [] => return true
    | names =>
      names.forM (lowerPending file)
      drain file rounds

/-- Lowers a whole file and answers whether it is complete. -/
def lowerFile (rounds : Nat) (file : FileContext) (emitInstance : Bool) (body : List Stmt) :
    Lower Bool := do
  file.scaffolding emitInstance
  body.forM (lowerTop file)
  let complete ← drain file rounds
  let s ← get
  Lower.log (.finished file.unitName s.file.methods.length s.file.structs.length)
  return complete

/-- The units that a lowered file amounts to. -/
def FileState.compiled (s : FileState) (file : FileContext) (emitInstance : Bool) :
    CompiledFile where
  fileUnit :=
    { name := file.unitName
      access := .publicClass
      sourceFile := some file.fileName
      fields := if emitInstance then [file.instanceField] else []
      methods := s.methods }
  structUnits := s.structs

/-- Result of a compilation, with its trace. -/
structure Outcome where
  result : Except CodegenError CompiledFile
  trace : List Event

def Outcome.traceLines (o : Outcome) : List String := o.trace.flatMap Event.lines

/-- Compiles a file with at most `rounds` rounds of instantiation; none if more are
needed. -/
def SourceFile.compileWithin (rounds : Nat) (f : SourceFile) (options : Options) : Option Outcome :=
  let file := FileContext.ofSource f options
  let shown (log : List Event) : List Event := if options.trace then log.reverse else []
  match lowerFile rounds file options.emitInstance f.body {} with
  | .ok true s => some ⟨.ok (s.file.compiled file options.emitInstance), shown s.file.log⟩
  | .ok false _ => none
  | .error e s => some ⟨.error e, shown s.file.log⟩

/-- More rounds than a program that ends can be waited for. -/
def roundLimit : Nat := 0x100000000

/-- Compiles a file. A program that needs instantiations without end has no result. -/
def SourceFile.compile (f : SourceFile) (options : Options) : Option Outcome :=
  f.compileWithin roundLimit options

end ClassGen
