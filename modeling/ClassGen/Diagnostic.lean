import ClassGen.Source.Tree

/-! Fatal conditions of code generation. The first one ends the compilation of a file.
Each has a message, a label for the place it points at and a process status. -/

namespace ClassGen

/-- A construct in a shape that cannot be lowered. -/
inductive Fault where
  | outsideFunction
  | notFunction (name : String) (type : Ty)
  | notStruct (name : String) (type : Ty)
  | noBody (function : String)
  | voidVariable (name : String)
  | missingResult (method : String) (type : Ty)
  | notIterable (type : Ty)
  | voidSubject
  | voidOperand
  | valueExpected (type : Ty)
  | undefinedOperator (op : BinaryOp) (left right : Ty)
  | emptyFieldChain
  | assignmentTarget
  | noField (owner : Ty) (field : String)
  | stepTarget
  | notNegatable (type : Ty)
  | arity (expected found : Nat)
  | notCallable (type : Ty)

def Fault.message : Fault → String
  | outsideFunction => "statement outside of a function body"
  | notFunction name type => "`" ++ name ++ "` is declared as a function but typed `" ++
      type.name ++ "`"
  | notStruct name type => "`" ++ name ++ "` is declared as a struct but typed `" ++
      type.name ++ "`"
  | noBody function => "generic function `" ++ function ++ "` has no body in this file"
  | voidVariable name => "cannot bind a void value to `" ++ name ++ "`"
  | missingResult method type =>
    "`" ++ method ++ "` must return a value of type `" ++ type.name ++ "`"
  | notIterable type => "cannot iterate over a value of type `" ++ type.name ++ "`"
  | voidSubject => "cannot match on an expression without a value"
  | voidOperand => "cannot concatenate an expression without a value"
  | valueExpected type => "expected a value of type `" ++ type.name ++ "`, found nothing"
  | undefinedOperator op left right =>
    "`" ++ op.symbol ++ "` is not defined for `" ++ left.name ++ "` and `" ++ right.name ++ "`"
  | emptyFieldChain => "empty field chain"
  | assignmentTarget => "Assignment not implemented for any recipient but identifier yet"
  | noField owner field => "`" ++ owner.name ++ "` has no field `" ++ field ++ "`"
  | stepTarget => "postfix operators only apply to variables"
  | notNegatable type => "cannot negate a value of type `" ++ type.name ++ "`"
  | arity expected found => "expected " ++ toString expected ++ " arguments, found " ++
      toString found
  | notCallable type => "`" ++ type.name ++ "` cannot be called"

/-- A construct that is recognized and has no lowering. -/
inductive Unsupported where
  | enumDeclaration
  | parameterStatement
  | exponentiation
  | stepOn (type : Ty)
  | indexAccess

def Unsupported.construct : Unsupported → String
  | enumDeclaration => "enum declaration"
  | parameterStatement => "parameter statement"
  | exponentiation => "exponentiation operator"
  | stepOn type => "postfix operator on `" ++ type.name ++ "`"
  | indexAccess => "index access"

inductive CodegenError where
  | unknownIdentifier (name : String) (span : Span)
  | implementation (message : String) (span : Span)
  | notImplemented (construct : String) (span : Span)
  | specialization (function message : String) (span : Span)
  /-- The output of `unit` cannot be written; there is no place in the source. -/
  | classFormat (unit message : String)
  deriving DecidableEq

namespace CodegenError

def fault (f : Fault) (span : Span) : CodegenError := implementation f.message span

def unsupported (u : Unsupported) (span : Span) : CodegenError := notImplemented u.construct span

def message : CodegenError → String
  | unknownIdentifier name _ => "Identifier `" ++ name ++ "` not found in any enclosing scope"
  | implementation message _ => "Implementation error: " ++ message
  | notImplemented construct _ => construct ++ " is not implemented yet"
  | specialization function message _ => "Specialization of `" ++ function ++
      "` failed: " ++ message
  | classFormat unit message => "Class format error in `" ++ unit ++ "`: " ++ message

def span? : CodegenError → Option Span
  | unknownIdentifier _ span | implementation _ span | notImplemented _ span
  | specialization _ _ span => some span
  | classFormat _ _ => none

/-- Text shown at the place of the error. -/
def label : CodegenError → String
  | unknownIdentifier _ _ => "unknown identifier"
  | implementation _ _ => "cannot lower this construct"
  | notImplemented _ _ => "not supported yet"
  | specialization _ _ _ => "conflicting type arguments"
  | classFormat _ _ => "invalid output"

/-- Process status of a compiler that stops on the error. -/
def exitCode : CodegenError → Nat
  | unknownIdentifier _ _ => 2
  | implementation _ _ => 43
  | notImplemented _ _ => 49
  | specialization _ _ _ => 52
  | classFormat _ _ => 70

def help? : CodegenError → Option String
  | notImplemented _ _ => some "this construct is recognized but has no lowering yet"
  | specialization _ _ _ => some "every use of a type parameter must bind the same type"
  | _ => none

end CodegenError

/-- A labelled place in the source. -/
structure DiagnosticLabel where
  offset : Nat
  length : Nat
  text : String
  deriving DecidableEq

/-- What is reported for an error. -/
structure Diagnostic where
  message : String
  help : Option String
  labels : List DiagnosticLabel
  deriving DecidableEq

def CodegenError.diagnostic (e : CodegenError) : Diagnostic where
  message := e.message
  help := e.help?
  labels := (e.span?.map fun s => ⟨s.start, s.length, e.label⟩).toList

end ClassGen
