import ClassGen.Scope.Tree
import ClassGen.Source.Span

/-! The typed tree of a source file. Every expression carries the type that checking
gave it, which inside a generic function may mention placeholders, and every block the
scope its statements are in. -/

namespace ClassGen

inductive Literal where
  | int (value : Int32)
  | float (bits : UInt32)
  | double (bits : UInt64)
  | bool (value : Bool)
  | text (value : String)
  deriving DecidableEq

def Literal.type : Literal → Ty
  | int _ => .int
  | float _ => .float
  | double _ => .double
  | bool _ => .boolean
  | text _ => .string

inductive BinaryOp where
  | add | sub | mul | div | mod | pow
  | and | or | xor
  | eq | ne | lt | gt | le | ge
  deriving DecidableEq

namespace BinaryOp

def isRelational : BinaryOp → Bool
  | eq | ne | lt | gt | le | ge => true
  | _ => false

def symbol : BinaryOp → String
  | add => "+"
  | sub => "-"
  | mul => "*"
  | div => "/"
  | mod => "%"
  | pow => "^"
  | and => "and"
  | or => "or"
  | xor => "xor"
  | eq => "=="
  | ne => "!="
  | lt => "<"
  | gt => ">"
  | le => "<="
  | ge => ">="

/-- The arithmetic an operator stands for on numbers. -/
def arithmetic? : BinaryOp → Option Arithmetic
  | add => some .add
  | sub => some .sub
  | mul => some .mul
  | div => some .div
  | mod => some .rem
  | _ => none

end BinaryOp

/-- Increment or decrement of a variable. -/
inductive StepOp where
  | increment | decrement
  deriving DecidableEq

/-- What checking records on an expression. -/
structure Note where
  type : Ty
  span : Span

inductive Expr where
  | literal (note : Note) (value : Literal)
  | ident (note : Note) (name : String)
  | binary (note : Note) (op : BinaryOp) (left right : Expr)
  | assign (note : Note) (target value : Expr)
  | call (note : Note) (callee : Expr) (args : List Expr)
  /-- A chain of fields, from the receiver on. -/
  | property (note : Note) (receiver : Expr) (fields : List String)
  | step (note : Note) (op : StepOp) (operand : Expr)
  | negate (note : Note) (operand : Expr)
  | not (note : Note) (operand : Expr)
  | group (note : Note) (inner : Expr)
  | emptyList (note : Note)
  | listOf (note : Note) (entries : List Expr)
  | index (note : Note) (target position : Expr)
  | moduleMember (note : Note) (module member : String)
  | enumValue (note : Note) (enum variant : String)
  | lambda (note : Note)
  | empty (note : Note)
  /-- Already reported by the parser. -/
  | bad (note : Note)

namespace Expr

def note : Expr → Note
  | literal n _ | ident n _ | binary n _ _ _ | assign n _ _ | call n _ _ | property n _ _
  | step n _ _ | negate n _ | not n _ | group n _ | emptyList n | listOf n _ | index n _ _
  | moduleMember n _ _ | enumValue n _ _ | lambda n | empty n | bad n => n

def type (e : Expr) : Ty := e.note.type

def span (e : Expr) : Span := e.note.span

def isEmpty : Expr → Bool
  | empty _ => true
  | _ => false

end Expr

mutual

inductive Stmt where
  | expr (value : Expr)
  | var (span : Span) (name : String) (init : Expr)
  | function (decl : FunctionDecl)
  | struct (span : Span) (name : String)
  | ret (span : Span) (value : Expr)
  | ifElse (span : Span) (test : Expr) (body : Block) (otherwise : Option Stmt)
  | whileLoop (span : Span) (test : Expr) (body : Block)
  /-- `binding` is declared in the scope of the body. -/
  | forEach (span : Span) (binding : String) (iterable : Expr) (body : Block)
  | matchType (span : Span) (subject : Expr) (arms : List Arm)
  | block (body : Block)
  | exported (inner : Stmt)
  | use (span : Span) (path : String)
  | typeAlias (span : Span) (name : String)
  | unionType (span : Span) (name : String)
  | enum (span : Span) (name : String)
  | parameter (span : Span) (name : String)

structure Block where
  scope : ScopeId
  body : List Stmt
  span : Span

/-- The signature is what the enclosing scope declares under `name`. -/
structure FunctionDecl where
  name : String
  body : Block
  span : Span

/-- An arm of a match on types; an empty `binding` binds nothing. -/
structure Arm where
  pattern : Ty
  binding : String
  body : Block
  span : Span

end

namespace Stmt

/-- Name of the kind of statement, as the trace shows it. -/
def kind : Stmt → String
  | expr _ => "expr"
  | var _ _ _ => "variable"
  | function _ => "function"
  | struct _ _ => "struct"
  | ret _ _ => "return"
  | ifElse _ _ _ _ => "if"
  | whileLoop _ _ _ => "while"
  | forEach _ _ _ _ => "for"
  | matchType _ _ _ => "match"
  | block _ => "block"
  | exported _ => "export"
  | use _ _ => "use"
  | typeAlias _ _ => "type"
  | unionType _ _ => "union"
  | enum _ _ => "enum"
  | parameter _ _ => "parameter"

def span : Stmt → Span
  | expr value => value.span
  | function decl => decl.span
  | block body => body.span
  | exported inner => inner.span
  | var s _ _ | struct s _ | ret s _ | ifElse s _ _ _ | whileLoop s _ _
  | forEach s _ _ _ | matchType s _ _
  | use s _ | typeAlias s _ | unionType s _ | enum s _ | parameter s _ => s

end Stmt

/-- A checked source file. -/
structure SourceFile where
  path : String
  scopes : ScopeTree
  body : List Stmt

namespace SourceFile

/-- Extension of source files. -/
def extension : String := ".ix"

/-- Internal name of the unit of the file: its path without the extension. -/
def unitName (f : SourceFile) : String := Text.dropSuffixes extension f.path

/-- The file name that the emitted units give as their source. -/
def fileName (f : SourceFile) : String :=
  Text.dropSuffixes extension (Text.afterLast '/' f.path) ++ extension

end SourceFile

end ClassGen
