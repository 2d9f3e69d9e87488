/-! Field and method descriptors: one letter, an `L name ;` or a bracketed element
type per value, parameters between parentheses, then the result. Texts are read by
`FieldType.parse` and `MethodDescriptor.parse` and written by the two `text`
functions. Only reading decides what is well formed; a text that is not is carried
back in the error. -/

namespace ClassGen

/-- The text that is not a descriptor. -/
structure DescriptorError where
  text : String
  deriving DecidableEq

def DescriptorError.message (e : DescriptorError) : String :=
  "invalid descriptor `" ++ e.text ++ "`"

/-- Type of a field or of one argument. -/
inductive FieldType where
  | byte | char | double | float | int | long | short | boolean
  | object (name : String)
  | array (element : FieldType)
  deriving DecidableEq

namespace FieldType

/-- Slots taken on the operand stack and among the locals. -/
def slots : FieldType → Nat
  | double | long => 2
  | _ => 1

def chars : FieldType → List Char
  | byte => ['B']
  | char => ['C']
  | double => ['D']
  | float => ['F']
  | int => ['I']
  | long => ['J']
  | short => ['S']
  | boolean => ['Z']
  | object name => 'L' :: name.toList ++ [';']
  | array element => '[' :: element.chars

def text (t : FieldType) : String := String.ofList t.chars

/-- Reads one type off the front. An object name is not empty and runs to the first
semicolon. -/
def read : List Char → Option (FieldType × List Char)
  | 'B' :: cs => some (byte, cs)
  | 'C' :: cs => some (char, cs)
  | 'D' :: cs => some (double, cs)
  | 'F' :: cs => some (float, cs)
  | 'I' :: cs => some (int, cs)
  | 'J' :: cs => some (long, cs)
  | 'S' :: cs => some (short, cs)
  | 'Z' :: cs => some (boolean, cs)
  | 'L' :: cs =>
    match cs.takeWhile (· != ';'), cs.dropWhile (· != ';') with
    | c :: name, ';' :: rest => some (object (String.ofList (c :: name)), rest)
    | _, _ => none
  | '[' :: cs => (read cs).map fun (element, rest) => (array element, rest)
  | _ => none

/-- Reads types as long as one can be read; `acc` holds those read so far, last
first. Every type takes a character, so the length of the text is fuel enough. -/
def readMany : Nat → List FieldType → List Char → List FieldType × List Char
  | 0, acc, cs => (acc.reverse, cs)
  | fuel + 1, acc, cs =>
    match read cs with
    | some (t, rest) => readMany fuel (t :: acc) rest
    | none => (acc.reverse, cs)

def parse (text : String) : Except DescriptorError FieldType :=
  match read text.toList with
  | some (t, []) => .ok t
  | _ => .error ⟨text⟩

end FieldType

/-- Parameter types and result type of a method; no result type means void. -/
structure MethodDescriptor where
  params : List FieldType
  ret : Option FieldType
  deriving DecidableEq

namespace MethodDescriptor

def chars (d : MethodDescriptor) : List Char :=
  '(' :: d.params.flatMap FieldType.chars ++ ')' :: (d.ret.map FieldType.chars).getD ['V']

def text (d : MethodDescriptor) : String := String.ofList d.chars

/-- Reads the whole of `cs` as the result part. -/
def readResult : List Char → Option (Option FieldType)
  | ['V'] => some none
  | cs =>
    match FieldType.read cs with
    | some (t, []) => some (some t)
    | _ => none

def read : List Char → Option MethodDescriptor
  | '(' :: cs =>
    match FieldType.readMany cs.length [] cs with
    | (params, ')' :: rest) => (readResult rest).map fun ret => ⟨params, ret⟩
    | _ => none
  | _ => none

def parse (text : String) : Except DescriptorError MethodDescriptor :=
  match read text.toList with
  | some d => .ok d
  | none => .error ⟨text⟩

/-- Slots of all arguments, the receiver apart. -/
def argWidth (d : MethodDescriptor) : Nat := d.params.foldr (fun t rest => t.slots + rest) 0

/-- The same as a call counts them, in sixteen bits. -/
def argSlots (d : MethodDescriptor) : UInt16 :=
  d.params.foldr (fun t rest => t.slots.toUInt16 + rest) 0

theorem argSlots_eq (d : MethodDescriptor) : d.argSlots = d.argWidth.toUInt16 := by
  unfold argSlots argWidth
  induction d.params with
  | nil => rfl
  | cons t ts ih =>
    rw [List.foldr_cons, List.foldr_cons, ih]
    exact (UInt16.ofNat_add _ _).symm

theorem argSlots_le (d : MethodDescriptor) : d.argSlots.toNat ≤ d.argWidth := by
  rw [argSlots_eq]
  exact Nat.mod_le _ _

def returnSlots (d : MethodDescriptor) : Nat := (d.ret.map FieldType.slots).getD 0

/-- First slot of each of `params` when the first one stands at `base`. -/
def offsetsFrom : Nat → List FieldType → List Nat
  | _, [] => []
  | base, t :: ts => base :: offsetsFrom (base + t.slots) ts

def argOffsets (d : MethodDescriptor) (base : Nat) : List Nat := offsetsFrom base d.params

end MethodDescriptor

end ClassGen
