import ClassGen.Descriptor

/-! What keeps a unit from being written as a class file. -/

namespace ClassGen

inductive ClassFormatError where
  | descriptor (cause : DescriptorError)
  | poolOverflow
  | codeTooLarge (method : String)
  | branchOutOfRange (method : String)
  /-- A branch to a label that no mark places. -/
  | unknownLabel (method : String)
  | stackUnderflow (method : String)
  deriving DecidableEq

def ClassFormatError.message : ClassFormatError → String
  | descriptor cause => cause.message
  | poolOverflow => "constant pool exceeds 65535 entries"
  | codeTooLarge method => "method `" ++ method ++ "` is too large"
  | branchOutOfRange method => "branch in `" ++ method ++ "` is out of range"
  | unknownLabel method => "branch in `" ++ method ++ "` targets a label that is never placed"
  | stackUnderflow method => "operand stack underflow in `" ++ method ++ "`"

end ClassGen
