/-! Access flags of classes, fields and methods. -/

namespace ClassGen

abbrev Access := UInt16

namespace Access

abbrev publicFlag : Access := 0x0001
abbrev staticFlag : Access := 0x0008
/-- Set on every class. -/
abbrev superFlag : Access := 0x0020
abbrev publicStatic : Access := publicFlag ||| staticFlag
abbrev publicClass : Access := publicFlag ||| superFlag

/-- A method without a receiver. -/
def isStatic (a : Access) : Bool := a &&& staticFlag != 0

end Access

end ClassGen
