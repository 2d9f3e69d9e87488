/-! Big-endian words, as class files write them. -/

namespace ClassGen

abbrev Bytes := List UInt8

namespace Bytes

def ofU16 (v : UInt16) : Bytes := [(v >>> 8).toUInt8, v.toUInt8]

def ofU32 (v : UInt32) : Bytes :=
  [(v >>> 24).toUInt8, (v >>> 16).toUInt8, (v >>> 8).toUInt8, v.toUInt8]

def ofU64 (v : UInt64) : Bytes := ofU32 (v >>> 32).toUInt32 ++ ofU32 v.toUInt32

end Bytes

end ClassGen
