import Std.Data.TreeMap
import ClassGen.ClassFile.Error
import ClassGen.ClassFile.Method

/-! The deepest operand stack of a method, found in one forward pass. A label takes
the depth of the first edge that reaches it; code behind a terminal instruction goes on
from the depth recorded for its label, or from zero if none was. -/

namespace ClassGen

/-- State of the pass before an instruction. -/
structure DepthScan where
  depth : Int := 0
  deepest : Int := 0
  /-- The instruction before is not terminal. -/
  reachable : Bool := true
  atLabel : Std.TreeMap Label Int := ∅

namespace DepthScan

/-- Arrival at a mark. -/
def mark (s : DepthScan) (label : Label) : DepthScan :=
  match s.atLabel[label]?, s.reachable with
  | some known, false => { s with depth := known, reachable := true }
  | some _, true => s
  | none, true => { s with atLabel := s.atLabel.insert label s.depth }
  | none, false => { s with depth := 0, reachable := true }

/-- One instruction of `method`. -/
def step (method : String) (s : DepthScan) (i : Instr) : Except ClassFormatError DepthScan :=
  match i with
  | .mark label => .ok (s.mark label)
  | i =>
    match i.stackEffect with
    | .error e => .error (.descriptor e)
    | .ok effect =>
      let depth := s.depth + effect
      if depth < 0 then .error (.stackUnderflow method)
      else
        .ok
          { depth
            deepest := max s.deepest depth
            reachable := s.reachable && !i.isTerminal
            atLabel :=
              match i with
              | .jump _ target => s.atLabel.insertIfNew target depth
              | _ => s.atLabel }

def run (method : String) : DepthScan → Code → Except ClassFormatError DepthScan
  | s, [] => .ok s
  | s, i :: rest =>
    match s.step method i with
    | .error e => .error e
    | .ok s => run method s rest

end DepthScan

/-- Deepest operand stack on any path, at most 65535. -/
def Method.maxStack (m : Method) : Except ClassFormatError UInt16 :=
  match DepthScan.run m.name {} m.code with
  | .error e => .error e
  | .ok s => if s.deepest > 65535 then .error (.codeTooLarge m.name)
      else .ok s.deepest.toNat.toUInt16

end ClassGen
