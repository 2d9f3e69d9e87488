import ClassGen.Text.Lines

/-! The trace of a compilation, as data and as lines of text. -/

namespace ClassGen

inductive Event where
  /-- A generic function waits for its instantiations. -/
  | deferred (function : String)
  /-- A method of that name and descriptor was already emitted. -/
  | reused (method descriptor : String)
  | opened (method descriptor : String)
  | closed (method descriptor : String)
  /-- A statement of a block in the body of `method`. -/
  | statement (kind method : String)
  | requested (index : Nat) (function descriptor : String)
  | struct (name qualifiedName : String) (fields : Nat)
  | finished (unit : String) (methods structs : Nat)
  deriving DecidableEq

namespace Event

def message : Event → String
  | deferred function => "deferring generic function " ++ function
  | reused method descriptor => "reusing " ++ method ++ descriptor
  | opened method descriptor => "open method " ++ method ++ descriptor
  | closed method descriptor => "close method " ++ method ++ descriptor
  | statement kind method => "stmt " ++ kind ++ " in " ++ method
  | requested index function descriptor =>
    "instantiation #" ++ toString index ++ " of " ++ function ++ " requested as " ++ descriptor
  | struct name qualifiedName fields =>
    "struct " ++ name ++ " as " ++ qualifiedName ++ " with " ++ toString fields ++ " fields"
  | finished unit methods structs =>
    "finished unit " ++ unit ++ " with " ++ toString methods ++ " methods and " ++
      toString structs ++
      " struct units"

def text (e : Event) : String := "[ixion-debug] " ++ e.message ++ "\n"

/-- A name with line breaks in it spreads over several lines. -/
def lines (e : Event) : List String := Text.lines e.text

end Event

end ClassGen
