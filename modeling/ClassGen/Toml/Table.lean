import ClassGen.Dict

/-! TOML values, and tables under construction. A document defines tables by headers, by
dotted keys and by inline tables. Each table remembers how it came to be, because that
decides what may still be added to it: an inline table and a plain value are closed, a
table with a header cannot be extended by dotted keys, and one made by dotted keys gets no
header. Of floats and date-times only the kind is kept. -/

namespace ClassGen

/-- How a table came to be. -/
inductive TableOrigin where
  /-- Has a header of its own. -/
  | header
  /-- On the way to a table with a header. -/
  | implied
  | dotted
  deriving DecidableEq

inductive Toml where
  | string (text : String)
  | integer (value : Int)
  | float
  | boolean (value : Bool)
  | dateTime
  | array (items : List Toml)
  | inline (entries : List (String × Toml))
  | table (origin : TableOrigin) (entries : List (String × Toml))
  /-- An array of tables; headers extend the last one. -/
  | tables (items : List (List (String × Toml)))

namespace Toml

abbrev Entries := List (String × Toml)

/-- Applies `f` to the table at the end of a header path. Missing tables on the way are
made, and an array of tables means its last one. -/
def within (f : Entries → Option Entries) : List String → Entries → Option Entries
  | [], es => f es
  | key :: keys, es =>
    match es.lookup key with
    | none => (within f keys []).map fun sub => Dict.insert key (.table .implied sub) es
    | some (.table origin sub) =>
      (within f keys sub).map fun sub => Dict.insert key (.table origin sub) es
    | some (.tables items) => do
      let sub ← within f keys (← items.getLast?)
      return Dict.insert key (.tables (items.dropLast ++ [sub])) es
    | some _ => none

/-- Adds `key` with its value under a dotted path. The table that receives it must be one
that dotted keys made, and no key is given twice. -/
def put (key : String) (value : Toml) : List String → Entries → Option Entries
  | [], es => if (es.lookup key).isSome then none else some (es ++ [(key, value)])
  | part :: parts, es =>
    match es.lookup part with
    | none => (put key value parts []).map fun sub => Dict.insert part (.table .dotted sub) es
    | some (.table .header _) => none
    | some (.table origin sub) =>
      if parts.isEmpty && origin != .dotted then none
      else (put key value parts sub).map fun sub => Dict.insert part (.table origin sub) es
    | some (.tables items) =>
      if parts.isEmpty then none
      else do
        let sub ← put key value parts (← items.getLast?)
        return Dict.insert part (.tables (items.dropLast ++ [sub])) es
    | some _ => none

/-- A table header for `key`; only an implied table may be there before it. -/
def openTable (key : String) (es : Entries) : Option Entries :=
  match es.lookup key with
  | none => some (es ++ [(key, .table .header [])])
  | some (.table .implied sub) => some (Dict.insert key (.table .header sub) es)
  | some _ => none

/-- One more table for the array of tables at `key`. -/
def openElement (key : String) (es : Entries) : Option Entries :=
  match es.lookup key with
  | none => some (es ++ [(key, .tables [[]])])
  | some (.tables items) => some (Dict.insert key (.tables (items ++ [[]])) es)
  | some _ => none

end Toml

end ClassGen
