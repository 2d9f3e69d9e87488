import ClassGen.Toml.Scan
import ClassGen.Toml.Table

/-! Reading a TOML document into the table it defines. There is no account of what is
wrong with a text that is no document. -/

namespace ClassGen.Toml

open Scan

mutual

/-- A value inside `depth` arrays and inline tables. -/
def valueWithin : Nat → Nat → Scanner Toml
  | 0, _, _ => none
  | fuel + 1, depth, cs =>
    match cs with
    | '"' :: _ | '\'' :: _ => (Scan.string cs).map fun (s, rest) => (.string s, rest)
    | '[' :: rest =>
      if depth + 1 < nestingLimit then itemsWithin fuel (depth + 1) [] (skipLines rest) else none
    | '{' :: rest =>
      if depth + 1 < nestingLimit then
        match skipBlanks rest with
        | '}' :: rest => some (.inline [], rest)
        | rest => pairsWithin fuel (depth + 1) [] rest
      else none
    | 't' :: 'r' :: 'u' :: 'e' :: rest => some (.boolean true, rest)
    | 'f' :: 'a' :: 'l' :: 's' :: 'e' :: rest => some (.boolean false, rest)
    | cs =>
      match dateTime? cs, float? cs with
      | some rest, _ => some (.dateTime, rest)
      | none, some rest => some (.float, rest)
      | none, none => (Scan.integer cs).map fun (n, rest) => (.integer n, rest)

/-- Items of an array up to its end; `acc` holds those read, last first. -/
def itemsWithin : Nat → Nat → List Toml → Scanner Toml
  | _, _, acc, ']' :: rest => some (.array acc.reverse, rest)
  | 0, _, _, _ => none
  | fuel + 1, depth, acc, cs => do
    let (item, rest) ← valueWithin fuel depth cs
    match skipLines rest with
    | ',' :: rest => itemsWithin fuel depth (item :: acc) (skipLines rest)
    | ']' :: rest => return (.array (item :: acc).reverse, rest)
    | _ => none

/-- Pairs of an inline table up to its end; `entries` are those read. -/
def pairsWithin : Nat → Nat → Entries → Scanner Toml
  | 0, _, _, _ => none
  | fuel + 1, depth, entries, cs => do
    let (path, rest) ← key cs
    let rest ← expect '=' rest
    let (value, rest) ← valueWithin fuel depth (skipBlanks rest)
    let entries ← put (← path.getLast?) value path.dropLast entries
    match skipBlanks rest with
    | ',' :: rest => pairsWithin fuel depth entries rest
    | '}' :: rest => return (.inline entries, rest)
    | _ => none

end

/-- A value. Each step of reading takes a character, so twice the length is fuel enough. -/
def value (cs : List Char) : Option (Toml × List Char) := valueWithin (2 * cs.length + 2) 0 cs

/-- The tables read so far, and the path of the header in force. -/
structure Document where
  root : Entries := []
  header : List String := []

namespace Document

/-- A header after its opening bracket or brackets. -/
def readHeader (d : Document) (element : Bool) (cs : List Char) :
    Option (Document × List Char) := do
  let (path, rest) ← key cs
  let last ← path.getLast?
  let rest ← expect ']' rest
  let rest ← if element then expect ']' rest else some rest
  let root ← within (if element then openElement last else openTable last) path.dropLast d.root
  return (⟨root, path⟩, ← endLine? rest)

/-- A key with its value. -/
def readPair (d : Document) (cs : List Char) : Option (Document × List Char) := do
  let (path, rest) ← key cs
  let rest ← expect '=' rest
  let (v, rest) ← value (skipBlanks rest)
  let root ← within (put (← path.getLast?) v path.dropLast) d.header d.root
  return (⟨root, d.header⟩, ← endLine? rest)

/-- Reads the lines of a document, at most `fuel` of them. -/
def readWithin : Nat → Document → List Char → Option Document
  | fuel, d, cs =>
    match skipLines cs, fuel with
    | [], _ => some d
    | _, 0 => none
    | '[' :: '[' :: rest, fuel + 1 => do
      let (d, rest) ← d.readHeader true rest
      readWithin fuel d rest
    | '[' :: rest, fuel + 1 => do
      let (d, rest) ← d.readHeader false rest
      readWithin fuel d rest
    | cs, fuel + 1 => do
      let (d, rest) ← d.readPair cs
      readWithin fuel d rest

end Document

/-- The root table of a document. A byte order mark may come first. -/
def parse (text : String) : Option Entries :=
  let cs := match text.toList with
    | '\ufeff' :: cs => cs
    | cs => cs
  (Document.readWithin (cs.length + 1) {} cs).map Document.root

end ClassGen.Toml
