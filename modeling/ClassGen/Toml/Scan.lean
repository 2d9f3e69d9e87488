import ClassGen.Toml.Decimal

/-! The lexical level of TOML: blanks, comments, keys, strings, numbers and date-times.
A scanner reads off the front of the text and answers what it read and the rest. -/

namespace ClassGen.Toml.Scan

abbrev Scanner (α : Type) := List Char → Option (α × List Char)

def isBlank (c : Char) : Bool := c == ' ' || c == '\t'

/-- May stand in a comment or a literal string. -/
def isPlain (c : Char) : Bool := c == '\t' || (0x20 ≤ c.toNat && c.toNat ≤ 0x7e) || 0x80 ≤ c.toNat

def isDigit (c : Char) : Bool := '0' ≤ c && c ≤ '9'

def isHexDigit (c : Char) : Bool := isDigit c || ('a' ≤ c && c ≤ 'f') || ('A' ≤ c && c ≤ 'F')

/-- May stand in a key without quotes. -/
def isBare (c : Char) : Bool :=
  isDigit c || ('a' ≤ c && c ≤ 'z') || ('A' ≤ c && c ≤ 'Z') || c == '-' || c == '_'

def digitValue (c : Char) : Nat :=
  if isDigit c then c.toNat - '0'.toNat
  else if 'a' ≤ c then c.toNat - 'a'.toNat + 10
  else c.toNat - 'A'.toNat + 10

/-- The number that `digits` spell in `base`; other characters count as nothing. -/
def numeral (base : Nat) (digits : List Char) : Nat :=
  digits.foldl (fun n c => if isHexDigit c then n * base + digitValue c else n) 0

def skipBlanks (cs : List Char) : List Char := cs.dropWhile isBlank

/-- The rest after a line break. -/
def newline? : List Char → Option (List Char)
  | '\n' :: cs => some cs
  | '\r' :: '\n' :: cs => some cs
  | _ => none

/-- The rest after a comment, if one stands here. -/
def skipComment : List Char → List Char
  | '#' :: cs => cs.dropWhile isPlain
  | cs => cs

/-- The rest after the end of a line: blanks, a comment, then a break or the end. -/
def endLine? (cs : List Char) : Option (List Char) :=
  match skipComment (skipBlanks cs) with
  | [] => some []
  | cs => newline? cs

/-- Skips blanks, comments and line breaks, at most `fuel` of them. -/
def skipLinesWithin : Nat → List Char → List Char
  | 0, cs => cs
  | fuel + 1, cs =>
    let cs := skipComment (skipBlanks cs)
    match newline? cs with
    | some rest => skipLinesWithin fuel rest
    | none => cs

/-- Skips blanks, comments and line breaks. Each break is a character, so the length is
fuel enough. -/
def skipLines (cs : List Char) : List Char := skipLinesWithin cs.length cs

/-- The character with `count` hexadecimal digits. -/
def unicodeEscape (count : Nat) : Scanner Char := fun cs =>
  let digits := cs.take count
  let n := numeral 16 digits
  if digits.length = count ∧ digits.all isHexDigit ∧ n.isValidChar then
    some (Char.ofNat n, cs.drop count)
  else none

/-- The character that an escape stands for, after the backslash. -/
def escape : Scanner Char
  | 'b' :: cs => some ('\x08', cs)
  | 't' :: cs => some ('\t', cs)
  | 'n' :: cs => some ('\n', cs)
  | 'f' :: cs => some ('\x0c', cs)
  | 'r' :: cs => some ('\r', cs)
  | '"' :: cs => some ('"', cs)
  | '\\' :: cs => some ('\\', cs)
  | 'u' :: cs => unicodeEscape 4 cs
  | 'U' :: cs => unicodeEscape 8 cs
  | _ => none

/-- A string between double quotes, after the opening one; `acc` is reversed. -/
def basicWithin : Nat → List Char → Scanner String
  | _, acc, '"' :: cs => some (String.ofList acc.reverse, cs)
  | fuel + 1, acc, '\\' :: cs => (escape cs).bind fun (c, rest) => basicWithin fuel (c :: acc) rest
  | fuel + 1, acc, c :: cs => if isPlain c then basicWithin fuel (c :: acc) cs else none
  | _, _, _ => none

def basicString (cs : List Char) : Option (String × List Char) := basicWithin cs.length [] cs

/-- A string between single quotes, after the opening one. -/
def literalString (cs : List Char) : Option (String × List Char) :=
  match cs.span fun c => isPlain c && c != '\'' with
  | (text, '\'' :: rest) => some (String.ofList text, rest)
  | _ => none

/-- Closing run of quotes in a multi-line string: up to two of them are text, three close.
Answers the text, with the quotes added to `acc`, and the rest. -/
def closeQuotes (quote : Char) (acc cs : List Char) : Option (String × List Char) :=
  let run := (cs.takeWhile (· == quote)).length
  if run < 3 then none
  else
    let taken := min run 5
    some (String.ofList (List.replicate (taken - 3) quote ++ acc).reverse, cs.drop taken)

/-- Skips blanks and line breaks. -/
def skipSpace : List Char → List Char
  | '\r' :: '\n' :: cs => skipSpace cs
  | '\n' :: cs | ' ' :: cs | '\t' :: cs => skipSpace cs
  | cs => cs

/-- After a backslash at the end of a line, blanks and line breaks are dropped. -/
def skipFolded (cs : List Char) : Option (List Char) := (newline? (skipBlanks cs)).map skipSpace

/-- A multi-line string with escapes, after the opening quotes. -/
def multiBasicWithin : Nat → List Char → Scanner String
  | 0, acc, cs => closeQuotes '"' acc cs
  | fuel + 1, acc, cs =>
    match closeQuotes '"' acc cs, newline? cs, cs with
    | some closed, _, _ => some closed
    | none, some rest, _ => multiBasicWithin fuel ('\n' :: acc) rest
    | none, none, '\\' :: cs =>
      match skipFolded cs with
      | some rest => multiBasicWithin fuel acc rest
      | none => (escape cs).bind fun (c, rest) => multiBasicWithin fuel (c :: acc) rest
    | none, none, c :: cs => if isPlain c then multiBasicWithin fuel (c :: acc) cs else none
    | none, none, [] => none

/-- A multi-line string without escapes, after the opening quotes. -/
def multiLiteralWithin : Nat → List Char → Scanner String
  | 0, acc, cs => closeQuotes '\'' acc cs
  | fuel + 1, acc, cs =>
    match closeQuotes '\'' acc cs, newline? cs, cs with
    | some closed, _, _ => some closed
    | none, some rest, _ => multiLiteralWithin fuel ('\n' :: acc) rest
    | none, none, c :: cs => if isPlain c then multiLiteralWithin fuel (c :: acc) cs else none
    | none, none, [] => none

/-- A line break right after the opening quotes is not part of the string. -/
def afterOpening (cs : List Char) : List Char := (newline? cs).getD cs

def string : Scanner String
  | '"' :: '"' :: '"' :: cs => multiBasicWithin cs.length [] (afterOpening cs)
  | '"' :: cs => basicString cs
  | '\'' :: '\'' :: '\'' :: cs => multiLiteralWithin cs.length [] (afterOpening cs)
  | '\'' :: cs => literalString cs
  | _ => none

/-- One part of a key. -/
def simpleKey : Scanner String
  | '"' :: cs => basicString cs
  | '\'' :: cs => literalString cs
  | cs =>
    match cs.span isBare with
    | ([], _) => none
    | (text, rest) => some (String.ofList text, rest)

/-- Longest key, and deepest nesting of values. -/
def nestingLimit : Nat := 80

/-- A dotted key of at most `fuel` parts, with blanks around each. -/
def keyWithin : Nat → Scanner (List String)
  | 0, _ => none
  | fuel + 1, cs => do
    let (part, rest) ← simpleKey (skipBlanks cs)
    match skipBlanks rest with
    | '.' :: rest =>
      let (parts, rest) ← keyWithin fuel rest
      return (part :: parts, rest)
    | rest => return ([part], rest)

def key : Scanner (List String) := keyWithin (nestingLimit - 1)

/-- Digits with single underscores between them: all of them, and the rest. -/
def digitRun (isDigit : Char → Bool) : List Char → Option (List Char × List Char)
  | [] => none
  | c :: cs =>
    if !isDigit c then none
    else
      match cs with
      | '_' :: cs => (digitRun isDigit cs).map fun (digits, rest) => (c :: digits, rest)
      | cs =>
        match digitRun isDigit cs with
        | some (digits, rest) => some (c :: digits, rest)
        | none => if cs.head?.any isDigit then none else some ([c], cs)

/-- An optional sign: whether it is a minus, and the rest. -/
def sign : List Char → Bool × List Char
  | '+' :: cs => (false, cs)
  | '-' :: cs => (true, cs)
  | cs => (false, cs)

/-- The digits of a decimal number without leading zeros. -/
def decimal : Scanner (List Char)
  | '0' :: cs => some (['0'], cs)
  | cs => digitRun isDigit cs

def isOctalDigit (c : Char) : Bool := '0' ≤ c && c ≤ '7'

def isBinaryDigit (c : Char) : Bool := c == '0' || c == '1'

/-- An integer of sixty-four bits, in base ten with an optional sign or in base sixteen,
eight or two with its mark. -/
def integer (cs : List Char) : Option (Int × List Char) :=
  let bounded (n : Int) (rest : List Char) : Option (Int × List Char) :=
    if Int64.minValue.toInt ≤ n ∧ n ≤ Int64.maxValue.toInt then some (n, rest) else none
  match cs with
  | '0' :: 'x' :: cs => (digitRun isHexDigit cs).bind fun (ds, rest) => bounded (numeral 16 ds) rest
  | '0' :: 'o' :: cs => (digitRun isOctalDigit cs).bind fun (ds, rest) =>
      bounded (numeral 8 ds) rest
  | '0' :: 'b' :: cs => (digitRun isBinaryDigit cs).bind fun (ds, rest) =>
      bounded (numeral 2 ds) rest
  | cs =>
    let (negative, cs) := sign cs
    (decimal cs).bind fun (digits, rest) =>
      let n := numeral 10 digits
      bounded (if negative then -n else n) rest

/-- The number that the digits of an exponent spell. It stops growing when it passes
65535, far beyond the exponents of doubles. -/
def exponentValue (digits : List Char) : Nat :=
  digits.foldl (fun n c => if n < 65536 then n * 10 + digitValue c else n) 0

def exponent : Scanner Int
  | 'e' :: cs | 'E' :: cs =>
    let (negative, cs) := sign cs
    (digitRun isDigit cs).map fun (digits, rest) =>
      let n := exponentValue digits
      (if negative then -n else n, rest)
  | _ => none

/-- A number with a fraction, an exponent or both. -/
def scientific (cs : List Char) : Option (Decimal × List Char) := do
  let (whole, rest) ← decimal cs
  match rest with
  | '.' :: rest =>
    let (fraction, rest) ← digitRun isDigit rest
    let (e, rest) := (exponent rest).getD (0, rest)
    return (⟨numeral 10 (whole ++ fraction), e - fraction.length⟩, rest)
  | rest =>
    let (e, rest) ← exponent rest
    return (⟨numeral 10 whole, e⟩, rest)

/-- The rest after a float or a special value. A number too large for a double is no float,
while one too far below zero counts as infinite. -/
def float? (cs : List Char) : Option (List Char) :=
  let (negative, cs) := sign cs
  match cs with
  | 'i' :: 'n' :: 'f' :: rest | 'n' :: 'a' :: 'n' :: rest => some rest
  | cs => (scientific cs).bind fun (d, rest) => if d.overflows && !negative then none else some rest

/-- A number of exactly `count` digits between two bounds. -/
def fixedNumber (count low high : Nat) : Scanner Nat := fun cs =>
  let digits := cs.take count
  let n := numeral 10 digits
  if digits.length = count ∧ digits.all isDigit ∧ low ≤ n ∧ n ≤ high then some (n, cs.drop count)
  else none

def daysIn (year month : Nat) : Nat :=
  if month = 2 then (if year % 4 = 0 ∧ (year % 100 ≠ 0 ∨ year % 400 = 0) then 29 else 28)
  else if month = 4 ∨ month = 6 ∨ month = 9 ∨ month = 11 then 30
  else 31

/-- The rest after `expected`. -/
def expect (expected : Char) : List Char → Option (List Char)
  | c :: cs => if c = expected then some cs else none
  | [] => none

/-- The rest after a calendar date. -/
def date? (cs : List Char) : Option (List Char) := do
  let (year, cs) ← fixedNumber 4 0 9999 cs
  let (month, cs) ← fixedNumber 2 1 12 (← expect '-' cs)
  let (_, cs) ← fixedNumber 2 1 (daysIn year month) (← expect '-' cs)
  return cs

/-- The rest after a time of day, with seconds and perhaps fractions of them. -/
def time? (cs : List Char) : Option (List Char) := do
  let (_, cs) ← fixedNumber 2 0 23 cs
  let (_, cs) ← fixedNumber 2 0 59 (← expect ':' cs)
  let (_, cs) ← fixedNumber 2 0 60 (← expect ':' cs)
  match cs with
  | '.' :: c :: rest => if isDigit c then some (rest.dropWhile isDigit) else none
  | '.' :: [] => none
  | cs => return cs

/-- The rest after a time offset. -/
def offset? : List Char → Option (List Char)
  | 'Z' :: cs | 'z' :: cs => some cs
  | '+' :: cs | '-' :: cs => do
    let (_, cs) ← fixedNumber 2 0 23 cs
    let (_, cs) ← fixedNumber 2 0 59 (← expect ':' cs)
    return cs
  | _ => none

/-- The rest after a time of day with an optional offset. -/
def timeWithOffset? (cs : List Char) : Option (List Char) := (time? cs).map fun rest =>
    (offset? rest).getD rest

/-- The rest after a date, a time, or both. -/
def dateTime? (cs : List Char) : Option (List Char) :=
  match date? cs with
  | none => time? cs
  | some rest =>
    match rest with
    | 'T' :: time | 't' :: time | ' ' :: time => some ((timeWithOffset? time).getD rest)
    | rest => some rest

end ClassGen.Toml.Scan
