import Introspect.Json.Document

/-!
Reading a document from text by the grammar of the format, with nothing but blanks behind it.
-/

namespace Introspect.Json

def isBlank (c : Char) : Bool := c == ' ' || c == '\n' || c == '\t' || c == '\r'

def skipBlanks (cs : List Char) : List Char := cs.dropWhile isBlank

/-! ### Strings -/

def hexDigit? (c : Char) : Option Nat :=
  if c.isDigit then some (c.toNat - '0'.toNat)
  else if 'a' <= c && c <= 'f' then some (c.toNat - 'a'.toNat + 10)
  else if 'A' <= c && c <= 'F' then some (c.toNat - 'A'.toNat + 10)
  else none

def hex4? (a b c d : Char) : Option Nat := do
  return (← hexDigit? a) * 0x1000 + (← hexDigit? b) * 0x100 + (← hexDigit? c) * 0x10 + (← hexDigit? d)

def isHighSurrogate (n : Nat) : Bool := 0xD800 <= n && n < 0xDC00

def isLowSurrogate (n : Nat) : Bool := 0xDC00 <= n && n < 0xE000

def simpleEscape? : Char → Option Char
  | '"' => some '"'
  | '\\' => some '\\'
  | '/' => some '/'
  | 'b' => some '\x08'
  | 'f' => some '\x0c'
  | 'n' => some '\n'
  | 'r' => some '\r'
  | 't' => some '\t'
  | _ => none

/-- The low surrogate that an escape at the front stands for, and the rest. -/
def lowSurrogate? : List Char → Option (Nat × List Char)
  | '\\' :: 'u' :: a :: b :: c :: d :: rest => do
    let n ← hex4? a b c d
    if isLowSurrogate n then some (n, rest) else none
  | _ => none

/-- The rest of a string up to its closing quote, with its text if there is one. -/
def readString : (fuel : Nat) → List Char → Option (Option (List Char) × List Char)
  | 0, _ => none
  | _, [] => none
  | _, '"' :: rest => some (some [], rest)
  | fuel + 1, '\\' :: 'u' :: a :: b :: c :: d :: rest => do
    let n ← hex4? a b c d
    -- Two escapes for a pair of surrogates are one character; half a pair leaves no text.
    if isHighSurrogate n then
      match lowSurrogate? rest with
      | some (low, rest) =>
        let (text?, rest) ← readString fuel rest
        let c := Char.ofNat (0x10000 + (n - 0xD800) * 0x400 + (low - 0xDC00))
        return (text?.map (c :: ·), rest)
      | none =>
        let (_, rest) ← readString fuel rest
        return (none, rest)
    else
      let (text?, rest) ← readString fuel rest
      return (if isLowSurrogate n then none else text?.map (Char.ofNat n :: ·), rest)
  | fuel + 1, '\\' :: c :: rest => do
    let c ← simpleEscape? c
    let (text?, rest) ← readString fuel rest
    return (text?.map (c :: ·), rest)
  | fuel + 1, c :: rest => do
    if c.toNat < 0x20 || c == '\\' then none
    else
      let (text?, rest) ← readString fuel rest
      return (text?.map (c :: ·), rest)

/-! ### Numbers -/

/-- One digit or more. -/
def readDigits? (cs : List Char) : Option (List Char × List Char) :=
  let digits := cs.takeWhile Char.isDigit
  if digits.isEmpty then none else some (digits, cs.dropWhile Char.isDigit)

/-- Digits of a whole number: a zero has none behind it. -/
def readWhole? (cs : List Char) : Option (List Char × List Char) := do
  let (digits, rest) ← readDigits? cs
  if digits.head? == some '0' && digits.length != 1 then none else some (digits, rest)

/-- What is left behind a fraction, if there is one, and whether there is. -/
def readFraction? : List Char → Option (Bool × List Char)
  | '.' :: rest => (readDigits? rest).map fun (_, rest) => (true, rest)
  | cs => some (false, cs)

/-- What is left behind an exponent, if there is one, and whether there is. -/
def readExponent? : List Char → Option (Bool × List Char)
  | c :: rest =>
    if c == 'e' || c == 'E' then
      let digits := match rest with
        | '+' :: rest => rest
        | '-' :: rest => rest
        | rest => rest
      (readDigits? digits).map fun (_, rest) => (true, rest)
    else some (false, c :: rest)
  | [] => some (false, [])

def readNumber? (cs : List Char) : Option (Document × List Char) := do
  let (negative, cs) := match cs with
    | '-' :: rest => (true, rest)
    | cs => (false, cs)
  let (digits, rest) ← readWhole? cs
  let (hasFraction, rest) ← readFraction? rest
  let (hasExponent, rest) ← readExponent? rest
  let value := digits.foldl (fun n c => 10 * n + (c.toNat - '0'.toNat)) 0
  return (.number (if negative || hasFraction || hasExponent then none else some value), rest)

/-! ### Documents -/

def readWord? (word : String) (d : Document) (cs : List Char) : Option (Document × List Char) :=
  if word.toList.isPrefixOf cs then some (d, cs.drop word.length) else none

mutual

/-- A document at the front of the text. Each step down takes a character, so a `fuel` above the
length of the text is never used up. -/
def readDocument : (fuel : Nat) → List Char → Option (Document × List Char)
  | 0, _ => none
  | fuel + 1, cs =>
    match skipBlanks cs with
    | '\x7b' :: rest =>
      match skipBlanks rest with
      | '\x7d' :: rest => some (.object [], rest)
      | rest => do
        let (entries, rest) ← readEntries fuel rest
        return (.object entries, rest)
    | '[' :: rest =>
      match skipBlanks rest with
      | ']' :: rest => some (.array [], rest)
      | rest => do
        let (items, rest) ← readItems fuel rest
        return (.array items, rest)
    | '"' :: rest => do
      let (text?, rest) ← readString (rest.length + 1) rest
      return (.string (text?.map String.ofList), rest)
    | 'n' :: rest => readWord? "ull" .null rest
    | 't' :: rest => readWord? "rue" (.bool true) rest
    | 'f' :: rest => readWord? "alse" (.bool false) rest
    | rest => readNumber? rest

def readItems : (fuel : Nat) → List Char → Option (List Document × List Char)
  | 0, _ => none
  | fuel + 1, cs => do
    let (item, rest) ← readDocument fuel cs
    match skipBlanks rest with
    | ',' :: rest =>
      let (items, rest) ← readItems fuel rest
      return (item :: items, rest)
    | ']' :: rest => return ([item], rest)
    | _ => none

def readEntries : (fuel : Nat) → List Char → Option (List (Option String × Document) × List Char)
  | 0, _ => none
  | fuel + 1, cs => do
    let '"' :: rest := skipBlanks cs | none
    let (key?, rest) ← readString (rest.length + 1) rest
    let ':' :: rest := skipBlanks rest | none
    let (value, rest) ← readDocument fuel rest
    let entry := (key?.map String.ofList, value)
    match skipBlanks rest with
    | ',' :: rest =>
      let (entries, rest) ← readEntries fuel rest
      return (entry :: entries, rest)
    | '\x7d' :: rest => return ([entry], rest)
    | _ => none

end

/-- The one document of a text. -/
def read? (text : String) : Option Document := do
  let cs := text.toList
  let (d, rest) ← readDocument (2 * cs.length + 2) cs
  if (skipBlanks rest).isEmpty then some d else none

end Introspect.Json
