import UtxoLedger.Bytes

/-!
# JSON text

A strict reader of JSON: no comments, no trailing commas, no leading zeros, no raw control
characters, nothing behind the value. Numbers keep their literal text, so that a reader of settings
can insist on plain integers.
-/
namespace UtxoLedger

/-- A JSON value. A string is `none` when its escapes leave half of a surrogate pair alone. -/
inductive Json
  | null
  | bool (b : Bool)
  | number (literal : List Char)
  | string (text : Option String)
  | array (items : List Json)
  | object (members : List (Option String × Json))

namespace Json

/-- Blanks between tokens. -/
def isBlank (c : Char) : Bool := c = ' ' || c = '\t' || c = '\n' || c = '\r'

def skipBlanks (s : List Char) : List Char := s.dropWhile isBlank

/-- The value of a hexadecimal digit in either case. -/
def hexValue? (c : Char) : Option Nat := Bytes.hexValue? c.toLower

/-- The value of four hexadecimal digits. -/
def hex4? (a b c d : Char) : Option Nat := do
  let x ← hexValue? a
  let y ← hexValue? b
  let z ← hexValue? c
  let w ← hexValue? d
  return ((x * 16 + y) * 16 + z) * 16 + w

/-- The characters that may follow a backslash on their own. -/
def escape? : Char → Option Char
  | '"' => some '"'
  | '\\' => some '\\'
  | '/' => some '/'
  | 'b' => some '\x08'
  | 'f' => some '\x0c'
  | 'n' => some '\n'
  | 'r' => some '\r'
  | 't' => some '\t'
  | _ => none

/-- The code points and escaped code units up to the closing quote, and the text behind it. -/
def readString : List Char → Option (List Nat × List Char)
  | [] => none
  | '"' :: rest => some ([], rest)
  | '\\' :: 'u' :: a :: b :: c :: d :: rest => do
    let unit ← hex4? a b c d
    let (units, rest) ← readString rest
    return (unit :: units, rest)
  | '\\' :: c :: rest => do
    let e ← escape? c
    let (units, rest) ← readString rest
    return (e.toNat :: units, rest)
  | c :: rest =>
    if c.toNat < 32 then none
    else do
      let (units, rest) ← readString rest
      return (c.toNat :: units, rest)

def isHighSurrogate (n : Nat) : Bool := 0xd800 ≤ n && n < 0xdc00

def isLowSurrogate (n : Nat) : Bool := 0xdc00 ≤ n && n < 0xe000

/-- Joins surrogate pairs; a half that is left alone is no character. -/
def joinSurrogates : List Nat → Option (List Char)
  | [] => some []
  | h :: l :: rest =>
    if isHighSurrogate h then
      if isLowSurrogate l then
        (joinSurrogates rest).map (Char.ofNat (0x10000 + (h - 0xd800) * 0x400 + (l - 0xdc00)) :: ·)
      else none
    else if isLowSurrogate h then none
    else (joinSurrogates (l :: rest)).map (Char.ofNat h :: ·)
  | [c] => if isHighSurrogate c || isLowSurrogate c then none else some [Char.ofNat c]

/-- A run of at least one digit, and the text behind it. -/
def digits? (s : List Char) : Option (List Char × List Char) :=
  match s.takeWhile Char.isDigit with
  | [] => none
  | ds => some (ds, s.dropWhile Char.isDigit)

/-- Zero, or digits that do not start with a zero. -/
def whole? (s : List Char) : Option (List Char × List Char) := do
  let (ds, rest) ← digits? s
  match ds with
  | '0' :: _ :: _ => none
  | _ => some (ds, rest)

/-- A point and digits, if there is a point. -/
def fraction? : List Char → Option (List Char × List Char)
  | '.' :: rest => (digits? rest).map fun (ds, rest) => ('.' :: ds, rest)
  | s => some ([], s)

/-- An exponent mark, an optional sign and digits, if there is a mark. -/
def exponent? : List Char → Option (List Char × List Char)
  | c :: rest =>
    if c = 'e' || c = 'E' then
      match rest with
      | '+' :: more => (digits? more).map fun (ds, rest) => (c :: '+' :: ds, rest)
      | '-' :: more => (digits? more).map fun (ds, rest) => (c :: '-' :: ds, rest)
      | _ => (digits? rest).map fun (ds, rest) => (c :: ds, rest)
    else some ([], c :: rest)
  | [] => some ([], [])

/-- A number without its sign. -/
def unsigned? (s : List Char) : Option (List Char × List Char) := do
  let (w, s) ← whole? s
  let (f, s) ← fraction? s
  let (e, s) ← exponent? s
  return (w ++ f ++ e, s)

/-- Takes a fixed word off the front. -/
def word? (word : List Char) (value : Json) (s : List Char) : Option (Json × List Char) :=
  if word.isPrefixOf s then some (value, s.drop word.length) else none

mutual

/-- A value at the front of the text, and the text behind it. -/
def value? : Nat → List Char → Option (Json × List Char)
  | 0, _ => none
  | fuel + 1, s =>
    match skipBlanks s with
    | '{' :: rest =>
      match skipBlanks rest with
      | '}' :: rest => some (object [], rest)
      | rest => (members? fuel rest).map fun (ms, rest) => (object ms, rest)
    | '[' :: rest =>
      match skipBlanks rest with
      | ']' :: rest => some (array [], rest)
      | rest => (items? fuel rest).map fun (vs, rest) => (array vs, rest)
    | '"' :: rest =>
      (readString rest).map fun (units, rest) =>
        (string ((joinSurrogates units).map String.ofList), rest)
    | '-' :: rest => (unsigned? rest).map fun (n, rest) => (number ('-' :: n), rest)
    | 't' :: rest => word? "true".toList (bool true) ('t' :: rest)
    | 'f' :: rest => word? "false".toList (bool false) ('f' :: rest)
    | 'n' :: rest => word? "null".toList null ('n' :: rest)
    | s => (unsigned? s).map fun (n, rest) => (number n, rest)

/-- The items of an array up to its closing bracket. -/
def items? : Nat → List Char → Option (List Json × List Char)
  | 0, _ => none
  | fuel + 1, s => do
    let (v, s) ← value? fuel s
    match skipBlanks s with
    | ',' :: rest => (items? fuel rest).map fun (vs, rest) => (v :: vs, rest)
    | ']' :: rest => some ([v], rest)
    | _ => none

/-- The members of an object up to its closing brace. -/
def members? : Nat → List Char → Option (List (Option String × Json) × List Char)
  | 0, _ => none
  | fuel + 1, s =>
    match skipBlanks s with
    | '"' :: rest => do
      let (units, s) ← readString rest
      let key := (joinSurrogates units).map String.ofList
      match skipBlanks s with
      | ':' :: rest => do
        let (v, s) ← value? fuel rest
        match skipBlanks s with
        | ',' :: rest => (members? fuel rest).map fun (ms, rest) => ((key, v) :: ms, rest)
        | '}' :: rest => some ([(key, v)], rest)
        | _ => none
      | _ => none
    | _ => none

end

/-- Reads a text that is one value and blanks. No value needs more calls than twice its length. -/
def parse? (text : String) : Option Json :=
  let s := text.toList
  match value? (2 * s.length + 2) s with
  | some (v, rest) => if (skipBlanks rest).isEmpty then some v else none
  | none => none

/-- The value of a run of decimal digits. -/
def ofDigits (ds : List Char) : Nat := ds.foldl (fun n c => 10 * n + (c.toNat - 48)) 0

/-- A plain natural number below `limit`: no sign, fraction or exponent. -/
def natBelow? (limit : Nat) : Json → Option Nat
  | number literal =>
    if literal.all Char.isDigit && ofDigits literal < limit then some (ofDigits literal) else none
  | _ => none

def bool? : Json → Option Bool
  | bool b => some b
  | _ => none

end Json
end UtxoLedger
