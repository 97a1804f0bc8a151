import RouteContract.Decimal.Literal
import RouteContract.Json.Value

/-!
# Reading JSON text

`Json.parse?` reads one value and nothing after it. An integer literal that fits 64 bits stays an
integer, every other literal becomes the nearest double; of a repeated member name the last value
counts, at the first position. Reading recurses on a budget that starts at the length of the text,
which every nested value makes shorter.
-/

namespace RouteContract

/-- The number a literal stands for. The literal has no leading plus sign and no superfluous zeros,
and digits on both sides of a point; `-0` is the negative zero, which only a double has. -/
def Number.ofLiteral? (cs : List Char) : Option Number :=
  let body := match cs with
    | '-' :: rest => rest
    | _ => cs
  let whole := body.takeWhile Decimal.isDigit
  let rest := body.dropWhile Decimal.isDigit
  let wellFormed := match whole, rest with
    | [], _ => false
    | '0' :: _ :: _, _ => false
    | _, '.' :: after => !(after.takeWhile Decimal.isDigit).isEmpty
    | _, _ => true
  let float := (Decimal.binary64? cs).map .float
  if !wellFormed then none
  else if rest.isEmpty then
    match Decimal.int? cs with
    | some n =>
      if n = 0 && body.length < cs.length then float
      else if decide (leastInt ≤ n) && decide (n ≤ greatestInt) then some (.int n)
      else float
    | none => none
  else float

namespace Json

/-- Blanks between the tokens of JSON. -/
def isTokenBlank (c : Char) : Bool := c == ' ' || c == '\t' || c == '\n' || c == '\r'

/-- Drops blanks in front. -/
def skipBlanks (cs : List Char) : List Char := cs.dropWhile isTokenBlank

/-- Value of a hexadecimal digit. -/
def hexDigit? (c : Char) : Option Nat :=
  if '0' ≤ c ∧ c ≤ '9' then some (c.toNat - '0'.toNat)
  else if 'a' ≤ c ∧ c ≤ 'f' then some (c.toNat - 'a'.toNat + 10)
  else if 'A' ≤ c ∧ c ≤ 'F' then some (c.toNat - 'A'.toNat + 10)
  else none

/-- Value of four hexadecimal digits. -/
def hex4? (a b c d : Char) : Option Nat := do
  let a ← hexDigit? a
  let b ← hexDigit? b
  let c ← hexDigit? c
  let d ← hexDigit? d
  return ((a * 16 + b) * 16 + c) * 16 + d

/-- The character an escape of one letter stands for. -/
def unescape? : Char → Option Char
  | '"' => some '"'
  | '\\' => some '\\'
  | '/' => some '/'
  | 'b' => some '\x08'
  | 'f' => some '\x0c'
  | 'n' => some '\n'
  | 'r' => some '\r'
  | 't' => some '\t'
  | _ => none

/-- The inside of a string up to its closing quote, in reverse. Two escaped surrogates are one
character; a lone one is refused. -/
def readString? (acc : List Char) : List Char → Option (String × List Char)
  | '"' :: rest => some (String.ofList acc.reverse, rest)
  | '\\' :: 'u' :: a :: b :: c :: d :: rest =>
    match hex4? a b c d with
    | none => none
    | some high =>
      if 0xD800 ≤ high ∧ high < 0xDC00 then
        match rest with
        | '\\' :: 'u' :: e :: f :: g :: h :: rest =>
          match hex4? e f g h with
          | some low =>
            if 0xDC00 ≤ low ∧ low < 0xE000 then
              let code := 0x10000 + (high - 0xD800) * 0x400 + (low - 0xDC00)
              readString? (Char.ofNat code :: acc) rest
            else none
          | none => none
        | _ => none
      else if 0xDC00 ≤ high ∧ high < 0xE000 then none
      else readString? (Char.ofNat high :: acc) rest
  | '\\' :: c :: rest =>
    match unescape? c with
    | some plain => readString? (plain :: acc) rest
    | none => none
  | c :: rest => if c.toNat < 0x20 then none else readString? (c :: acc) rest
  | [] => none

/-- Characters that can occur in a number. -/
def isNumberChar (c : Char) : Bool :=
  Decimal.isDigit c || c == '-' || c == '+' || c == '.' || c == 'e' || c == 'E'

mutual

/-- One value in front of the text, after blanks, and what follows it. -/
def readValue? : Nat → List Char → Option (Json × List Char)
  | 0, _ => none
  | budget + 1, cs =>
    match skipBlanks cs with
    | 'n' :: 'u' :: 'l' :: 'l' :: rest => some (.null, rest)
    | 't' :: 'r' :: 'u' :: 'e' :: rest => some (.bool true, rest)
    | 'f' :: 'a' :: 'l' :: 's' :: 'e' :: rest => some (.bool false, rest)
    | '"' :: rest => (readString? [] rest).map fun (s, rest) => (.str s, rest)
    | '[' :: rest =>
      match skipBlanks rest with
      | ']' :: rest => some (.arr [], rest)
      | rest => (readElements? budget [] rest).map fun (xs, rest) => (.arr xs, rest)
    | '\x7b' :: rest =>
      match skipBlanks rest with
      | '\x7d' :: rest => some (.obj [], rest)
      | rest => (readMembers? budget [] rest).map fun (ms, rest) => (.obj ms, rest)
    | rest =>
      (Number.ofLiteral? (rest.takeWhile isNumberChar)).map fun n =>
        (.num n, rest.dropWhile isNumberChar)

/-- Elements up to the closing bracket; `acc` holds those already read, in reverse. -/
def readElements? : Nat → List Json → List Char → Option (List Json × List Char)
  | 0, _, _ => none
  | budget + 1, acc, cs =>
    match readValue? budget cs with
    | none => none
    | some (x, rest) =>
      match skipBlanks rest with
      | ',' :: rest => readElements? budget (x :: acc) rest
      | ']' :: rest => some ((x :: acc).reverse, rest)
      | _ => none

/-- Members up to the closing brace; `acc` holds those already read. -/
def readMembers? : Nat → Entries Json → List Char → Option (Entries Json × List Char)
  | 0, _, _ => none
  | budget + 1, acc, cs =>
    match skipBlanks cs with
    | '"' :: rest =>
      match readString? [] rest with
      | none => none
      | some (key, rest) =>
        match skipBlanks rest with
        | ':' :: rest =>
          match readValue? budget rest with
          | none => none
          | some (v, rest) =>
            match skipBlanks rest with
            | ',' :: rest => readMembers? budget (acc.put key v) rest
            | '\x7d' :: rest => some (acc.put key v, rest)
            | _ => none
        | _ => none
    | _ => none

end

/-- The value that a text holds, if it holds exactly one. -/
def parse? (s : String) : Option Json :=
  let cs := s.toList
  match readValue? (cs.length + 1) cs with
  | some (v, rest) => if (skipBlanks rest).isEmpty then some v else none
  | none => none

end Json

end RouteContract
