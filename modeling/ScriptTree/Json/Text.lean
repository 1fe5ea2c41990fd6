import ScriptTree.Json
import ScriptTree.Number.Shortest

/-!
# JSON text

Writing a value as text, compactly or laid out over lines.  The rules of the text form are the escapes of a string, the
notation of a floating-point number and the two layouts.
-/

namespace ScriptTree

namespace Json

/-! ### Strings -/

private def hexDigit (n : Nat) : Char := if n < 10 then Char.ofNat (48 + n) else Char.ofNat (87 + n)

/-- A character inside quotes: the quote, the backslash and the control characters below U+0020 are escaped, all else
stands for itself. -/
def escapeChar (c : Char) : List Char :=
  if c = '"' then ['\\', '"']
  else if c = '\\' then ['\\', '\\']
  else if c = '\n' then ['\\', 'n']
  else if c = '\r' then ['\\', 'r']
  else if c = '\t' then ['\\', 't']
  else if c = '\x08' then ['\\', 'b']
  else if c = '\x0c' then ['\\', 'f']
  else if c.toNat < 32 then ['\\', 'u', '0', '0', hexDigit (c.toNat / 16), hexDigit (c.toNat % 16)]
  else [c]

def quote (s : String) : String :=
  let body := s.foldl (fun acc c => (escapeChar c).foldl String.push acc) "\""
  body.push '"'

/-! ### Numbers -/

/-- Notation of floating-point numbers.  The number `d.ddd · 10 ^ e` is written out in full when `e` lies between
`lowest` and `highest`, and with an exponent otherwise. -/
structure RealNotation where
  lowest : Int
  highest : Int

/-- Numbers from `0.00001` up to sixteen digits before the point are written out in full. -/
def realNotation : RealNotation := { lowest := -5, highest := 15 }

private def zeros (n : Nat) : String := String.ofList (List.replicate n '0')

/-- The text of a decimal other than zero.  A full text always has a point; an exponent always has a sign. -/
def decimalText (n : RealNotation) (d : Decimal) : String :=
  let digits := (toString d.digits).toList
  let e := d.exponent + (digits.length : Int) - 1
  if n.lowest ≤ e ∧ e ≤ n.highest then
    if 0 ≤ d.exponent then
      String.ofList digits ++ zeros d.exponent.toNat ++ ".0"
    else if 0 ≤ e then
      String.ofList (digits.take (e.toNat + 1)) ++ "." ++ String.ofList (digits.drop (e.toNat + 1))
    else
      "0." ++ zeros (-e - 1).toNat ++ String.ofList digits
  else
    let mantissa :=
      match digits with
      | [] => ""
      | [c] => c.toString
      | c :: rest => c.toString ++ "." ++ String.ofList rest
    mantissa ++ (if e < 0 then "e-" else "e+") ++ toString e.natAbs

/-- The text of a finite floating-point number; the others have none in this format and are written `null`. -/
def realText (x : Binary64) : String :=
  if !x.isFinite then
    "null"
  else
    let magnitude := if x.significand = 0 then "0.0" else decimalText realNotation x.shortest
    if x.isNegative then "-" ++ magnitude else magnitude

/-! ### Values -/

/-- How a value is laid out: what stands before an item at a given depth, and what stands between a name and its
value. -/
structure Layout where
  lineBreak : Nat → String
  colon : String

def compactLayout : Layout := { lineBreak := fun _ => "", colon := ":" }

/-- One item a line, indented by two blanks for each level. -/
def prettyLayout : Layout :=
  { lineBreak := fun depth => "\n" ++ String.ofList (List.replicate (2 * depth) ' '), colon := ": " }

mutual

/-- Writes a value behind the text `acc`.  An empty array or object stays on its line. -/
def write (l : Layout) (depth : Nat) (acc : String) : Json → String
  | null => acc ++ "null"
  | bool b => acc ++ (if b then "true" else "false")
  | integer n => acc ++ toString n
  | real x => acc ++ realText x
  | string s => acc ++ quote s
  | array [] => acc ++ "[]"
  | array (item :: rest) =>
    let acc := write l (depth + 1) (acc ++ "[" ++ l.lineBreak (depth + 1)) item
    writeItems l (depth + 1) acc rest ++ l.lineBreak depth ++ "]"
  | object [] => acc ++ "\x7b\x7d"
  | object ((name, value) :: rest) =>
    let acc := write l (depth + 1) (acc ++ "\x7b" ++ l.lineBreak (depth + 1) ++ quote name ++ l.colon) value
    writeFields l (depth + 1) acc rest ++ l.lineBreak depth ++ "\x7d"

def writeItems (l : Layout) (depth : Nat) (acc : String) : List Json → String
  | [] => acc
  | item :: rest => writeItems l depth (write l depth (acc ++ "," ++ l.lineBreak depth) item) rest

def writeFields (l : Layout) (depth : Nat) (acc : String) : List (String × Json) → String
  | [] => acc
  | (name, value) :: rest =>
    writeFields l depth (write l depth (acc ++ "," ++ l.lineBreak depth ++ quote name ++ l.colon) value) rest

end

def compact (v : Json) : String := write compactLayout 0 "" v

/-- The text of a value laid out over lines. -/
def pretty (v : Json) : String := write prettyLayout 0 "" v

end Json

end ScriptTree
