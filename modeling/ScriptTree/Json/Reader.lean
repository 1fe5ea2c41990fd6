import ScriptTree.Json
import ScriptTree.Number.FromDecimal

/-!
# Reading JSON text

The reader keeps what the external form tells apart: whole numbers from floating-point numbers, and the order of the
fields of an object.  When a name occurs twice in an object its last value stands at its first place.  Whole numbers are
those between `-2 ^ 63` and `2 ^ 64 - 1` that are written without point and exponent; `-0` is a floating-point number.
-/

namespace ScriptTree

namespace Json

namespace Reader

/-- What is left of a text behind its blanks. -/
def skipBlanks (cs : List Char) : List Char :=
  cs.dropWhile fun c => c == ' ' || c == '\t' || c == '\n' || c == '\r'

def word? : List Char → List Char → Option (List Char)
  | [], cs => some cs
  | w :: ws, c :: cs => if w = c then word? ws cs else none
  | _ :: _, [] => none

/-! ### Numbers -/

def digit (c : Char) : Nat := c.toNat - 48

/-- The leading digits that make up a 64-bit number, and how many digits come behind them. -/
def leadingDigits : Nat → List Char → Nat × Nat
  | acc, [] => (acc, 0)
  | acc, c :: cs =>
    let next := 10 * acc + digit c
    if next < UInt64.size then leadingDigits next cs else (acc, cs.length + 1)

/-- A number from its parts: the sign, the digits before and behind the point, and the exponent. -/
def realOf? (isNegative : Bool) (whole fraction : List Char) (exponent : Int) : Option Json :=
  let (kept, dropped) := leadingDigits 0 (whole ++ fraction)
  (Binary64.ofDecimal? isNegative (UInt64.ofNat kept) (exponent + dropped - fraction.length)).map real

/-- The exponent part of a number, zero if there is none. -/
def exponent? : List Char → Option (Int × List Char)
  | c :: cs =>
    if c = 'e' ∨ c = 'E' then
      let (isNegative, cs) : Bool × List Char :=
        match cs with
        | '-' :: cs => (true, cs)
        | '+' :: cs => (false, cs)
        | cs => (false, cs)
      let digits := cs.takeWhile Char.isDigit
      let n := digits.foldl (fun n d => 10 * n + digit d) 0
      if digits.isEmpty then none
      else some (if isNegative then -(n : Int) else n, cs.dropWhile Char.isDigit)
    else
      some (0, c :: cs)
  | [] => some (0, [])

def number? (isNegative : Bool) (cs : List Char) : Option (Json × List Char) := do
  let whole := cs.takeWhile Char.isDigit
  let rest := cs.dropWhile Char.isDigit
  if whole.isEmpty ∨ (whole.head? = some '0' ∧ 1 < whole.length) then none else
  match rest with
  | '.' :: cs =>
    let fraction := cs.takeWhile Char.isDigit
    if fraction.isEmpty then none else
    let (e, rest) ← exponent? (cs.dropWhile Char.isDigit)
    return (← realOf? isNegative whole fraction e, rest)
  | 'e' :: _ | 'E' :: _ =>
    let (e, rest) ← exponent? rest
    return (← realOf? isNegative whole [] e, rest)
  | _ =>
    let n := whole.foldl (fun n d => 10 * n + digit d) 0
    if !isNegative ∧ n < UInt64.size then
      return (integer n, rest)
    else if isNegative ∧ 0 < n ∧ n ≤ Nat.pow 2 63 then
      return (integer (-n), rest)
    else
      return (← realOf? isNegative whole [] 0, rest)

/-! ### Strings -/

def hexDigit? (c : Char) : Option Nat :=
  if c.isDigit then some (c.toNat - 48)
  else if 'a' ≤ c ∧ c ≤ 'f' then some (c.toNat - 87)
  else if 'A' ≤ c ∧ c ≤ 'F' then some (c.toNat - 55)
  else none

/-- The number that four hexadecimal digits stand for. -/
def unit? (a b c d : Char) : Option Nat := do
  return (← hexDigit? a) * 4096 + (← hexDigit? b) * 256 + (← hexDigit? c) * 16 + (← hexDigit? d)

/-- The character of an escape of one letter. -/
def shortEscape? : Char → Option Char
  | '"' => some '"'
  | '\\' => some '\\'
  | '/' => some '/'
  | 'b' => some '\x08'
  | 'f' => some '\x0c'
  | 'n' => some '\n'
  | 'r' => some '\r'
  | 't' => some '\t'
  | _ => none

/-- The rest of a string whose part `acc` has been read, and the text behind its closing quote.  A character above
U+FFFF may be written as an escaped surrogate pair; a surrogate alone is refused. -/
def string? (acc : String) : List Char → Option (String × List Char)
  | '"' :: cs => some (acc, cs)
  | '\\' :: 'u' :: a :: b :: c :: d :: cs =>
    match unit? a b c d with
    | none => none
    | some u =>
      if u < 0xd800 ∨ 0xdfff < u then
        string? (acc.push (Char.ofNat u)) cs
      else if u < 0xdc00 then
        match cs with
        | '\\' :: 'u' :: a :: b :: c :: d :: cs =>
          match unit? a b c d with
          | none => none
          | some v =>
            if 0xdc00 ≤ v ∧ v ≤ 0xdfff then
              string? (acc.push (Char.ofNat (0x10000 + (u - 0xd800) * 1024 + (v - 0xdc00)))) cs
            else
              none
        | _ => none
      else
        none
  | '\\' :: c :: cs =>
    match shortEscape? c with
    | some c => string? (acc.push c) cs
    | none => none
  | c :: cs => if c.toNat < 32 then none else string? (acc.push c) cs
  | [] => none

/-! ### Values -/

/-- The fields with one more value: the last value of a name stands at the first place of the name. -/
def insertField (fields : List (String × Json)) (name : String) (value : Json) : List (String × Json) :=
  if fields.any fun f => f.1 == name then
    fields.map fun f => if f.1 == name then (name, value) else f
  else
    fields ++ [(name, value)]

mutual

/-- The value at the beginning of a text, and what is behind it.  Every step takes at least one character, so the length
of the text is fuel enough. -/
def value? : Nat → List Char → Option (Json × List Char)
  | 0, _ => none
  | fuel + 1, cs =>
    match skipBlanks cs with
    | '"' :: cs => (string? "" cs).map fun (s, cs) => (string s, cs)
    | '[' :: cs =>
      match skipBlanks cs with
      | ']' :: cs => some (array [], cs)
      | cs => items? fuel #[] cs
    | '{' :: cs =>
      match skipBlanks cs with
      | '}' :: cs => some (object [], cs)
      | cs => fields? fuel [] cs
    | '-' :: cs => number? true cs
    | 't' :: cs => (word? ['r', 'u', 'e'] cs).map fun cs => (bool true, cs)
    | 'f' :: cs => (word? ['a', 'l', 's', 'e'] cs).map fun cs => (bool false, cs)
    | 'n' :: cs => (word? ['u', 'l', 'l'] cs).map fun cs => (null, cs)
    | cs => number? false cs

/-- The items of an array from here on. -/
def items? : Nat → Array Json → List Char → Option (Json × List Char)
  | 0, _, _ => none
  | fuel + 1, done, cs =>
    match value? fuel cs with
    | none => none
    | some (item, cs) =>
      match skipBlanks cs with
      | ',' :: cs => items? fuel (done.push item) cs
      | ']' :: cs => some (array (done.push item).toList, cs)
      | _ => none

/-- The fields of an object from here on. -/
def fields? : Nat → List (String × Json) → List Char → Option (Json × List Char)
  | 0, _, _ => none
  | fuel + 1, done, cs =>
    match skipBlanks cs with
    | '"' :: cs =>
      match string? "" cs with
      | none => none
      | some (name, cs) =>
        match skipBlanks cs with
        | ':' :: cs =>
          match value? fuel cs with
          | none => none
          | some (value, cs) =>
            match skipBlanks cs with
            | ',' :: cs => fields? fuel (insertField done name value) cs
            | '}' :: cs => some (object (insertField done name value), cs)
            | _ => none
        | _ => none
    | _ => none

end

end Reader

def read? (text : String) : Option Json :=
  let cs := text.toList
  match Reader.value? (cs.length + 1) cs with
  | some (v, rest) => if (Reader.skipBlanks rest).isEmpty then some v else none
  | none => none

end Json

end ScriptTree
