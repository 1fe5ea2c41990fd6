import ScriptTree.Change
import ScriptTree.External.Export
import ScriptTree.Identity
import ScriptTree.Json
import ScriptTree.Keyword
import ScriptTree.Span

/-!
# Interchange

The JSON form of small values, for settings files and for other tools.

* A record is written as an object.  It is read from an object, in which further fields are ignored, or from an array of
  its fields in order.  A field with a default may be missing; an array may then be shorter, but never longer.
* A name from a closed list is written as a string.  It is read from the string or from an object whose one field has
  the name as its key and `null` as its value.
* A number is read from a whole number in range, a truth value from a truth value.
-/

namespace ScriptTree

class Interchange (α : Type) where
  encode : α → Json
  decode? : Json → Option α

namespace Interchange

def decodeInt? (low high : Int) : Json → Option Int
  | .integer n => if low ≤ n ∧ n ≤ high then some n else none
  | _ => none

/-- A position: a signed number of 32 bits. -/
def decodePosition? : Json → Option Int := decodeInt? (-0x80000000) 0x7fffffff

def decodeWord? (v : Json) : Option Nat := (decodeInt? 0 0xffffffff v).map Int.toNat

def decodeName? {α : Type} (names : List α) (label : α → String) : Json → Option α
  | .string s => names.find? fun x => label x == s
  | .object [(s, .null)] => names.find? fun x => label x == s
  | _ => none

/-- The values of the named fields of a record, `none` for those that are missing. -/
def decodeFields? (names : List String) : Json → Option (List (Option Json))
  | .object fields => some (names.map fun name => (Json.object fields).field? name)
  | .array items => if items.length ≤ names.length then some (names.zipIdx.map fun (_, i) => items[i]?) else none
  | _ => none

/-- The value of a field that has to be there. -/
def required? {α : Type} (decode? : Json → Option α) (field : Option Json) : Option α := field.bind decode?

/-- The value of a field with a default. -/
def withDefault? {α : Type} (decode? : Json → Option α) (default : α) : Option Json → Option α
  | some v => decode? v
  | none => some default

instance : Interchange Bool where
  encode := .bool
  decode?
    | .bool b => some b
    | _ => none

instance : Interchange Token where
  encode t := .string t.tag
  decode? := decodeName? Token.all Token.tag

instance : Interchange Span where
  encode s := .object [("position", .integer s.position), ("length", .integer s.length)]
  decode? v := do
    let [position, length] ← decodeFields? ["position", "length"] v | none
    return { position := ← required? decodePosition? position, length := ← required? decodePosition? length }

instance : Interchange Handle where
  encode h := .integer h.index
  decode? v := (decodeWord? v).map Handle.mk

instance : Interchange Change where
  encode c := .string c.label
  decode? := decodeName? Change.all Change.label

instance : Interchange ChangeRecord where
  encode r :=
    .object [("change", encode r.change), ("change_noprop", encode r.ownChange), ("moved", encode r.moved)]
  decode? v := do
    let [change, ownChange, moved] ← decodeFields? ["change", "change_noprop", "moved"] v | none
    return {
      change := ← required? decode? change
      ownChange := ← required? decode? ownChange
      moved := ← required? decode? moved }

instance : Interchange DeclarationKind where
  encode k := .string k.label
  decode? := decodeName? DeclarationKind.all DeclarationKind.label

instance : Interchange Keyword where
  encode k := .string k.label
  decode? := decodeName? Keyword.all Keyword.label

instance : Interchange FunctionType where
  encode t := .string t.label
  decode? := decodeName? FunctionType.all FunctionType.label

instance : Interchange FunctionForm where
  encode f := .string f.label
  decode? := decodeName? FunctionForm.all FunctionForm.label

instance : Interchange IdPolicy where
  encode p := .object [("start", .integer p.start.toNat), ("max", .integer p.max.toNat)]
  decode? v := do
    let [start, max] ← decodeFields? ["start", "max"] v | none
    let word (v : Json) : Option UInt32 := (decodeWord? v).map UInt32.ofNat
    return {
      start := ← withDefault? word ({} : IdPolicy).start start
      max := ← withDefault? word ({} : IdPolicy).max max }

instance : Interchange ExportOptions where
  encode o := .object [("pretty", encode o.pretty)]
  decode? v := do
    let [pretty] ← decodeFields? ["pretty"] v | none
    return { pretty := ← withDefault? decode? ({} : ExportOptions).pretty pretty }

end Interchange

end ScriptTree
