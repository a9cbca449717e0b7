import HaAddons.Lib.Dict
import Mathlib.Init

/-!
# JSON documents as Go values

What Go's `encoding/json` makes of a document when the target is a struct: fields are found by name
whatever their case, later entries of an object replace earlier ones, `null` leaves a plain field as
it is and clears a slice, map or pointer, and a value of another kind is an error. The message names
the kind of the value and the Go type; the path of the field, which Go adds, is left out.

A decoder takes the current value of its target, since `null` and repeated fields depend on it.
-/

namespace HaAddons

/-- A document. A number is kept as it was written. -/
inductive Json where
  | null
  | bool (b : Bool)
  | num (text : String)
  | str (s : String)
  | arr (elems : List Json)
  | obj (fields : List (String × Json))

namespace Json

def kind : Json → String
  | null => "null"
  | bool _ => "bool"
  | num text => "number " ++ text
  | str _ => "string"
  | arr _ => "array"
  | obj _ => "object"

/-- The decoder of a Go type: the current value and the document give the new value. -/
abbrev Decoder (α : Type) := α → Json → Except String α

def mismatch {α : Type} (j : Json) (goType : String) : Except String α :=
  .error ("json: cannot unmarshal " ++ j.kind ++ " into Go value of type " ++ goType)

def string : Decoder String
  | _, str s => .ok s
  | cur, null => .ok cur
  | _, j => j.mismatch "string"

def boolean : Decoder Bool
  | _, bool b => .ok b
  | cur, null => .ok cur
  | _, j => j.mismatch "bool"

/-- `*T`. -/
def pointer {α : Type} (zero : α) (elem : Decoder α) : Decoder (Option α)
  | _, null => .ok none
  | cur, j => (elem (cur.getD zero) j).map some

/-- `[]T`; `none` is the nil slice. -/
def slice {α : Type} (goType : String) (zero : α) (elem : Decoder α) : Decoder (Option (List α))
  | _, null => .ok none
  | _, arr elems => (elems.mapM (elem zero)).map some
  | _, j => j.mismatch ("[]" ++ goType)

/-- `map[string]T`; `none` is the nil map. -/
def stringMap {α : Type} (goType : String) (zero : α) (elem : Decoder α) :
    Decoder (Option (Dict String α))
  | _, null => .ok none
  | cur, obj fields =>
    (fields.foldlM (fun d e => (elem zero e.2).map (d.insert e.1)) (cur.getD .empty)).map some
  | _, j => j.mismatch ("map[string]" ++ goType)

/-- Letters that fold to one another count as equal. -/
def foldChar (c : Char) : Char :=
  if c = '\u017f' then 'S' else if c = '\u212a' then 'K' else c.toUpper

def foldName (name : String) : List Char := name.toList.map foldChar

/-- The field of a key: the exact name if there is one, else one that differs in case. -/
def matchField (names : List String) (key : String) : Option String :=
  (names.find? (· = key)).or (names.find? fun name => foldName name = foldName key)

/-- A struct with the given field names; `set` decodes one field of it. -/
def struct {α : Type} (goType : String) (names : List String)
    (set : α → String → Json → Except String α) : Decoder α
  | cur, null => .ok cur
  | cur, obj fields =>
    fields.foldlM (fun a e =>
      match matchField names e.1 with
      | some name => set a name e.2
      | none => .ok a) cur
  | _, j => j.mismatch goType

end Json

end HaAddons
