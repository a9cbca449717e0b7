import Mathlib.Data.Int.Notation

/-!
# Decoded JSON

The values that Python's `json.loads` returns. What a float is, and what a program makes of one, is
left open.
-/

namespace HaAddons

inductive PyJson (φ : Type) where
  | none
  | bool (b : Bool)
  | int (n : ℤ)
  | float (x : φ)
  | str (s : String)
  | list (items : List (PyJson φ))
  | dict (entries : List (String × PyJson φ))

namespace PyJson

variable {φ : Type}

/-- The value of a key, if this is a dictionary with the key. The last entry of a key counts. -/
def get? : PyJson φ → String → Option (PyJson φ)
  | dict entries, key => (entries.reverse.find? (·.1 = key)).map Prod.snd
  | _, _ => Option.none

/-- `d.get(key)` -/
def get (v : PyJson φ) (key : String) : PyJson φ := (v.get? key).getD .none

def isDict : PyJson φ → Bool
  | dict _ => true
  | _ => false

/-- The value can be looked up in a set or a dictionary. -/
def hashable : PyJson φ → Bool
  | list _ | dict _ => false
  | _ => true

end PyJson

end HaAddons
