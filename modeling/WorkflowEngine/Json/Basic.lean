import WorkflowEngine.Bits

/-!
# Json values

Values as documents, contexts and answers hold them. A number is a whole number or a float, and the
two stay apart: `3` is not `3.0`. The fields of an object are kept in the order of their keys, each
key once, so that two objects with the same fields are the same value.

## Main definitions

* `Dict α`: values under keys, in the order of the keys
* `Json.Number`, `Json`: numbers and values
* `Json.get?`, `Json.at?`: a field of an object, an element of an array
-/

namespace WorkflowEngine

/-- Values under keys. The operations keep the entries sorted by key, with each key once. -/
abbrev Dict (α : Type) := List (String × α)

namespace Dict

variable {α β : Type}

/-- Puts a value under a key, in place of the one that was there. -/
def insert (d : Dict α) (key : String) (value : α) : Dict α :=
  match d with
  | [] => [(key, value)]
  | (k, v) :: rest =>
    if key < k then (key, value) :: (k, v) :: rest
    else if key = k then (key, value) :: rest
    else (k, v) :: insert rest key value

/-- The value under a key. -/
def find? (d : Dict α) (key : String) : Option α := d.lookup key

/-- There is a value under the key. -/
def hasKey (d : Dict α) (key : String) : Bool := (d.find? key).isSome

/-- The entries of a list, a later one in place of an earlier one with its key. -/
def ofList (entries : List (String × α)) : Dict α :=
  entries.foldl (fun d (k, v) => Dict.insert d k v) []

/-- The entries of both, those of the second in place of those of the first with their keys. -/
def extend (d other : Dict α) : Dict α := other.foldl (fun d (k, v) => Dict.insert d k v) d

/-- The keys in order. -/
def keys (d : Dict α) : List String := d.map Prod.fst

/-- The entries are sorted by key and each key stands once. -/
def Sorted (d : Dict α) : Prop := d.Pairwise fun a b => a.1 < b.1

end Dict

/-- A whole number or a float. Whole numbers lie between `-2 ^ 63` and `2 ^ 64 - 1`. -/
inductive Json.Number where
  | int (value : Int)
  | float (value : Float)
deriving Repr, BEq, Inhabited

/-- Values of documents, contexts and answers. -/
inductive Json where
  | null
  | bool (value : Bool)
  | num (value : Json.Number)
  | str (value : String)
  | arr (items : List Json)
  | obj (fields : List (String × Json))
deriving Repr, Inhabited

namespace Json

mutual
/-- Two values are the same. -/
def same : Json → Json → Bool
  | .null, .null => true
  | .bool a, .bool b => a == b
  | .num a, .num b => a == b
  | .str a, .str b => a == b
  | .arr as, .arr bs => sameItems as bs
  | .obj as, .obj bs => sameFields as bs
  | _, _ => false

/-- Two lists hold the same values in the same order. -/
def sameItems : List Json → List Json → Bool
  | [], [] => true
  | a :: as, b :: bs => same a b && sameItems as bs
  | _, _ => false

/-- Two lists of fields have the same keys and values in the same order. -/
def sameFields : List (String × Json) → List (String × Json) → Bool
  | [], [] => true
  | (j, a) :: as, (k, b) :: bs => j == k && same a b && sameFields as bs
  | _, _ => false
end

instance : BEq Json := ⟨same⟩

/-- The whole numbers that stay whole numbers. -/
def Number.inRange (n : Int) : Bool := Bits.isWord 64 n

/-- The whole number, or the float nearest to it if it is out of range. -/
def Number.ofInt (n : Int) : Number :=
  if inRange n then .int n else .float (Float.ofInt n)

/-- The float closest to the number. -/
def Number.toFloat : Number → Float
  | .int n => Float.ofInt n
  | .float x => x

/-- A float as a value; only finite floats are numbers. -/
def ofFloat (x : Float) : Json := if x.isFinite then .num (.float x) else .null

/-- A count as a value. -/
def ofNat (n : Nat) : Json := .num (.ofInt n)

/-- An optional text as a value, null if absent. -/
def ofText? : Option String → Json
  | some s => .str s
  | none => .null

/-- An object with the given fields. -/
def ofFields (fields : List (String × Json)) : Json := .obj (Dict.ofList fields)

/-- An object with those of the given fields that are present. -/
def ofFields? (fields : List (String × Option Json)) : Json :=
  ofFields (fields.filterMap fun (k, v) => v.map (k, ·))

/-- The field of an object; other values have no fields. -/
def get? : Json → String → Option Json
  | .obj fields, key => Dict.find? fields key
  | _, _ => none

/-- The element of an array; other values have no elements. -/
def at? : Json → Nat → Option Json
  | .arr items, i => items[i]?
  | _, _ => none

/-- The value is an object. -/
def isObj : Json → Bool
  | .obj _ => true
  | _ => false

end Json

end WorkflowEngine
