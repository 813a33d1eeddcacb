/-
Choreography/Json.lean

JSON values.  Objects keep the order of their members and may repeat a key;
whole numbers (those that fit into 64 bits) are told apart from others, because
identifiers accept nothing else.

A value that is well formed as text but cannot be represented (a number beyond
the largest double, half of a surrogate pair, nesting beyond the reader's limit)
is kept as `unreadable`: nothing can be read from it, yet it does no harm where
nobody looks.

`Json.fields?` and `Json.tagged?` are the two ways in which records are read.  A
record is an object with one member for each field, or the array of its fields in
order; a tagged record carries the name of its variant in a member of its own, or
as the first item of the array.
-/

namespace Choreography

/-- A JSON value with numbers of type `ν`. -/
inductive Json (ν : Type) where
  | null
  | bool (b : Bool)
  | whole (n : Int)
  | real (x : ν)
  | text (s : String)
  | array (items : List (Json ν))
  | object (members : List (String × Json ν))
  | unreadable

namespace Json

variable {ν α : Type}

instance : Inhabited (Json ν) := ⟨null⟩

/-! ### Depth and readability -/

mutual

/-- The number of values on the longest path into a value. -/
def depth : Json ν → Nat
  | array items => itemsDepth items + 1
  | object members => membersDepth members + 1
  | _ => 1

def itemsDepth : List (Json ν) → Nat
  | [] => 0
  | item :: items => max item.depth (itemsDepth items)

def membersDepth : List (String × Json ν) → Nat
  | [] => 0
  | (_, value) :: members => max value.depth (membersDepth members)

end

mutual

/-- Whether every part of a value can be represented. -/
def isReadable : Json ν → Bool
  | array items => itemsReadable items
  | object members => membersReadable members
  | unreadable => false
  | _ => true

def itemsReadable : List (Json ν) → Bool
  | [] => true
  | item :: items => item.isReadable && itemsReadable items

def membersReadable : List (String × Json ν) → Bool
  | [] => true
  | (_, value) :: members => value.isReadable && membersReadable members

end

/-! ### Records -/

/-- The value of the only member with a key; `none` if the key is repeated. -/
def member? (key : String) : List (String × Json ν) → Option (Option (Json ν))
  | [] => some none
  | (k, value) :: members =>
    if k = key then (if members.any (·.1 = key) then none else some (some value))
    else member? key members

/-- The fields of a record in the order of `names`, each with its value if it is
present.  A record is an object in which no name is repeated (other members are
passed over), or an array of at most as many items as there are names. -/
def fields? (names : List String) : Json ν → Option (List (Option (Json ν)))
  | object members => names.mapM fun name => member? name members
  | array items =>
    if items.length ≤ names.length then
      some (items.map some ++ List.replicate (names.length - items.length) none)
    else none
  | _ => none

/-- The tag of a tagged record and the record without its tag. -/
def tagged? (key : String) : Json ν → Option (Json ν × Json ν)
  | object members =>
    match member? key members with
    | some (some tag) => some (tag, object (members.filter (·.1 ≠ key)))
    | _ => none
  | array (tag :: items) => some (tag, array items)
  | _ => none

/-- A field that has to be present. -/
def required (read : Json ν → Option α) : Option (Json ν) → Option α
  | some value => read value
  | none => none

/-- A field with a value for its absence. -/
def withDefault (fallback : α) (read : Json ν → Option α) : Option (Json ν) → Option α
  | some value => read value
  | none => some fallback

/-- A field that may be absent or null. -/
def optional (read : Json ν → Option α) : Option (Json ν) → Option (Option α)
  | none | some null => some none
  | some value => (read value).map some

/-! ### Simple values -/

/-- Reads a truth value. -/
def bool? : Json ν → Option Bool
  | bool b => some b
  | _ => none

/-- Reads a text. -/
def text? : Json ν → Option String
  | text s => some s
  | _ => none

/-- Reads an array whose items all are read by `read`. -/
def list? (read : Json ν → Option α) : Json ν → Option (List α)
  | array items => items.mapM read
  | _ => none

/-- Reads an object as a list of entries. -/
def entries? (read : Json ν → Option α) : Json ν → Option (List (String × α))
  | object members => members.mapM fun (key, value) => (read value).map fun a => (key, a)
  | _ => none

/-- A member that is left out when it has no value. -/
def member (key : String) (write : α → Json ν) : Option α → List (String × Json ν)
  | some a => [(key, write a)]
  | none => []

end Json

end Choreography
