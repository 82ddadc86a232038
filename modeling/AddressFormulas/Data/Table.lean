/-!
Finite maps as association lists in ascending key order. `get?`, `insert` and `erase` compare keys
with `compare`; on keys whose order is lawful the entries stay strictly ascending.
-/

namespace AddressFormulas

/-- A finite map, kept as the list of its entries in ascending key order. -/
structure Table (κ α : Type) where
  entries : List (κ × α) := []
  deriving DecidableEq, Repr

namespace Table

variable {κ α : Type}

instance : Inhabited (Table κ α) := ⟨{}⟩

def size (t : Table κ α) : Nat := t.entries.length

def isEmpty (t : Table κ α) : Bool := t.entries.isEmpty

def keys (t : Table κ α) : List κ := t.entries.map Prod.fst

def values (t : Table κ α) : List α := t.entries.map Prod.snd

variable [Ord κ]

def findEntry (k : κ) : List (κ × α) → Option α
  | [] => none
  | (k', a) :: rest => if compare k k' = .eq then some a else findEntry k rest

def insertEntry (k : κ) (a : α) : List (κ × α) → List (κ × α)
  | [] => [(k, a)]
  | (k', a') :: rest =>
    match compare k k' with
    | .lt => (k, a) :: (k', a') :: rest
    | .eq => (k, a) :: rest
    | .gt => (k', a') :: insertEntry k a rest

def eraseEntry (k : κ) : List (κ × α) → List (κ × α)
  | [] => []
  | (k', a) :: rest => if compare k k' = .eq then rest else (k', a) :: eraseEntry k rest

def get? (t : Table κ α) (k : κ) : Option α := findEntry k t.entries

def contains (t : Table κ α) (k : κ) : Bool := (t.get? k).isSome

def getD (t : Table κ α) (k : κ) (default : α) : α := (t.get? k).getD default

def insert (t : Table κ α) (k : κ) (a : α) : Table κ α := ⟨insertEntry k a t.entries⟩

def erase (t : Table κ α) (k : κ) : Table κ α := ⟨eraseEntry k t.entries⟩

def update (t : Table κ α) (k : κ) (default : α) (f : α → α) : Table κ α :=
  t.insert k (f (t.getD k default))

def ofList (pairs : List (κ × α)) : Table κ α :=
  pairs.foldl (fun (t : Table κ α) (k, a) => t.insert k a) {}

end Table

abbrev KeySet (κ : Type) := Table κ Unit

namespace KeySet

variable {κ : Type} [Ord κ]

def add (s : KeySet κ) (k : κ) : KeySet κ := Table.insert s k ()

def union (s t : KeySet κ) : KeySet κ := t.keys.foldl KeySet.add s

end KeySet

def Table.describe {κ α : Type} (key : κ → String) (value : α → String) (t : Table κ α) : String :=
  "\x7b" ++ ", ".intercalate (t.entries.map fun e => key e.1 ++ ": " ++ value e.2) ++ "\x7d"

def KeySet.describe {κ : Type} (key : κ → String) (s : KeySet κ) : String :=
  "\x7b" ++ ", ".intercalate (s.keys.map key) ++ "\x7d"

end AddressFormulas
