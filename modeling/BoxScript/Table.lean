/-!
# Tables

A table binds names to things and remembers in which order the names were first bound.
-/

namespace BoxScript

/-- Names bound to things, in the order in which the names came. -/
structure Table (α : Type) where
  entries : List (String × α) := []

namespace Table

variable {α : Type}

instance : Inhabited (Table α) := ⟨{}⟩

/-- What a name is bound to. -/
def find? (t : Table α) (name : String) : Option α :=
  t.entries.lookup name

/-- Binds a name in a list of entries: in its old place if it has one, and at the end
otherwise. -/
def insertEntry (name : String) (a : α) : List (String × α) → List (String × α)
  | [] => [(name, a)]
  | e :: es => if e.1 = name then (name, a) :: es else e :: insertEntry name a es

/-- Binds a name. A name that is bound already keeps its place. -/
def insert (t : Table α) (name : String) (a : α) : Table α :=
  ⟨insertEntry name a t.entries⟩

/-- The bound names in order. -/
def names (t : Table α) : List String :=
  t.entries.map (·.1)

/-- The table with the given entries, of which a later one replaces an earlier one of its name. -/
def ofList (entries : List (String × α)) : Table α :=
  entries.foldl (fun t e => t.insert e.1 e.2) {}

end Table

end BoxScript
