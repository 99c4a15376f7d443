import BoxScript.EvalError
import BoxScript.Table

/-!
# The store

The store holds everything that can be shared or changed: boxes with values, the slots of arrays,
and the tables that scopes and objects are made of. Handles are indices into it, and nothing is
ever taken out.

Assignment keeps to one rule, `settle`: a box that holds a value of the same variant is overwritten
in place, so everything that shares it sees the change; otherwise the name or slot gets a new
box.
-/

namespace BoxScript

/-- A declared function or method. -/
structure Function where
  params : List String
  body : List Statement
  deriving Inhabited

/-- A class declaration. -/
structure ClassDecl where
  name : String
  params : List String
  body : List Statement
  deriving Inhabited

/-- A class that can be instantiated. Its instances see the classes that were declared together
with it. -/
structure Class where
  decl : ClassDecl
  siblings : List ClassDecl
  deriving Inhabited

/-- Everything that can be shared or changed. -/
structure Store where
  boxes : Array Value := #[]
  slots : Array (Array (Option BoxRef)) := #[]
  vars : Array (Table BoxRef) := #[]
  funs : Array (Table Function) := #[]
  classes : Array (Table Class) := #[]
  deriving Inhabited

/-- The names that a statement can use: three tables of the store. -/
structure Scope where
  vars : VarsRef
  funs : FunsRef
  classes : ClassesRef
  deriving DecidableEq, Repr, Inhabited

namespace Store

/-! ## Boxes -/

/-- What a box holds. -/
def read (s : Store) (b : BoxRef) : Value :=
  s.boxes.getD b.id .void

/-- Overwrites a box. -/
def write (s : Store) (b : BoxRef) (v : Value) : Store :=
  { s with boxes := s.boxes.setIfInBounds b.id v }

/-- A new box. -/
def newBox (s : Store) (v : Value) : BoxRef × Store :=
  (⟨s.boxes.size⟩, { s with boxes := s.boxes.push v })

/-! ## Slots -/

/-- The slots of an array; an unset slot has no box. -/
def slotsOf (s : Store) (r : SlotsRef) : Array (Option BoxRef) :=
  s.slots.getD r.id #[]

/-- The slots of a new array. -/
def newSlots (s : Store) (slots : Array (Option BoxRef)) : SlotsRef × Store :=
  (⟨s.slots.size⟩, { s with slots := s.slots.push slots })

/-- Why there is no array of some size. -/
inductive SizeRefusal where
  /-- The slots cannot be counted. -/
  | uncountable
  /-- There is no room for the slots. -/
  | noRoom
  deriving DecidableEq, Repr, Inhabited

/-- The wording of a refusal. -/
def SizeRefusal.message : SizeRefusal → String
  | uncountable => "cannot fit 'int' into an index-sized integer"
  | noRoom => "Out of memory"

/-- Slots cannot be counted from 2 ^ 63 of them on, and there is no room from 2 ^ 60 on. -/
def checkSize (n : Nat) : Except SizeRefusal Unit :=
  if Nat.pow 2 63 ≤ n then .error .uncountable
  else if Nat.pow 2 60 ≤ n then .error .noRoom
  else .ok ()

/-- The slots of a new array of the given size, all unset. -/
def newUnset (s : Store) (n : Nat) : SlotsRef × Store :=
  s.newSlots (Array.replicate n none)

/-- Puts a box into a slot. -/
def putSlot (s : Store) (r : SlotsRef) (i : Nat) (b : Option BoxRef) : Store :=
  { s with slots := s.slots.modify r.id (·.setIfInBounds i b) }

/-! ## Tables -/

/-- A table of variables. -/
def varsOf (s : Store) (r : VarsRef) : Table BoxRef :=
  s.vars.getD r.id {}

/-- A table of functions. -/
def funsOf (s : Store) (r : FunsRef) : Table Function :=
  s.funs.getD r.id {}

/-- A table of classes. -/
def classesOf (s : Store) (r : ClassesRef) : Table Class :=
  s.classes.getD r.id {}

/-- A new table of variables. -/
def newVars (s : Store) (t : Table BoxRef) : VarsRef × Store :=
  (⟨s.vars.size⟩, { s with vars := s.vars.push t })

/-- A new table of functions. -/
def newFuns (s : Store) (t : Table Function) : FunsRef × Store :=
  (⟨s.funs.size⟩, { s with funs := s.funs.push t })

/-- A new table of classes. -/
def newClasses (s : Store) (t : Table Class) : ClassesRef × Store :=
  (⟨s.classes.size⟩, { s with classes := s.classes.push t })

/-- Binds a variable to a box. -/
def putVar (s : Store) (r : VarsRef) (name : String) (b : BoxRef) : Store :=
  { s with vars := s.vars.modify r.id (·.insert name b) }

/-- Binds a function. -/
def putFun (s : Store) (r : FunsRef) (name : String) (f : Function) : Store :=
  { s with funs := s.funs.modify r.id (·.insert name f) }

/-- Binds a class. -/
def putClass (s : Store) (r : ClassesRef) (name : String) (c : Class) : Store :=
  { s with classes := s.classes.modify r.id (·.insert name c) }

/-! ## Scopes -/

/-- A scope with the given tables. -/
def newScope (s : Store) (vars : Table BoxRef) (funs : Table Function) (classes : Table Class) :
    Scope × Store :=
  let (v, s) := s.newVars vars
  let (f, s) := s.newFuns funs
  let (c, s) := s.newClasses classes
  (⟨v, f, c⟩, s)

/-- A scope of its own with the same names: the tables are new, the boxes in them are shared. -/
def copyScope (s : Store) (scope : Scope) : Scope × Store :=
  s.newScope (s.varsOf scope.vars) (s.funsOf scope.funs) (s.classesOf scope.classes)

end Store

/-! ## Copies and assignment -/

namespace Value

/-- The value that a new name is bound to. Arrays and objects are copied as handles, and a
pending `return` cannot be copied. -/
def copy : Value → Except EvalError.Cause Value
  | ret _ => .error .returnCopied
  | v => .ok v

/-- Signals are not assigned to anything. -/
def isStorable (v : Value) : Bool :=
  !v.variant.isSignal

end Value

namespace Store

/-- The box that a value is assigned to: `current`, if it holds a value of the same variant, and a
new box otherwise. -/
def settle (s : Store) (current : Option BoxRef) (v : Value) : BoxRef × Store :=
  match current with
  | some b => if (s.read b).variant = v.variant then (b, s.write b v) else s.newBox v
  | none => s.newBox v

/-- Assigns a value to a name of a table. -/
def assignVar (s : Store) (r : VarsRef) (name : String) (v : Value) : Store :=
  let current := (s.varsOf r).find? name
  let (b, s) := s.settle current v
  if current = some b then s else s.putVar r name b

/-- Assigns a value to a slot of an array. -/
def assignSlot (s : Store) (r : SlotsRef) (i : Nat) (v : Value) : Store :=
  let current := (s.slotsOf r).getD i none
  let (b, s) := s.settle current v
  if current = some b then s else s.putSlot r i (some b)

/-- Assigns a value to a name of a table, unless the value is a signal. -/
def bind (s : Store) (r : VarsRef) (name : String) (v : Value) : Except EvalError.Cause Store :=
  if v.isStorable then .ok (s.assignVar r name v)
  else .error (.notStorable v.variant ("\"" ++ name ++ "\""))

/-- Overwrites a box with a value of the same variant. -/
def mutate (s : Store) (b : BoxRef) (v : Value) : Except EvalError.Cause Store :=
  let held := (s.read b).variant
  if held.isSignal then .error (.signalOverwritten held)
  else if held ≠ v.variant then .error (.wrongVariant held v.variant)
  else .ok (s.write b v)

end Store

end BoxScript
