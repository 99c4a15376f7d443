import BoxScript.Store.Text

/-!
# Plain data

A `Datum` is what a host program hands to the interpreter or gets back from it: data without
handles. Arrays become lists and objects become records.
-/

namespace BoxScript

/-- Plain data. A whole number and a decimal number are told apart. -/
inductive Datum where
  | null
  | boolean (b : Bool)
  | whole (n : Int)
  | decimal (x : Float)
  | text (s : String)
  | list (items : List Datum)
  | record (fields : List (String × Datum))
  /-- A signal has no plain form. -/
  | signal (v : Variant)
  deriving Inhabited

namespace Datum

/-- Why plain data has no value. -/
inductive Refusal where
  /-- Records and signals have no value. -/
  | noValue (d : Datum)
  /-- A whole number lies beyond all numbers. -/
  | tooLarge (n : Int)

/-- The wording of a refusal. -/
def Refusal.message : Refusal → String
  | noValue _ => "Cannot convert dict to a value"
  | tooLarge _ => "int too large to convert to float"

/-- The number nearest to a whole number. -/
def wholeNumber (n : Int) : Except Refusal Float :=
  let x := Float.ofInt n
  match Number.parts x with
  | .finite _ _ _ => .ok x
  | _ => .error (.tooLarge n)

mutual

/-- Puts plain data into a store. -/
def place (s : Store) : Datum → Except Refusal (Value × Store)
  | null => .ok (.void, s)
  | boolean b => .ok (.boolean b, s)
  | whole n => (wholeNumber n).map (.number ·, s)
  | decimal x => .ok (.number x, s)
  | text t => .ok (.string t, s)
  | list items => do
    let (boxes, s) ← placeAll s items
    let (r, s) := s.newSlots (boxes.map some).toArray
    return (.array r, s)
  | record fields => .error (.noValue (.record fields))
  | signal v => .error (.noValue (.signal v))

/-- Puts each of the data into a box of its own. -/
def placeAll (s : Store) : List Datum → Except Refusal (List BoxRef × Store)
  | [] => .ok ([], s)
  | d :: ds => do
    let (v, s) ← place s d
    let (b, s) := s.newBox v
    let (bs, s) ← placeAll s ds
    return (b :: bs, s)

end

end Datum

namespace Store

/-- The plain form of a value inside the containers `outer`; a container inside itself has none.
The first argument bounds how deeply containers nest. -/
def datumWithin (s : Store) : Nat → List Container → Value → Option Datum
  | 0, _, _ => none
  | depth + 1, outer, v =>
    match v with
    | .number x => some (.decimal x)
    | .boolean b => some (.boolean b)
    | .string t => some (.text t)
    | .void => some .null
    | .array r =>
      if outer.contains (.slots r) then none
      else
        let slot := fun (b : Option BoxRef) =>
          match b with
          | none => some Datum.null
          | some b => s.datumWithin depth (.slots r :: outer) (s.read b)
        ((s.slotsOf r).toList.mapM slot).map .list
    | .object o =>
      if outer.contains (.fields o.vars) then none
      else
        let field := fun (e : String × BoxRef) =>
          (s.datumWithin depth (.fields o.vars :: outer) (s.read e.2)).map (e.1, ·)
        ((s.varsOf o.vars).entries.mapM field).map .record
    | .brk => some (.signal .brk)
    | .ret _ => some (.signal .ret)

/-- The plain form of a value; a container inside itself has none. -/
def datum? (s : Store) (v : Value) : Option Datum :=
  s.datumWithin (s.slots.size + s.vars.size + 2) [] v

end Store

end BoxScript
