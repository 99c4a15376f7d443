import BoxScript.Node.Outline
import BoxScript.Store.Basic
import BoxScript.Text.Quoted

/-!
# Values as text

The text of an array lists its slots and that of an object its fields. A container inside itself
is shown as three dots. A scope is shown by the names in it.
-/

namespace BoxScript

/-- What an array or object shares with its copies. -/
inductive Container where
  | slots (r : SlotsRef)
  | fields (r : VarsRef)
  deriving DecidableEq, Repr

namespace Store

/-- The text of an array or object inside the containers `outer`. The first argument bounds how
deeply containers nest. -/
def containerText (s : Store) : Nat → List Container → Value → String
  | 0, _, _ => "..."
  | depth + 1, outer, .array r =>
    if outer.contains (.slots r) then "..."
    else
      let shown := s.containerText depth (.slots r :: outer)
      let slot := fun (b : Option BoxRef) =>
        match b with
        | none => "void"
        | some b => (s.read b).text shown
      "(" ++ ", ".intercalate ((s.slotsOf r).toList.map slot) ++ ")"
  | depth + 1, outer, .object o =>
    if outer.contains (.fields o.vars) then "..."
    else
      let shown := s.containerText depth (.fields o.vars :: outer)
      let field := fun (e : String × BoxRef) => e.1 ++ "=" ++ (s.read e.2).text shown
      o.className ++ "(" ++ ", ".intercalate ((s.varsOf o.vars).entries.map field) ++ ")"
  | _ + 1, _, v => v.source fun _ => "..."

/-- The text of an array or object. There are no more containers inside each other than there are
in the store, so this many levels are enough. -/
def shown (s : Store) : Value → String :=
  s.containerText (s.slots.size + s.vars.size + 1) []

/-- The text that `print` writes. -/
def text (s : Store) (v : Value) : String :=
  v.text s.shown

/-- The value as a literal. -/
def source (s : Store) (v : Value) : String :=
  v.source s.shown

/-- The variant of the value around its literal. -/
def outline (s : Store) (v : Value) : String :=
  v.outline s.shown

end Store

/-- The names of a scope in order of their code points. -/
def Scope.outline (scope : Scope) (s : Store) : String :=
  let sorted := fun (names : List String) => Text.quotedList (names.mergeSort fun a b => a ≤ b)
  "Env<vars=" ++ sorted (s.varsOf scope.vars).names ++ " funcs=" ++
    sorted (s.funsOf scope.funs).names ++ " classes=" ++
    sorted (s.classesOf scope.classes).names ++ ">"

end BoxScript
