import BoxScript.Proofs.Eval.Trace
import BoxScript.Proofs.Parser.Program

/-!
# What an evaluation leaves alone

The table of variables that an evaluation starts with is its own only if it is an assignment.
Everything else works on tables that it makes itself, on those of objects, and on boxes, which keep
their variants. So when the evaluation is over, the table has the same bindings as before.

The proof runs the evaluation once more with this table among the kept ones, which needs that no
object has it (`Store.Sound.keep`).

Result: **`bindings_unchanged`**, for every evaluation of a parsed program.
-/

namespace BoxScript

open Eval

/-- A table that is there and belongs to no object can be kept. -/
theorem Store.Sound.keep {s : Store} (h : s.Sound keptNone) {r : VarsRef}
    (hr : r.id < s.vars.size) (ho : ∀ b o, s.read b = .object o → o.vars ≠ r) :
    s.Sound (· = r) :=
  { h with
    solid := fun b => by
      have hb := h.solid b
      have hob := ho b
      cases hv : s.read b with
      | object o =>
        rw [hv] at hb
        exact ⟨hb.1, hob o hv⟩
      | ret e => rw [hv] at hb; exact hb
      | _ => trivial
    kept_lt := fun hk => hk ▸ hr }

/-- **Scopes do not leak variables.** Whatever is evaluated while a parsed program runs, other than an
assignment to a name, and whether it ends with a value or fails: the table of variables that it was
evaluated with, if it belongs to no object, binds the same names to the same boxes as before, and
each of these boxes holds a value of the same variant. -/
theorem bindings_unchanged {loader : Option Loader} {source : String} {ss : List Statement}
    (hparse : Parser.parseProgram loader source = .ok ss) {limits : Limits} {console : Console}
    {depth : Nat} {c : Evaluation} (hc : InRun limits ss console depth c)
    (hassign : ∀ x e, c.node ≠ .assign x e)
    (hobject : ∀ b o, c.machine.store.read b = .object o → o.vars ≠ c.scope.vars) :
    let before := c.machine.store
    let after := (c.outcome limits.rounds depth).machine.store
    after.varsOf c.scope.vars = before.varsOf c.scope.vars ∧
      ∀ x b, (before.varsOf c.scope.vars).find? x = some b →
        (after.read b).variant = (before.read b).variant := by
  have hready := hc.ready (Parser.tidyBlock_parseProgram hparse)
  have hevolves := (agree_evaluate keptNone limits.rounds depth hready).evolves
  refine ⟨?_, fun x b hb => hevolves.variant_eq (hready.sound.bound ⟨_, hb⟩)⟩
  rcases hready.node with hn | ⟨v, hn, -⟩
  · -- with the table among the kept ones, the evaluation is ready again
    have hkeep : Ready (· = c.scope.vars) c.node c.scope c.machine.store :=
      ⟨⟨hready.sound.keep hready.scope_lt hobject, hready.scope_lt⟩, .inl hn,
        fun x e he => absurd he (hassign x e)⟩
    exact (agree_evaluate _ limits.rounds depth hkeep).evolves.varsOf_eq rfl
  · -- a literal with a value that came up changes nothing
    cases depth with
    | zero => rfl
    | succ depth => rw [c.outcome_literal hn]

/-- `x="a";\x7bx=true;\x7d`, with the places of its statements. -/
def rebinding (p q r : Option Position) : List Statement :=
  [.mk p (.assign "x" (.literal (.string "a")))] ++
    [.mk q (.block [.mk r (.assign "x" (.literal (.boolean true)))])]

/-- The inner block of the program, when `x` is bound to a string. -/
def innerBlock (r : Option Position) : Evaluation where
  node := .block [.mk r (.assign "x" (.literal (.boolean true)))]
  scope := ⟨⟨1⟩, ⟨1⟩, ⟨1⟩⟩
  machine :=
    { store :=
        { boxes := #[.string "a"], vars := #[{}, ⟨[("x", ⟨0⟩)]⟩], funs := #[{}, {}]
          classes := #[{}, {}] }
      console := default }

/-- The inner block is evaluated in the run, behind the first statement. -/
theorem inRun_innerBlock {p q r : Option Position} (hss : TidyBlock (rebinding p q r)) :
    InRun ⟨9, 9⟩ (rebinding p q r) default 8 (innerBlock r) := by
  have hfirst : InRun ⟨9, 9⟩ (rebinding p q r) default 9 _ := .first
  have hbefore : block (evaluate 9 8) [.mk p (.assign "x" (.literal (.string "a")))]
      ⟨⟨0⟩, ⟨0⟩, ⟨0⟩⟩ (firstEvaluation (rebinding p q r) default).machine =
        .ok (.value .void) (innerBlock r).machine := rfl
  exact .part hfirst ((hfirst.fair hss).makes_statement rfl (fun _ _ _ => Node.noConfusion) hbefore rfl)

/-- A string that is rebound to a truth value inside of a block is a string behind it. -/
theorem bindings_unchanged_rebinding :
    ∃ p q r, Parser.parseProgram none "x=\"a\";\x7bx=true;\x7d" = .ok (rebinding p q r) ∧
      ((innerBlock r).outcome 9 8).machine.store.varsOf ⟨1⟩ = ⟨[("x", ⟨0⟩)]⟩ ∧
      (((innerBlock r).outcome 9 8).machine.store.read ⟨0⟩).variant = .string := by
  obtain ⟨p, q, r, hparse⟩ : ∃ p q r,
      Parser.parseProgram none "x=\"a\";\x7bx=true;\x7d" = .ok (rebinding p q r) := ⟨_, _, _, rfl⟩
  have hobject : ∀ b o, (innerBlock r).machine.store.read b = .object o →
      o.vars ≠ (innerBlock r).scope.vars := by
    rintro ⟨id⟩ o h
    cases id <;> exact nomatch h
  obtain ⟨hvars, hvariant⟩ := bindings_unchanged hparse
    (inRun_innerBlock (Parser.tidyBlock_parseProgram hparse)) (fun _ _ h => Node.noConfusion h) hobject
  exact ⟨p, q, r, hparse, hvars, hvariant "x" ⟨0⟩ rfl⟩

end BoxScript
