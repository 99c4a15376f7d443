import BoxScript.Eval.Run
import BoxScript.Proofs.Eval.Call

/-!
# The course of a run

The evaluations that take place while a program runs (`InRun`), and the stores that come up between
them (`ComesUp`). A run starts with the evaluation of the program's block. An evaluation makes
another one if what comes of it depends on what comes of the other (`Makes`): since a failure of a
part is a failure of the whole, an evaluation that takes place always can make a difference, and
one that does not take place never can.

Results, for programs with tidy trees:
* **`InRun.ready`**: every evaluation of the run is ready, so that its store is sound;
* `ComesUp.sound`: every store that comes up is sound;
* `Agree.programWith`: evaluators that agree run a program alike, and what it ends with is no pending
  `return`.
-/

namespace BoxScript

open Eval

/-! ## Evaluations -/

/-- The evaluation of a tree in a scope, from a machine. -/
structure Evaluation where
  node : Node
  scope : Scope
  machine : Machine

namespace Evaluation

/-- What an evaluator makes of an evaluation. -/
def result (c : Evaluation) (ev : Evaluator) : EStateM.Result Failure Machine Yield :=
  ev c.node c.scope c.machine

/-- What is left when an evaluation within limits is over. -/
def outcome (c : Evaluation) (limit depth : Nat) : Outcome Yield :=
  (evaluate limit depth c.node c.scope).runOn c.machine

/-- A literal yields its own value, which is in no box, and changes nothing. -/
theorem outcome_literal (c : Evaluation) {v : Value} (h : c.node = .literal v)
    (limit depth : Nat) :
    c.outcome limit (depth + 1) = { result := .ok (.value v), machine := c.machine } := by
  obtain ⟨n, scope, m⟩ := c
  obtain rfl : n = .literal v := h
  rfl

end Evaluation

/-- With `ev` for the parts of trees, the evaluation `c` makes the evaluation `d`: there is an
evaluator that differs from `ev` in `d` only, and with it something else comes of `c`. -/
def Makes (limit : Nat) (ev : Evaluator) (c d : Evaluation) : Prop :=
  ∃ ev' : Evaluator, (∀ e : Evaluation, e ≠ d → e.result ev' = e.result ev) ∧
    c.result (step limit ev') ≠ c.result (step limit ev)

/-! ## Runs -/

/-- Evaluates a program with a given evaluator. -/
def programWith (ev : Evaluator) (ss : List Statement) : Eval Value := do
  let scope ← create (·.newScope {} {} {})
  match ← valueOf ev (.block ss) scope with
  | .ret e => valueOf ev e scope
  | v => return v

/-- The text of the result of a run, or why there is none. -/
def Outcome.text (o : Outcome Value) : Except Failure String :=
  o.result.map o.machine.store.text

/-- The evaluation that a run starts with: the block of the program in an empty scope. -/
def firstEvaluation (ss : List Statement) (console : Console) : Evaluation :=
  let (scope, store) := ({} : Store).newScope {} {} {}
  { node := .block ss, scope, machine := { store, console } }

/-- The evaluations that take place while a program runs, with the depth that is left for each. -/
inductive InRun (limits : Limits) (ss : List Statement) (console : Console) :
    Nat → Evaluation → Prop
  /-- The block of the program. -/
  | first : InRun limits ss console limits.depth (firstEvaluation ss console)
  /-- What the program returns at the top level. -/
  | returned {y : Yield} {m : Machine} {e : Node} :
    (firstEvaluation ss console).result (evaluate limits.rounds limits.depth) = .ok y m →
    y.now m.store = .ret e →
    InRun limits ss console limits.depth ⟨e, (firstEvaluation ss console).scope, m⟩
  /-- What another evaluation makes. -/
  | part {depth : Nat} {c d : Evaluation} :
    InRun limits ss console (depth + 1) c →
    Makes limits.rounds (evaluate limits.rounds depth) c d → InRun limits ss console depth d

/-- The stores that come up while a program runs: the empty one, and those before and after each
evaluation, also if it fails. -/
inductive ComesUp (limits : Limits) (ss : List Statement) (console : Console) : Store → Prop
  | empty : ComesUp limits ss console {}
  | before {depth : Nat} {c : Evaluation} : InRun limits ss console depth c →
    ComesUp limits ss console c.machine.store
  | after {depth : Nat} {c : Evaluation} : InRun limits ss console depth c →
    ComesUp limits ss console (c.outcome limits.rounds depth).machine.store

/-! ## What holds all along -/

/-- No table is kept. -/
def keptNone : VarsRef → Prop :=
  fun _ => False

section Run

variable {limits : Limits} {ss : List Statement} {console : Console} {depth : Nat}
  {c : Evaluation}

/-- The scope that a run starts in. -/
theorem live_newScope :
    Live keptNone (({} : Store).newScope {} {} {}).1 (({} : Store).newScope {} {} {}).2 :=
  ⟨Store.sound_empty.newEmptyScope.sound, Store.newVars_lt {} {}⟩

/-- What a program ends with is no pending `return`. -/
theorem Agree.programWith {stops : Prop} {ev ev' : Evaluator} (hev : Agree stops keptNone ev ev')
    (hss : TidyBlock ss) (console : Console) :
    Runs stops keptNone { console } (programWith ev ss) (programWith ev' ss)
      fun v _ => v.variant ≠ .ret := by
  refine .bind (.create Store.sound_empty.newEmptyScope live_newScope)
    fun scope m₁ e₁ (hlive : Live keptNone scope m₁.store) => ?_
  refine .bind (hev.valueOf hlive (.inl (.block hss))) fun v m₂ e₂ hv => ?_
  cases v with
  | ret e =>
    rcases hv.2 with h | ⟨-, w, rfl, hw⟩
    · exact nomatch h
    · refine (hev.valueOf (hlive.later e₂) hv.1.evaluable).mono fun u m₃ _ hu => ?_
      exact hu.2.variant_ne_ret hw
  | _ => exact .pure e₂.sound Variant.noConfusion

theorem runs_program (hss : TidyBlock ss) (limits : Limits) (console : Console) :
    Runs False keptNone { console } (program limits ss) (program limits ss)
      fun v _ => v.variant ≠ .ret :=
  Agree.programWith (agree_evaluate keptNone limits.rounds limits.depth) hss console

theorem ready_firstEvaluation (hss : TidyBlock ss) (console : Console) :
    Ready keptNone (.block ss) (firstEvaluation ss console).scope
      (firstEvaluation ss console).machine.store :=
  .of_evaluable live_newScope (.inl (.block hss))

/-- An evaluation that is ready only makes evaluations that are ready. -/
theorem Makes.ready {kept : VarsRef → Prop} {limit : Nat} {ev : Evaluator} {d : Evaluation}
    (h : Makes limit ev c d) (hev : Agree False kept ev ev)
    (hc : Ready kept c.node c.scope c.machine.store) :
    Ready kept d.node d.scope d.machine.store := by
  obtain ⟨ev', hsame, hdiff⟩ := h
  refine Classical.byContradiction fun hd => ?_
  -- what differs in `d` only agrees wherever trees are ready, and so does what is built on it
  have hev' : Agree False kept ev ev' := by
    intro n scope m hready
    have hne : (⟨n, scope, m⟩ : Evaluation) ≠ d := fun heq => hd (heq ▸ hready)
    exact ⟨.inl (hsame _ hne), (hev hready).2⟩
  exact hdiff (hev'.step limit hc).eq

/-- **Every evaluation of a run is ready.** -/
theorem InRun.ready (h : InRun limits ss console depth c) (hss : TidyBlock ss) :
    Ready keptNone c.node c.scope c.machine.store := by
  induction h with
  | first => exact ready_firstEvaluation hss console
  | returned hy he =>
    have hfirst := ready_firstEvaluation hss console
    obtain ⟨he₁, hheld, -⟩ := (agree_evaluate keptNone _ _ hfirst).of_ok hy
    have hfit := hheld.fit he₁.sound
    rw [he] at hfit
    exact .of_evaluable (hfirst.toLive.later he₁) hfit.evaluable
  | part _ hmakes ih => exact hmakes.ready (agree_evaluate keptNone _ _) ih

theorem ComesUp.sound {s : Store} (h : ComesUp limits ss console s) (hss : TidyBlock ss) :
    s.Sound keptNone := by
  cases h with
  | empty => exact Store.sound_empty
  | before hc => exact (hc.ready hss).sound
  | after hc => exact (agree_evaluate keptNone _ _ (hc.ready hss)).evolves.sound

end Run

end BoxScript
