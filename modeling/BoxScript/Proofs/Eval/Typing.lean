import BoxScript.Proofs.Eval.Course
import BoxScript.Proofs.Eval.Guarded
import BoxScript.Proofs.Eval.Written
import BoxScript.Proofs.Parser.Program

/-!
# What a run keeps

A run passes through points: each evaluation begins and, if it does not fail, ends with what it
yielded. `evaluateUntil halt` writes a line at each point, so that no two points of a run are alike
even if the store is the same again, and stops at the first one where `halt` says so. A `halt'` that
holds at fewer points stops the same run at a later point, or not at all. So the stores at any two
points of a run, and the store at its end, are compared by comparing runs that are stopped. The run
that is never stopped does what the program does, apart from the lines that are written.

From each point to each later one the store keeps what is fixed in it (`Store.Keeps`).

Result: **`store_typed`**, for every run of a parsed program.
-/

namespace BoxScript

open Eval

/-! ## Points -/

/-- A point of a run: an evaluation, with the machine at that point and the depth that is left. It
begins, or is over and yielded something. -/
structure Point where
  depth : Nat
  evaluation : Evaluation
  yielded : Option Yield

/-- The machine with one more line written. -/
def Machine.marked (m : Machine) : Machine :=
  { m with console := m.console.writeLine "" }

/-- Writes a line, and stops the run if `halt` says so. -/
def pass (halt : Point → Bool) (depth : Nat) (n : Node) (scope : Scope) (yielded : Option Yield) :
    Eval Unit :=
  fun m =>
    if halt ⟨depth, ⟨n, scope, m.marked⟩, yielded⟩ then .error .awaitingInput m.marked
    else .ok () m.marked

/-- Evaluates trees up to the first point where `halt` says so. -/
def evaluateUntil (halt : Point → Bool) (limit : Nat) : (depth : Nat) → Evaluator
  | 0 => fun n scope => do
    pass halt 0 n scope none
    throw .stackExhausted
  | depth + 1 => fun n scope => do
    pass halt (depth + 1) n scope none
    let y ← step limit (evaluateUntil halt limit depth) n scope
    pass halt (depth + 1) n scope (some y)
    return y

/-- Runs a program up to the first point where `halt` says so. -/
def runUntil (halt : Point → Bool) (limits : Limits) (ss : List Statement) (console : Console) :
    Outcome Value :=
  (programWith (evaluateUntil halt limits.rounds limits.depth) ss).runOn { console }

/-- Runs a program with the checks made, and `fault` for the answer where one fails. -/
def runGuarded (fault : Failure) (limits : Limits) (ss : List Statement) (console : Console) :
    Outcome Value :=
  (programWith (Guarded.evaluate fault limits.rounds limits.depth) ss).runOn { console }

/-! ## A run that is never stopped -/

/-- Where nothing stops the run, passing a point only writes. -/
theorem Echoes.pass_bind {α : Type} {e e' : Eval α} (h : Echoes e e') (depth : Nat) (n : Node)
    (scope : Scope) (yielded : Option Yield) :
    Echoes (pass (fun _ => false) depth n scope yielded >>= fun _ => e) e' := by
  intro m m' hm
  obtain ⟨hs, hc⟩ := Machine.cleared_eq_iff.mp hm
  exact h m.marked m'
    (Machine.cleared_eq_iff.mpr ⟨hs, (Console.cleared_writeLine ..).trans hc⟩)

theorem echoes_until_never (limit depth : Nat) :
    EchoesAll (evaluateUntil (fun _ => false) limit depth) (evaluate limit depth) := by
  induction depth with
  | zero => exact fun n scope => .pass_bind (.throw _) 0 n scope none
  | succ depth ih =>
    intro n scope
    refine .pass_bind ?_ (depth + 1) n scope none
    rw [← bind_pure (evaluate limit (depth + 1) n scope)]
    exact .bind (ih.step limit n scope) fun y => .pass_bind (.pure y) (depth + 1) n scope (some y)

/-! ## From a point to a later one -/

variable {kept : VarsRef → Prop} {halt halt' : Point → Bool} {m : Machine}

/-- A point where both evaluations stop, or only the second one, or none. -/
theorem Runs.pass_bind {α : Type} {f f' : Unit → Eval α} {Q : α → Machine → Prop}
    (hsound : m.store.Sound kept) (hhalt : ∀ p, halt' p = true → halt p = true)
    (depth : Nat) (n : Node) (scope : Scope) (yielded : Option Yield)
    (h : Runs True kept m.marked (f ()) (f' ()) Q) :
    Runs True kept m (pass halt' depth n scope yielded >>= f)
      (pass halt depth n scope yielded >>= f') Q := by
  have stopped : ∀ {halt : Point → Bool}, halt ⟨depth, ⟨n, scope, m.marked⟩, yielded⟩ = true →
      pass halt depth n scope yielded m = .error .awaitingInput m.marked := fun hp => if_pos hp
  have passed : ∀ {halt : Point → Bool}, ¬ halt ⟨depth, ⟨n, scope, m.marked⟩, yielded⟩ = true →
      pass halt depth n scope yielded m = .ok () m.marked := fun hp => if_neg hp
  have hsame : m.store.Evolves kept m.marked.store := .refl hsound
  by_cases hp' : halt' ⟨depth, ⟨n, scope, m.marked⟩, yielded⟩ = true
  · have he := bind_of_error (g := f) (stopped hp')
    have he' := bind_of_error (g := f') (stopped (hhalt _ hp'))
    refine ⟨.inl (he'.trans he.symm), ?_⟩
    rw [he]
    exact ⟨hsame, rfl⟩
  · unfold Runs Trails runOn
    rw [bind_of_ok (g := f) (passed hp')]
    by_cases hp : halt ⟨depth, ⟨n, scope, m.marked⟩, yielded⟩ = true
    · -- only the second one stops: what the first one still does comes later
      rw [bind_of_error (g := f') (stopped hp)]
      exact ⟨.inr ⟨trivial, _, m.marked, rfl, hsame, h.evolves⟩, h.2⟩
    · rw [bind_of_ok (g := f') (passed hp)]
      exact h

/-- **The run that stops at fewer points goes on from where the other one stops.** -/
theorem agree_until (kept : VarsRef → Prop) (hhalt : ∀ p, halt' p = true → halt p = true)
    (limit depth : Nat) :
    Agree True kept (evaluateUntil halt' limit depth) (evaluateUntil halt limit depth) := by
  induction depth with
  | zero =>
    intro n scope m hready
    have hmarked : m.marked.store.Sound kept := hready.sound
    exact .pass_bind hready.sound hhalt 0 n scope none (.throw hmarked _ rfl)
  | succ depth ih =>
    intro n scope m hready
    have hmarked : Ready kept n scope m.marked.store := hready
    refine .pass_bind hready.sound hhalt (depth + 1) n scope none ?_
    refine .bind (ih.step limit hmarked) fun y m₁ e₁ hy => ?_
    have hmarked : m₁.marked.store.Sound kept := e₁.sound
    exact .pass_bind e₁.sound hhalt (depth + 1) n scope (some y) (.pure hmarked hy)

theorem Trails.keeps {α : Type} {stops : Prop} {e e' : Eval α} (h : Trails stops kept m e e') :
    (e'.runOn m).machine.store.Keeps (e.runOn m).machine.store := by
  rcases h with heq | ⟨-, f, m₁, he', -, hlater⟩
  · rw [runOn, heq]
    exact .refl _
  · rw [machine_of_error he']
    exact hlater.toKeeps

theorem runOn_congr {α : Type} {e e' : Eval α} (h : e' m = e m) : e'.runOn m = e.runOn m := by
  rw [runOn, runOn, h]

/-- No program ends because a box was overwritten with a value that it may not hold. -/
theorem isMismatch_of_runProgram {ss : List Statement} (hss : TidyBlock ss) {limits : Limits}
    {console : Console} {e : EvalError}
    (he : (runProgram limits ss console).result = .error (.error e)) :
    e.cause.isMismatch = false := by
  unfold runProgram runOn at he
  cases hm : program limits ss { console } with
  | ok v m => rw [hm] at he; exact nomatch he
  | error f m =>
    rw [hm] at he
    obtain rfl : f = .error e := Except.error.inj he
    exact ((runs_program hss limits console).of_error hm).2

/-- **The typing of the store over whole runs.** From any point of a run of a parsed program to any
later one, or to its end, boxes keep their variants, arrays their lengths, and functions and classes
their declarations. All checks on boxes that are overwritten and on slots that are accessed pass,
and no run ends with the error that such a check would give. -/
theorem store_typed {loader : Option Loader} {source : String} {ss : List Statement}
    (hparse : Parser.parseProgram loader source = .ok ss) (limits : Limits) (console : Console) :
    (∀ halt halt' : Point → Bool, (∀ p, halt' p = true → halt p = true) →
      (runUntil halt limits ss console).machine.store.Keeps
        (runUntil halt' limits ss console).machine.store) ∧
    (runUntil (fun _ => false) limits ss console).cleared =
      (runProgram limits ss console).cleared ∧
    (∀ fault, runGuarded fault limits ss console = runProgram limits ss console) ∧
    ∀ e, (runProgram limits ss console).result = .error (.error e) →
      (∀ expected found, e.cause ≠ .wrongVariant expected found) ∧
        ∀ signal, e.cause ≠ .signalOverwritten signal := by
  have hss : TidyBlock ss := Parser.tidyBlock_parseProgram hparse
  refine ⟨fun halt halt' hhalt => ?_, ?_, fun fault => ?_, fun e he => ?_⟩
  · exact (Agree.programWith (agree_until keptNone hhalt _ _) hss console).1.keeps
  · exact (echoes_until_never limits.rounds limits.depth).programWith ss _ _ rfl
  · exact runOn_congr (Agree.programWith (agree_guarded keptNone fault _ _) hss console).eq
  · have hcause := isMismatch_of_runProgram hss he
    refine ⟨fun expected found h => ?_, fun signal h => ?_⟩
    · exact nomatch (congrArg EvalError.Cause.isMismatch h).symm.trans hcause
    · exact nomatch (congrArg EvalError.Cause.isMismatch h).symm.trans hcause

/-- The store at the first point with a box, and the store at the end. By then the name is bound to
a box of another variant, a function has been called, and the program has failed. -/
theorem store_typed_rebinding :
    ∃ ss, Parser.parseProgram none
        "x=true;fun f()\x7bx=false;return x;\x7dx=f();x=\"a\";error(x);" = .ok ss ∧
      ∃ s : Store, s.boxes.size = 1 ∧ s.Keeps (runProgram ⟨20, 9⟩ ss default).machine.store ∧
        (runProgram ⟨20, 9⟩ ss default).result.isOk = false := by
  obtain ⟨ss, hparse, htest⟩ := Parser.exists_parseProgram
    "x=true;fun f()\x7bx=false;return x;\x7dx=f();x=\"a\";error(x);"
    (fun ss =>
      (runUntil (fun p => p.evaluation.machine.store.boxes.size == 1) ⟨20, 9⟩ ss
        default).machine.store.boxes.size == 1 && !(runProgram ⟨20, 9⟩ ss default).result.isOk)
    (by decide +kernel)
  obtain ⟨hkeeps, hend, -⟩ := store_typed hparse ⟨20, 9⟩ default
  have hlater := hkeeps (fun p => p.evaluation.machine.store.boxes.size == 1) (fun _ => false)
    fun _ hp => absurd hp Bool.false_ne_true
  have hstore : (runUntil (fun _ => false) ⟨20, 9⟩ ss default).machine.store =
    (runProgram ⟨20, 9⟩ ss default).machine.store := congrArg (·.machine.store) hend
  rw [Bool.and_eq_true, beq_iff_eq, Bool.not_eq_true'] at htest
  exact ⟨ss, hparse, _, htest.1, hstore ▸ hlater, htest.2⟩

end BoxScript
