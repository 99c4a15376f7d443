import BoxScript.Proofs.Eval.Asking
import BoxScript.Proofs.Parser.Program

/-!
# What the limit on the depth decides

Nothing catches the exhaustion of the stack. So with less depth an evaluation comes to the same end,
or it stops with an exhausted stack somewhere on the way there (`Falls`), and what it has written by
then is what the other one writes at first.

Results:
* `Dialogue.falls`: if the parts fall short at most, so does the whole;
* `Evaluation.Fair.falls`: evaluations with less depth fall short at most;
* **`depth_decides`**: this holds of whole programs.
-/

namespace BoxScript

open Eval

/-! ## What is written stays written -/

variable {c : Evaluation} {m m' : Machine}

/-- What an evaluation does on its own leaves what is written. -/
theorem Does.precedes {Answer : Evaluation → Yield → Machine → Prop} (h : Does Answer c m m') :
    m.console.Precedes m'.console := by
  induction h with
  | andThen _ _ ih₁ ih₂ => exact ih₁.trans ih₂
  | console m h => exact h
  | _ => exact Console.precedes_refl _

/-- **A fair evaluation leaves what is written.** -/
theorem Evaluation.Fair.precedes (hc : c.Fair) (limit depth : Nat) :
    c.machine.console.Precedes (c.outcome limit depth).machine.console := by
  induction depth generalizing c with
  | zero => exact Console.precedes_refl _
  | succ depth ih =>
    exact hc.run (K := fun m m' => m.console.Precedes m'.console) (fun h h' => h.trans h')
      (fun h => h.precedes) fun d hd _ _ _ => ih hd

/-! ## Falling short -/

/-- The first computation comes to the same end as the second one, or its stack is exhausted on the
way there. -/
def Falls {α : Type} (e e' : Eval α) (m : Machine) : Prop :=
  e' m = e m ∨ ∃ m₁, e m = .error .stackExhausted m₁ ∧
    m₁.console.Precedes (e'.runOn m).machine.console

section Falls

variable {α β : Type} {e e' : Eval α} {m : Machine}

theorem Falls.refl (e : Eval α) (m : Machine) : Falls e e m :=
  .inl rfl

/-- One computation after the other. What comes behind must leave what is written. -/
theorem Falls.bind {G G' : α → Eval β} (h : Falls e e' m)
    (hG : ∀ a m', e m = .ok a m' → e' m = .ok a m' → Falls (G a) (G' a) m')
    (hwritten : ∀ a m', e' m = .ok a m' →
      m'.console.Precedes ((G' a).runOn m').machine.console) :
    Falls (e >>= G) (e' >>= G') m := by
  rcases h with heq | ⟨m₁, hshort, hprec⟩
  · cases hr : e m with
    | error f m' =>
      exact .inl ((bind_of_error (heq.trans hr)).trans (bind_of_error hr).symm)
    | ok a m' =>
      have hr' := heq.trans hr
      rcases hG a m' hr hr' with hsame | ⟨m₁, hshort, hprec⟩
      · exact .inl ((bind_of_ok hr').trans (hsame.trans (bind_of_ok hr).symm))
      · refine .inr ⟨m₁, (bind_of_ok hr).trans hshort, ?_⟩
        rw [runOn, bind_of_ok hr', ← runOn]
        exact hprec
  · refine .inr ⟨m₁, bind_of_error hshort, ?_⟩
    cases hr : e' m with
    | error f m' =>
      rw [machine_of_error hr] at hprec
      rw [machine_of_error (bind_of_error hr)]
      exact hprec
    | ok a m' =>
      rw [machine_of_ok hr] at hprec
      rw [runOn, bind_of_ok hr, ← runOn]
      exact hprec.trans (hwritten a m' hr)

end Falls

variable {α : Type} {short long : Nat}

/-- **If the parts fall short at most, so does the whole.** -/
theorem Dialogue.falls {Q : α → Machine → Prop} {F : Asking α} (h : Dialogue anyAnswer c Q F m)
    (ev ev' : Evaluator) (hshort : ∀ d, Asks anyAnswer c d → Matters ev F m d →
      Falls (ev d.node d.scope) (ev' d.node d.scope) d.machine ∧
        ∀ y m', d.result ev = .ok y m' → Told anyAnswer d y m')
    (hlong : ∀ d, Asks anyAnswer c d → Matters ev' F m d →
      d.machine.console.Precedes (d.left ev').console ∧
        ∀ y m', d.result ev' = .ok y m' → Told anyAnswer d y m') : Falls (F ev) (F ev') m := by
  induction h with
  | done hF _ _ => exact .inl ((hF ev').trans (hF ev).symm)
  | failed hF _ => exact .inl ((hF ev').trans (hF ev).symm)
  | @asks F m d g k hF hg _ ha hk ih =>
    obtain ⟨hfalls, htold⟩ := hshort d ha (.first hF hg)
    have hend : ∀ ev r, d.result ev = r → F ev m = resume r g fun y => k y ev :=
      fun ev r hr => hr ▸ hF ev
    rcases hfalls with heq | ⟨m₁, hstop, hprec⟩
    · -- the part comes to the same end
      cases hr : d.result ev with
      | error f m' => exact .inl ((hend ev' _ (heq.trans hr)).trans (hend ev _ hr).symm)
      | ok y m' =>
        have hr' : d.result ev' = .ok y m' := heq.trans hr
        have hrest := ih y m' (htold y m' hr)
          (fun e he hm => hshort e he (hm.later hF hg hr))
          fun e he hm => hlong e he (hm.later hF hg hr')
        unfold Falls runOn at hrest ⊢
        rw [hend ev _ hr, hend ev' _ hr']
        exact hrest
    · -- the part exhausts the stack, and so does the whole
      refine .inr ⟨m₁, (hend ev _ hstop).trans ?_, hprec.trans ?_⟩
      · exact congrArg (EStateM.Result.error · m₁) (hg .stackExhausted rfl)
      · cases hr : d.result ev' with
        | error f m' =>
          rw [machine_of_error hr, machine_of_error (hend ev' _ hr)]
          exact Console.precedes_refl _
        | ok y m' =>
          have htold' := (hlong d ha (.first hF hg)).2 y m' hr
          have hrest := ((hk y m' htold').run ev'
            (K := fun m m' => m.console.Precedes m'.console) (fun h h' => h.trans h')
            (fun h => h.precedes) fun e he hm _ => hlong e he (hm.later hF hg hr)).1
          rw [machine_of_ok hr, runOn, hend ev' _ hr, resume, ← runOn]
          exact hrest

/-- **Evaluations with less depth fall short at most.** -/
theorem Evaluation.Fair.falls (hc : c.Fair) (limit : Nat) (hle : short ≤ long) :
    Falls (evaluate limit short c.node c.scope) (evaluate limit long c.node c.scope) c.machine := by
  induction short generalizing long c with
  | zero => exact .inr ⟨c.machine, rfl, hc.precedes limit long⟩
  | succ short ih =>
    obtain ⟨long, rfl⟩ : ∃ k, long = k + 1 := ⟨long - 1, by omega⟩
    refine (hc.dialogue anyAnswer limit).falls (evaluate limit short) (evaluate limit long)
      (fun d ha hd => ?_) fun d ha hd => ?_
    · have hfair := (hc.of_matters ha hd).1
      exact ⟨ih hfair (by omega), fun y m' hr => hfair.told hr trivial⟩
    · have hfair := (hc.of_matters ha hd).1
      exact ⟨hfair.precedes limit long, fun y m' hr => hfair.told hr trivial⟩

/-! ## Programs -/

section Program

variable {ss : List Statement} {console : Console}

/-- What is yielded is read without a change. -/
theorem precedes_read (y : Yield) (m : Machine) :
    m.console.Precedes ((read y).runOn m).machine.console := by
  cases y <;> exact Console.precedes_refl _

theorem Evaluation.Fair.falls_valueOf (hc : c.Fair) (limit : Nat) (hle : short ≤ long) :
    Falls (valueOf (evaluate limit short) c.node c.scope)
      (valueOf (evaluate limit long) c.node c.scope) c.machine :=
  (hc.falls limit hle).bind (fun _ _ _ _ => .refl _ _) fun y m' _ => precedes_read y m'

theorem Evaluation.Fair.precedes_valueOf (hc : c.Fair) (limit depth : Nat) :
    c.machine.console.Precedes
      ((valueOf (evaluate limit depth) c.node c.scope).runOn c.machine).machine.console := by
  have hprec := hc.precedes limit depth
  rw [outcome] at hprec
  cases hr : evaluate limit depth c.node c.scope c.machine with
  | error f m =>
    rw [machine_of_error hr] at hprec
    rw [valueOf, machine_of_error (bind_of_error hr)]
    exact hprec
  | ok y m =>
    rw [machine_of_ok hr] at hprec
    rw [valueOf, runOn, bind_of_ok hr, ← runOn]
    exact hprec.trans (precedes_read y m)

/-- What a value is read from. -/
theorem exists_of_valueOf {ev : Evaluator} {n : Node} {scope : Scope} {v : Value}
    (h : valueOf ev n scope m = .ok v m') : ∃ y, ev n scope m = .ok y m' ∧ y.now m'.store = v := by
  cases hr : ev n scope m with
  | error f m₁ => exact nomatch (bind_of_error hr).symm.trans h
  | ok y m₁ =>
    have hread : read y m₁ = .ok v m' := (bind_of_ok hr).symm.trans h
    cases y with
    | value w =>
      obtain ⟨rfl, rfl⟩ := EStateM.Result.ok.inj hread
      exact ⟨.value w, rfl, rfl⟩
    | box b =>
      obtain ⟨rfl, rfl⟩ := EStateM.Result.ok.inj hread
      exact ⟨.box b, rfl, rfl⟩

/-- What a program returns at the top level is fair. -/
theorem fair_returned (hss : TidyBlock ss) (limits : Limits) {e : Node}
    (h : valueOf (evaluate limits.rounds limits.depth) (.block ss)
      (firstEvaluation ss console).scope (firstEvaluation ss console).machine = .ok (.ret e) m) :
    (Evaluation.mk e (firstEvaluation ss console).scope m).Fair := by
  obtain ⟨y, hy, he⟩ := exists_of_valueOf h
  have hrun : InRun limits ss console limits.depth ⟨e, _, m⟩ := .returned hy he
  exact hrun.fair hss

theorem Falls.create_bind {β : Type} {g : Store → α × Store} {G G' : α → Eval β}
    (h : Falls (G (g m.store).1) (G' (g m.store).1) { m with store := (g m.store).2 }) :
    Falls (create g >>= G) (create g >>= G') m :=
  h

/-- A program with less depth falls short at most. -/
theorem falls_program (hss : TidyBlock ss) (console : Console) (rounds : Nat) (hle : short ≤ long) :
    Falls (program ⟨short, rounds⟩ ss) (program ⟨long, rounds⟩ ss) { console } := by
  have hfirst := fair_firstEvaluation hss console
  refine .create_bind (.bind (hfirst.falls_valueOf rounds hle) (fun v m hr _ => ?_) fun v m hr => ?_)
  · cases v with
    | ret e => exact (fair_returned hss ⟨short, rounds⟩ hr).falls_valueOf rounds hle
    | _ => exact .refl _ _
  · cases v with
    | ret e =>
      exact (fair_returned hss ⟨long, rounds⟩ hr).precedes_valueOf rounds long
    | _ => exact Console.precedes_refl _

/-- **The limit on the depth decides between the end of a run and an exhausted stack, and nothing
else.** If a parsed program does not exhaust the stack with some depth, it comes to the same end with
more of it: the same result or error, the same store, and the same console, with what was written and
what is left to be read. If it does, what it has written is what it writes at first with more. -/
theorem depth_decides {loader : Option Loader} {source : String}
    (hparse : Parser.parseProgram loader source = .ok ss) (console : Console) (rounds : Nat)
    {short long : Nat} (hle : short ≤ long) :
    ((runProgram ⟨short, rounds⟩ ss console).result ≠ .error .stackExhausted →
      runProgram ⟨long, rounds⟩ ss console = runProgram ⟨short, rounds⟩ ss console) ∧
    ((runProgram ⟨short, rounds⟩ ss console).result = .error .stackExhausted →
      (runProgram ⟨short, rounds⟩ ss console).machine.console.Precedes
        (runProgram ⟨long, rounds⟩ ss console).machine.console) := by
  have hfalls := falls_program (Parser.tidyBlock_parseProgram hparse) console rounds hle
  unfold runProgram
  rcases hfalls with heq | ⟨m, hshort, hprec⟩
  · have hsame : (program ⟨long, rounds⟩ ss).runOn { console } =
        (program ⟨short, rounds⟩ ss).runOn { console } := by
      rw [runOn, heq, ← runOn]
    rw [hsame]
    exact ⟨fun _ => rfl, fun _ => Console.precedes_refl _⟩
  · have hresult : (program ⟨short, rounds⟩ ss).runOn { console } =
        { result := .error .stackExhausted, machine := m } := by
      rw [runOn, hshort]
    rw [hresult]
    exact ⟨fun hne => absurd rfl hne, fun _ => hprec⟩

/-- The stack was exhausted. -/
def Outcome.exhausted {α : Type} (o : Outcome α) : Bool :=
  match o.result with
  | .error .stackExhausted => true
  | _ => false

theorem Outcome.result_of_exhausted {o : Outcome α} (h : o.exhausted = true) :
    o.result = .error .stackExhausted := by
  obtain ⟨_ | a, m⟩ := o
  · rename_i f
    cases f with
    | stackExhausted => rfl
    | _ => exact nomatch h
  · exact nomatch h

theorem Outcome.result_ne_of_exhausted {o : Outcome α} (h : o.exhausted = false) :
    o.result ≠ .error .stackExhausted := by
  intro heq
  rw [exhausted, heq] at h
  exact nomatch h

/-- A function that calls itself once, and an error behind it. -/
def callsItself : String :=
  "fun f(x)\x7bprint(x);if(x)\x7bf(false);\x7d\x7df(true);error(\"end\");"

/-- With depth 8 the second call exhausts the stack. With depth 9 the program comes to its error, and
so it does with depth 20. -/
theorem depth_decides_recursion :
    ∃ ss, Parser.parseProgram none callsItself = .ok ss ∧
      let run := fun depth => runProgram ⟨depth, 9⟩ ss (.buffer {})
      (run 8).result = .error .stackExhausted ∧ (run 9).result ≠ .error .stackExhausted ∧
      (run 8).machine.console.Precedes (run 9).machine.console ∧ run 20 = run 9 := by
  obtain ⟨ss, hparse, htest⟩ := Parser.exists_parseProgram callsItself
    (fun ss => (runProgram ⟨8, 9⟩ ss (.buffer {})).exhausted &&
      !(runProgram ⟨9, 9⟩ ss (.buffer {})).exhausted) (by decide +kernel)
  rw [Bool.and_eq_true, Bool.not_eq_true'] at htest
  have hshort := Outcome.result_of_exhausted htest.1
  have hlong := Outcome.result_ne_of_exhausted htest.2
  have h₈ := depth_decides hparse (.buffer {}) 9 (show 8 ≤ 9 by decide)
  have h₉ := depth_decides hparse (.buffer {}) 9 (show 9 ≤ 20 by decide)
  exact ⟨ss, hparse, hshort, hlong, h₈.2 hshort, h₉.1 hlong⟩

end Program

end BoxScript
