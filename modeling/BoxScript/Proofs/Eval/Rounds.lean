import BoxScript.Proofs.Eval.Asking

/-!
# Loops, round by round

A loop starts with a copy of the scope around it, and makes another copy for each of its rounds. Here
are its rounds as definitions of their own, and beside them the same loops without these copies
(`plainWhile`, `plainFor`): all rounds of a plain loop run in one scope.

Result: `Leads.evaluate`, and from it `Leads.whileRound` and `Leads.forRound`: what runs in a sound
store, be it in part, leaves a sound store in which nothing is missing.
-/

namespace BoxScript

open Eval

/-! ## Rounds -/

/-- One round of a `while` loop that stands in the scope `outer`. -/
def whileRound (test : Node) (ss : List Statement) (outer inner : Scope) :
    Asking (Option Yield) := fun ev => do
  if ← condition ev test outer then loopBody ev ss inner else return some (.value .void)

/-- One round of a `for` loop. -/
def forRound (test increment : Node) (ss : List Statement) (inner : Scope) :
    Asking (Option Yield) := fun ev => do
  if ← condition ev test inner then
    match ← loopBody ev ss inner with
    | some y => return some y
    | none =>
      let _ ← ev increment inner
      return none
  else return some (.value .void)

/-- The rounds of a `for` loop behind a round in the given scope. -/
def forRounds (test increment : Node) (ss : List Statement) (limit : Nat) (scope : Scope) :
    Asking Yield := fun ev =>
  rounds (fun inner => forRound test increment ss inner ev) limit scope

/-! ## Plain loops -/

/-- Runs rounds until one of them ends the loop with a result, all in the same scope. -/
def plainRounds (round : Eval (Option Yield)) : Nat → Eval Yield
  | 0 => throw .roundsExhausted
  | n + 1 => do
    match ← round with
    | some y => return y
    | none => plainRounds round n

/-- A `while` loop that runs its body right in the scope around it. -/
def plainWhile (ev : Evaluator) (limit : Nat) (test : Node) (ss : List Statement) (scope : Scope) :
    Eval Yield :=
  plainRounds (whileRound test ss scope scope ev) limit

/-- A `for` loop that runs in one copy of the scope around it. -/
def plainFor (ev : Evaluator) (limit : Nat) (init test increment : Node) (ss : List Statement)
    (scope : Scope) : Eval Yield := do
  let own ← create (·.copyScope scope)
  let _ ← ev init own
  plainRounds (forRound test increment ss own ev) limit

/-! ## Copies -/

/-- The machine with a copy of the scope. -/
def Machine.copied (m : Machine) (scope : Scope) : Machine :=
  { m with store := (m.store.copyScope scope).2 }

section Copies

variable (m : Machine) (scope : Scope)

theorem Machine.size_copied : (m.copied scope).store.vars.size = m.store.vars.size + 1 :=
  Array.size_push ..

/-- The copy has the same variables. -/
theorem Machine.varsOf_copied :
    (m.copied scope).store.varsOf (m.store.copyScope scope).1.vars = m.store.varsOf scope.vars :=
  (Store.varsOf_newVars ..).trans (if_pos rfl)

theorem Machine.within_copied : (m.store.copyScope scope).1.Within (m.copied scope).store where
  vars_lt := by
    rw [m.size_copied scope]
    exact Nat.lt_succ_self _
  funs_lt := (Array.size_push ..).symm ▸ Nat.lt_succ_self _
  classes_lt := (Array.size_push ..).symm ▸ Nat.lt_succ_self _

theorem Store.Rooted.copied (h : m.store.Rooted) : m.store.Widens (m.copied scope).store := by
  have hvars := h.newVars (m.store.varsOf scope.vars)
  have hfuns := hvars.trans (hvars.rooted.newFuns (m.store.funsOf scope.funs))
  exact hfuns.trans (hfuns.rooted.newClasses (m.store.classesOf scope.classes))

/-- No object has the variables of the copy. -/
theorem Store.Sound.fresh_copied (h : m.store.Sound keptNone) {b : BoxRef} {o : Instance}
    (ho : (m.copied scope).store.read b = .object o) :
    o.vars ≠ (m.store.copyScope scope).1.vars := by
  have hsolid := h.solid b
  rw [show m.store.read b = .object o from ho] at hsolid
  intro heq
  exact Nat.lt_irrefl _ (heq ▸ hsolid.1)

end Copies

theorem forRounds_succ (test increment : Node) (ss : List Statement) (limit : Nat) (scope : Scope)
    (m : Machine) (ev : Evaluator) :
    forRounds test increment ss (limit + 1) scope ev m =
      (forRound test increment ss (m.store.copyScope scope).1 ev >>= fun r =>
        match r with
        | some y => pure y
        | none => forRounds test increment ss limit (m.store.copyScope scope).1 ev) (m.copied scope) :=
  rfl

theorem whileLoop_apply (ev : Evaluator) (limit : Nat) (test : Node) (ss : List Statement)
    (scope : Scope) (m : Machine) :
    whileLoop ev limit test ss scope m =
      rounds (fun inner => whileRound test ss scope inner ev) limit (m.store.copyScope scope).1
        (m.copied scope) :=
  rfl

theorem forLoop_apply (ev : Evaluator) (limit : Nat) (init test increment : Node)
    (ss : List Statement) (scope : Scope) (m : Machine) :
    forLoop ev limit init test increment ss scope m =
      (ev init (m.store.copyScope scope).1 >>= fun _ =>
        forRounds test increment ss limit (m.store.copyScope scope).1 ev) (m.copied scope) :=
  rfl

theorem plainFor_apply (ev : Evaluator) (limit : Nat) (init test increment : Node)
    (ss : List Statement) (scope : Scope) (m : Machine) :
    plainFor ev limit init test increment ss scope m =
      (ev init (m.store.copyScope scope).1 >>= fun _ =>
        plainRounds (forRound test increment ss (m.store.copyScope scope).1 ev) limit)
        (m.copied scope) :=
  rfl

section Rounds

variable {round : Scope → Eval (Option Yield)} {plain : Eval (Option Yield)} {scope : Scope}
  {m m' : Machine} {y : Yield} {f : Failure}

/-- The next round ends the loop. -/
theorem rounds_of_some (h : round (m.store.copyScope scope).1 (m.copied scope) = .ok (some y) m')
    (n : Nat) : rounds round (n + 1) scope m = .ok y m' := by
  change (round (m.store.copyScope scope).1 >>= _) (m.copied scope) = _
  rw [bind_of_ok h]
  rfl

/-- The loop goes on behind its next round. -/
theorem rounds_of_none (h : round (m.store.copyScope scope).1 (m.copied scope) = .ok none m')
    (n : Nat) : rounds round (n + 1) scope m = rounds round n (m.store.copyScope scope).1 m' := by
  change (round (m.store.copyScope scope).1 >>= _) (m.copied scope) = _
  rw [bind_of_ok h]
  rfl

theorem rounds_of_error (h : round (m.store.copyScope scope).1 (m.copied scope) = .error f m')
    (n : Nat) : rounds round (n + 1) scope m = .error f m' := by
  change (round (m.store.copyScope scope).1 >>= _) (m.copied scope) = _
  rw [bind_of_error h]

theorem plainRounds_of_some (h : plain m = .ok (some y) m') (n : Nat) :
    plainRounds plain (n + 1) m = .ok y m' := by
  rw [plainRounds, bind_of_ok h]
  rfl

theorem plainRounds_of_none (h : plain m = .ok none m') (n : Nat) :
    plainRounds plain (n + 1) m = plainRounds plain n m' := by
  rw [plainRounds, bind_of_ok h]

theorem plainRounds_of_error (h : plain m = .error f m') (n : Nat) :
    plainRounds plain (n + 1) m = .error f m' := by
  rw [plainRounds, bind_of_error h]

end Rounds

/-! ## What rounds lead to -/

/-- The store of the machine is sound, and all handles in it lead into it. -/
structure Machine.Fit (m : Machine) : Prop where
  sound : m.store.Sound keptNone
  rooted : m.store.Rooted

/-- If the computation ends, it leaves a fit machine, and nothing was taken out of the store. -/
def Leads {α : Type} (e : Eval α) (m : Machine) : Prop :=
  ∀ a m', e m = .ok a m' → m.store.Widens m'.store ∧ m'.Fit

namespace Leads

variable {α β : Type} {e : Eval α} {f : α → Eval β} {m : Machine}

theorem pure (hm : m.Fit) (a : α) : Leads (Pure.pure a) m := by
  rintro _ _ ⟨⟩
  exact ⟨hm.rooted.refl, hm⟩

theorem fail (cause : EvalError.Cause) : Leads (Eval.fail cause : Eval α) m :=
  nofun

theorem bind (he : Leads e m) (hf : ∀ a m', m.store.Widens m'.store → m'.Fit → Leads (f a) m') :
    Leads (e >>= f) m := by
  intro b m₂ h
  cases heq : e m with
  | ok a m₁ =>
    rw [bind_of_ok heq] at h
    obtain ⟨hw, hm₁⟩ := he a m₁ heq
    obtain ⟨hw', hm₂⟩ := hf a m₁ hw hm₁ b m₂ h
    exact ⟨hw.trans hw', hm₂⟩
  | error g m₁ =>
    rw [bind_of_error heq] at h
    exact nomatch h

theorem read (hm : m.Fit) (y : Yield) : Leads (Eval.read y) m := by
  cases y with
  | value v => exact .pure hm v
  | box b =>
    rintro _ _ ⟨⟩
    exact ⟨hm.rooted.refl, hm⟩

variable {limit depth : Nat} {n test increment : Node} {ss : List Statement} {scope inner : Scope}

section

variable (hm : m.Fit) (hscope : scope.Within m.store)
include hm hscope

/-- **Whatever is evaluated in a fit machine leaves a fit machine.** -/
theorem evaluate (hn : n.TidyStatement) : Leads (Eval.evaluate limit depth n scope) m := by
  intro y m' hr
  have hready : Ready keptNone n scope m.store :=
    ⟨⟨hm.sound, hscope.vars_lt⟩, .inl hn, fun _ _ _ h => h⟩
  have hfair : (⟨n, scope, m⟩ : Evaluation).Fair :=
    ⟨hready, hm.rooted, hscope, fun o ho => absurd ho (hn.ne_object o)⟩
  have hw := (hfair.widens limit depth).1
  rw [Evaluation.outcome, machine_of_ok hr] at hw
  exact ⟨hw, ((agree_evaluate keptNone limit depth hready).of_ok hr).1.sound, hw.rooted⟩

theorem condition (htest : test.Tidy) :
    Leads (Eval.condition (Eval.evaluate limit depth) test scope) m := by
  refine .bind (.bind (.evaluate hm hscope (.tidy htest)) fun y m₁ _ hm₁ => .read hm₁ y)
    fun v m₁ _ hm₁ => ?_
  cases v with
  | boolean b => exact .pure hm₁ b
  | _ => exact .fail _

theorem loopBody (hss : TidyBlock ss) :
    Leads (Eval.loopBody (Eval.evaluate limit depth) ss scope) m := by
  refine .bind (.evaluate hm hscope (.tidy (.block hss))) fun y m₁ _ hm₁ => ?_
  refine .bind (.read hm₁ y) fun v m₂ _ hm₂ => ?_
  cases v with
  | brk => exact .pure hm₂ _
  | ret e => exact .pure hm₂ _
  | _ => exact .pure hm₂ none

theorem whileRound (hinner : inner.Within m.store) (htest : test.Tidy) (hss : TidyBlock ss) :
    Leads (BoxScript.whileRound test ss scope inner (Eval.evaluate limit depth)) m := by
  refine .bind (.condition hm hscope htest) fun t m₁ hw hm₁ => ?_
  cases t with
  | true => exact .loopBody hm₁ (hinner.mono hw) hss
  | false => exact .pure hm₁ _

theorem forRound (htest : test.Tidy) (hincrement : increment.TidyStatement) (hss : TidyBlock ss) :
    Leads (BoxScript.forRound test increment ss scope (Eval.evaluate limit depth)) m := by
  refine .bind (.condition hm hscope htest) fun t m₁ hw₁ hm₁ => ?_
  cases t with
  | false => exact .pure hm₁ _
  | true =>
    refine .bind (.loopBody hm₁ (hscope.mono hw₁) hss) fun r m₂ hw₂ hm₂ => ?_
    cases r with
    | some y => exact .pure hm₂ _
    | none =>
      have hscope₂ := (hscope.mono hw₁).mono hw₂
      exact .bind (.evaluate hm₂ hscope₂ hincrement) fun _ _ _ hm₃ => .pure hm₃ none

end

end Leads

end BoxScript
