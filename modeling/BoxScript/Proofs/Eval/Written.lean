import BoxScript.Proofs.Eval.Lockstep

/-!
# What is written

A program cannot read what it has written. `Echoes e e'` says that two evaluations do the same apart
from that: on machines that differ at most in what is written, they give the same result, or fail
alike, and leave machines that differ at most in what is written.

Result: **`EchoesAll.step`**, with evaluators for the parts that echo each other, what a tree does
is echoed too.
-/

namespace BoxScript

open Eval

/-- The machine with nothing written yet. -/
def Machine.cleared (m : Machine) : Machine :=
  { m with console := m.console.cleared }

/-- What is left, apart from what was written. -/
def Outcome.cleared {α : Type} (o : Outcome α) : Outcome α :=
  { o with machine := o.machine.cleared }

theorem Machine.cleared_eq_iff {m m' : Machine} :
    m.cleared = m'.cleared ↔ m.store = m'.store ∧ m.console.cleared = m'.console.cleared :=
  Machine.mk.injEq .. ▸ Iff.rfl

/-! ## Consoles -/

namespace Console

theorem cleared_writeLine (c : Console) (s : String) : (c.writeLine s).cleared = c.cleared := by
  cases c <;> rfl

/-- What a console gives to read does not depend on what was written. -/
theorem readLine_cleared (c : Console) :
    c.cleared.readLine = (c.readLine.1, c.readLine.2.cleared) := by
  cases c with
  | terminal t =>
    simp only [cleared, readLine, Terminal.readLine]
    split
    · rfl
    · split
      · rfl
      · split <;> rfl
  | buffer b =>
    simp only [cleared, readLine, Buffer.readLine]
    split <;> rfl

theorem readLine_of_cleared_eq {c c' : Console} (h : c.cleared = c'.cleared) :
    c'.readLine.1 = c.readLine.1 ∧ c.readLine.2.cleared = c'.readLine.2.cleared := by
  have hread : (c.readLine.1, c.readLine.2.cleared) = (c'.readLine.1, c'.readLine.2.cleared) := by
    rw [← readLine_cleared, ← readLine_cleared, h]
  exact ⟨(Prod.mk.inj hread).1.symm, (Prod.mk.inj hread).2⟩

end Console

/-! ## Evaluations that echo each other -/

/-- Apart from what is written, `e'` does what `e` does. -/
def Echoes {α : Type} (e e' : Eval α) : Prop :=
  ∀ m m' : Machine, m.cleared = m'.cleared → (e.runOn m).cleared = (e'.runOn m').cleared

/-- Evaluators that echo each other. -/
def EchoesAll (ev ev' : Evaluator) : Prop :=
  ∀ n scope, Echoes (ev n scope) (ev' n scope)

/-- Runs that differ at most in what is written. -/
def written : Likeness where
  console c c' := c.cleared = c'.cleared
  failure := Eq
  place _ := True
  same := True
  reads := Console.readLine_of_cleared_eq
  writes _ h := (Console.cleared_writeLine ..).trans (h.trans (Console.cleared_writeLine ..).symm)
  raises _ _ := rfl
  awaits _ _ := rfl

namespace written

theorem placing : written.Placing := by
  rintro f _ p rfl
  rfl

theorem tree (n : Node) : written.Tree n :=
  fun _ _ => trivial

theorem yields (y : Yield) : written.Yields y := by
  cases y with
  | value v => exact tree (.literal v)
  | box b => trivial

theorem machines_iff {m m' : Machine} : written.Machines m m' ↔ m.cleared = m'.cleared := by
  rw [Machine.cleared_eq_iff]
  refine ⟨fun h => ⟨(h.store.same trivial).symm, h.console⟩, fun ⟨hstore, hconsole⟩ => ⟨?_, hconsole⟩⟩
  rw [hstore]
  exact .refl (fun _ => trivial) _

theorem like_iff {α : Type} {Q : α → Prop} {e e' : Eval α} (hQ : ∀ a, Q a) :
    written.Like Q e e' ↔ Echoes e e' := by
  refine ⟨fun h m m' hm => ?_, fun h m m' hm => ?_⟩
  · have hends := h m m' (machines_iff.mpr hm)
    have hmachine := machines_iff.mp hends.machines
    have hresult := hends.result_eq fun f f' (hf : f = f') => hf.symm
    exact Outcome.mk.injEq .. ▸ ⟨hresult.symm, hmachine⟩
  · have hcleared := h m m' (machines_iff.mp hm)
    unfold runOn at hcleared
    generalize e m = r, e' m' = r' at hcleared ⊢
    cases r with
    | ok a m₁ =>
      cases r' with
      | ok a' m₁' =>
        obtain ⟨ha, hm₁⟩ := Outcome.mk.inj hcleared
        obtain rfl := Except.ok.inj ha
        exact .ok (hQ a) (machines_iff.mpr hm₁)
      | error f' m₁' => exact nomatch (Outcome.mk.inj hcleared).1
    | error f m₁ =>
      cases r' with
      | ok a' m₁' => exact nomatch (Outcome.mk.inj hcleared).1
      | error f' m₁' =>
        obtain ⟨hf, hm₁⟩ := Outcome.mk.inj hcleared
        exact .error (Except.error.inj hf) (machines_iff.mpr hm₁)

end written

namespace Echoes

variable {α β : Type} {e e' : Eval α} {f f' : α → Eval β}

theorem bind (h : Echoes e e') (hf : ∀ a, Echoes (f a) (f' a)) :
    Echoes (e >>= f) (e' >>= f') := by
  have hlike : written.Like (fun _ => True) (e >>= f) (e' >>= f') :=
    .bind ((written.like_iff fun _ => trivial).mpr h) fun a _ =>
      (written.like_iff fun _ => trivial).mpr (hf a)
  exact (written.like_iff fun _ => trivial).mp hlike

theorem pure (a : α) : Echoes (Pure.pure a) (Pure.pure a) :=
  fun _ _ hm => Outcome.mk.injEq .. ▸ ⟨rfl, hm⟩

theorem throw (f : Failure) : Echoes (throw f : Eval α) (MonadExcept.throw f) :=
  fun _ _ hm => Outcome.mk.injEq .. ▸ ⟨rfl, hm⟩

end Echoes

namespace EchoesAll

variable {ev ev' : Evaluator}

theorem all (h : EchoesAll ev ev') : written.All ev ev' :=
  fun n scope _ => (written.like_iff written.yields).mpr (h n scope)

/-- **What a tree does is echoed**, if what its parts do is. -/
theorem step (h : EchoesAll ev ev') (limit : Nat) :
    EchoesAll (Eval.step limit ev) (Eval.step limit ev') :=
  fun n scope => (written.like_iff written.yields).mp
    (h.all.step written.placing limit n scope (written.tree n))

theorem programWith (h : EchoesAll ev ev') (ss : List Statement) :
    Echoes (programWith ev ss) (programWith ev' ss) :=
  (written.like_iff fun v => written.tree (.literal v)).mp (h.all.programWith (written.tree _))

end EchoesAll

end BoxScript
