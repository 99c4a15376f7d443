import BoxScript.Proofs.Eval.Asking
import BoxScript.Proofs.Parser.Program

/-!
# Where signals are stored

An assignment refuses a `break` and a pending `return`, and nothing else puts a value into a slot. A
parameter is bound without that check: its value is a copy of an argument, and a pending `return`
cannot be copied, but a `break` can. So the argument of a call that is a block with a `break` in it
leaves a `break` under the name of a parameter (`parameter_holds_break`), from where it can be read,
and this is the only way for a signal into the store.

Results:
* `Does.break_argued`: on its own an evaluation stores a `break` only as the value of an argument;
* **`signals_stored`**: slots hold no signals, names hold no pending `return`, and a name that holds a
  `break` is due to an argument that was one.
-/

namespace BoxScript

open Eval

/-! ## Stored breaks -/

theorem Value.ne_brk_of_isStorable {v : Value} (h : v.isStorable = true) : v ≠ .brk := by
  rintro rfl
  exact nomatch h

/-- **On its own an evaluation stores a `break` only as the value of an argument.** -/
theorem Does.break_argued {Answer : Evaluation → Yield → Machine → Prop} {c : Evaluation}
    {m m' : Machine} (h : Does Answer c m m') (hbrk : .brk ∈ m'.store.boxes) :
    .brk ∈ m.store.boxes ∨ Argued Answer c .brk := by
  induction h with
  | andThen _ _ ih₁ ih₂ => exact (ih₂ hbrk).elim ih₁ .inr
  | assignVar m r x _ hv _ =>
    refine .inl ((m.store.mem_boxes_assignVar hbrk).resolve_right fun heq => ?_)
    exact Value.ne_brk_of_isStorable hv heq.symm
  | assignSlot m r i _ hv _ =>
    refine .inl ((m.store.mem_boxes_assignSlot hbrk).resolve_right fun heq => ?_)
    exact Value.ne_brk_of_isStorable hv heq.symm
  | bindNew m r x harg _ =>
    rcases Store.mem_boxes_bindNew hbrk with hold | rfl
    · exact .inl hold
    · exact .inr harg
  | _ => exact .inl hbrk

section Run

variable {limits : Limits} {ss : List Statement} {console : Console} {depth : Nat} {c : Evaluation}

/-- In the run there is a call with an argument that came to a `break`. -/
def BreakArgued (limits : Limits) (ss : List Statement) (console : Console) : Prop :=
  ∃ depth call, InRun limits ss console (depth + 1) call ∧
    Argued (Answered limits.rounds (evaluate limits.rounds depth) call) call .brk

/-- A `break` in a box was there before, or is due to an argument. -/
def BreakTraced (limits : Limits) (ss : List Statement) (console : Console) (m m' : Machine) :
    Prop :=
  .brk ∈ m'.store.boxes → .brk ∈ m.store.boxes ∨ BreakArgued limits ss console

theorem BreakTraced.trans {m m₁ m₂ : Machine} (h₁ : BreakTraced limits ss console m m₁)
    (h₂ : BreakTraced limits ss console m₁ m₂) : BreakTraced limits ss console m m₂ :=
  fun hbrk => (h₂ hbrk).elim h₁ .inr

theorem InRun.break_does (h : InRun limits ss console (depth + 1) c) {m m' : Machine}
    (hd : Does (Answered limits.rounds (evaluate limits.rounds depth) c) c m m') :
    BreakTraced limits ss console m m' :=
  fun hbrk => (hd.break_argued hbrk).imp_right fun harg => ⟨depth, c, h, harg⟩

/-- An evaluation of the run only leaves a `break` that was there before, or is due to an
argument. -/
theorem InRun.break_after (h : InRun limits ss console depth c) (hss : TidyBlock ss) :
    BreakTraced limits ss console c.machine (c.outcome limits.rounds depth).machine := by
  induction depth generalizing c with
  | zero => exact .inl
  | succ depth ih =>
    exact (h.fair hss).run .trans h.break_does fun d _ hmakes _ _ => ih (h.part hmakes)

/-- An evaluation of the run only finds a `break` that is due to an argument. -/
theorem InRun.break_before (h : InRun limits ss console depth c) (hss : TidyBlock ss)
    (hbrk : .brk ∈ c.machine.store.boxes) : BreakArgued limits ss console := by
  have hempty : .brk ∉ (firstEvaluation ss console).machine.store.boxes := Array.not_mem_empty _
  induction h with
  | first => exact absurd hbrk hempty
  | returned hy _ =>
    have hfirst : InRun limits ss console limits.depth (firstEvaluation ss console) := .first
    have hafter := hfirst.break_after hss
    rw [Evaluation.outcome, machine_of_ok hy] at hafter
    exact (hafter hbrk).resolve_left hempty
  | part hc hmakes ih =>
    obtain ⟨-, -, htraced⟩ := (hc.fair hss).made .trans hc.break_does
      (fun e _ he _ _ => (hc.part he).break_after hss) hmakes
    exact (htraced hbrk).elim ih id

/-- A `break` in a box of a store that comes up is due to an argument. -/
theorem ComesUp.break_argued {s : Store} (h : ComesUp limits ss console s) (hss : TidyBlock ss)
    (hbrk : .brk ∈ s.boxes) : BreakArgued limits ss console := by
  cases h with
  | empty => exact absurd hbrk (Array.not_mem_empty _)
  | before hc => exact hc.break_before hss hbrk
  | after hc => exact (hc.break_after hss hbrk).elim (hc.break_before hss) id

end Run

/-! ## Programs -/

/-- **Where signals are stored.** In every store that comes up while a parsed program runs, no slot
of an array holds a signal, and no variable, parameter or field holds a pending `return`. If one holds
a `break`, then there is a call in the run with an argument that came to a `break`; so without such a
call no signal is ever stored. -/
theorem signals_stored {loader : Option Loader} {source : String} {ss : List Statement}
    (hparse : Parser.parseProgram loader source = .ok ss) {limits : Limits} {console : Console}
    {s : Store} (hs : ComesUp limits ss console s) :
    (∀ q i b, s.slot q i = some b → (s.read b).variant.isSignal = false) ∧
    (∀ r x b, (s.varsOf r).find? x = some b → (s.read b).variant ≠ .ret) ∧
    (∀ r x b, (s.varsOf r).find? x = some b → s.read b = .brk →
      ∃ depth, ∃ call arg : Evaluation, ∃ y m, InRun limits ss console (depth + 1) call ∧
        arg.node ∈ call.node.arguments ∧ arg.scope = call.scope ∧
        Makes limits.rounds (evaluate limits.rounds depth) call arg ∧
        arg.result (evaluate limits.rounds depth) = .ok y m ∧ y.now m.store = .brk) := by
  have hss : TidyBlock ss := Parser.tidyBlock_parseProgram hparse
  have hsound := hs.sound hss
  refine ⟨fun q i b hb => ?_, fun r x b _ => (hsound.solid b).variant_ne_ret, fun r x b _ hbrk => ?_⟩
  · exact (Bool.not_eq_true' _).mp (hsound.filled hb).2
  · have hmem : .brk ∈ s.boxes := Store.mem_boxes_of_read hbrk Value.noConfusion
    obtain ⟨depth, call, hcall, arg, y, m, hnode, hscope, ⟨hmakes, hr⟩, hy⟩ :=
      hs.break_argued hss hmem
    exact ⟨depth, call, arg, y, m, hcall, hnode, hscope, hmakes, hr, hy⟩

/-- A function that is given a `break`, and prints what type its parameter has. -/
def breakGiven : String :=
  "fun f(x)\x7bprint(x.type);\x7df(\x7bbreak;\x7d);"

theorem Value.eq_brk_of_variant {v : Value} (h : v.variant = .brk) : v = .brk := by
  cases v with
  | brk => rfl
  | _ => exact nomatch h

/-- A store of the run in which the name of the parameter is bound to a box with a `break`. -/
theorem exists_breakGiven :
    ∃ ss s, Parser.parseProgram none breakGiven = .ok ss ∧ ComesUp ⟨9, 9⟩ ss default s ∧
      (s.varsOf ⟨2⟩).find? "x" = some ⟨0⟩ ∧ s.read ⟨0⟩ = .brk := by
  obtain ⟨ss, hparse, htest⟩ := Parser.exists_parseProgram breakGiven
    (fun ss =>
      let s := ((firstEvaluation ss default).outcome 9 9).machine.store
      decide ((s.varsOf ⟨2⟩).find? "x" = some ⟨0⟩ ∧ (s.read ⟨0⟩).variant = .brk))
    (by decide +kernel)
  obtain ⟨hx, hbrk⟩ := of_decide_eq_true htest
  have hs : ComesUp ⟨9, 9⟩ ss default ((firstEvaluation ss default).outcome 9 9).machine.store :=
    .after .first
  exact ⟨ss, _, hparse, hs, hx, Value.eq_brk_of_variant hbrk⟩

/-- **A parameter holds a `break`**: signals are not kept out of the store. -/
theorem parameter_holds_break :
    ∃ ss s, Parser.parseProgram none breakGiven = .ok ss ∧ ComesUp ⟨9, 9⟩ ss default s ∧
      ∃ r x b, (s.varsOf r).find? x = some b ∧ s.read b = .brk := by
  obtain ⟨ss, s, hparse, hs, hx, hbrk⟩ := exists_breakGiven
  exact ⟨ss, s, hparse, hs, ⟨2⟩, "x", ⟨0⟩, hx, hbrk⟩

/-- The `break` is due to the argument of the call. -/
theorem signals_stored_argument :
    ∃ ss s, Parser.parseProgram none breakGiven = .ok ss ∧ ComesUp ⟨9, 9⟩ ss default s ∧
      (s.varsOf ⟨2⟩).find? "x" = some ⟨0⟩ ∧ s.read ⟨0⟩ = .brk ∧
      ∃ depth, ∃ call arg : Evaluation, ∃ y m, InRun ⟨9, 9⟩ ss default (depth + 1) call ∧
        arg.node ∈ call.node.arguments ∧ arg.result (evaluate 9 depth) = .ok y m ∧
        y.now m.store = .brk := by
  obtain ⟨ss, s, hparse, hs, hx, hbrk⟩ := exists_breakGiven
  obtain ⟨-, -, hstored⟩ := signals_stored hparse hs
  obtain ⟨depth, call, arg, y, m, hcall, hnode, -, -, hr, hy⟩ := hstored _ _ _ hx hbrk
  exact ⟨ss, s, hparse, hs, hx, hbrk, depth, call, arg, y, m, hcall, hnode, hr, hy⟩

end BoxScript
