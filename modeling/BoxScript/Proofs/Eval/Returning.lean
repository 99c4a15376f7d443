import BoxScript.Proofs.Eval.Course
import BoxScript.Proofs.Parser.Program

/-!
# Pending returns

A `return` is a value on its way to the call that it ends. It is never stored: no box that is bound
to a name or lies in a slot holds one, and slots hold no `break` either. The tree that it holds is
computed at the innermost statement of a block; what leaves the block is a literal
(`Yield.returning`). Every block, loop and call around it hands the literal on as it is, with the
machine as it is (`PassesOn`), and at the latest the program ends with its value.

Result: **`returns_disciplined`**, for every evaluation of a parsed program.
-/

namespace BoxScript

open Eval

/-- A pending `return` of a value that is computed already. -/
def Yield.returning (v : Value) : Yield :=
  .value (.ret (.literal v))

/-! ## On the way out -/

/-- What stands around a pending `return` of `v` hands it on and does nothing else. -/
structure PassesOn (ev : Evaluator) (v : Value) : Prop where
  /-- A block ends with the statement that yields it, in whatever scope the block stands. -/
  block : ∀ {outer inner m m' n p ss last}, ev n inner m = .ok (.returning v) m' →
    statements ev outer inner last (.mk p n :: ss) m = .ok (.returning v) m'
  /-- A conditional yields what its branch yields. -/
  branch : ∀ {c yes no scope m m₁ m'} {b : Bool}, condition ev c scope m = .ok b m₁ →
    ev (.block (if b then yes else no)) scope m₁ = .ok (.returning v) m' →
    ifElse ev c yes no scope m = .ok (.returning v) m'
  onlyBranch : ∀ {c yes scope m m₁ m'}, condition ev c scope m = .ok true m₁ →
    ev (.block yes) scope m₁ = .ok (.returning v) m' →
    ifThen ev c yes scope m = .ok (.returning v) m'
  /-- A loop ends with the round in which its body yields it. -/
  body : ∀ {ss scope m m'}, ev (.block ss) scope m = .ok (.returning v) m' →
    loopBody ev ss scope m = .ok (some (.returning v)) m'
  round : ∀ {round : Scope → Eval (Option Yield)} {scope : Scope} {m m' : Machine} (limit : Nat),
    round (m.store.copyScope scope).1 { m with store := (m.store.copyScope scope).2 } =
      .ok (some (.returning v)) m' →
    rounds round (limit + 1) scope m = .ok (.returning v) m'
  /-- A call yields the value, in whatever scope it stands. -/
  call : ∀ {scope m}, callResult ev (.returning v) scope m = .ok (.value v) m

theorem passesOn_evaluate (limit depth : Nat) {v : Value} (hv : v.variant ≠ .ret) :
    PassesOn (evaluate limit (depth + 1)) v where
  block {outer inner m m' n p ss last} h := by
    have hstatement : statement (evaluate limit (depth + 1)) outer inner n m =
        .ok (.returning v) m' := by
      simp only [statement, bind, EStateM.bind, h]
      cases v with
      | ret e => exact absurd rfl hv
      | _ => rfl
    simp only [statements, placed, bind, EStateM.bind, hstatement]
    rfl
  branch {_ _ _ _ _ _ _ b} hc h := by
    simp only [ifElse, bind, EStateM.bind, hc]
    cases b <;> exact h
  onlyBranch hc h := by
    simp only [ifThen, bind, EStateM.bind, hc]
    exact h
  body h := by
    simp only [loopBody, bind, EStateM.bind, h]
    rfl
  round {_ scope m _} limit h := by
    have hcopy : create (·.copyScope scope) m = .ok (m.store.copyScope scope).1
        { m with store := (m.store.copyScope scope).2 } := rfl
    simp only [rounds, bind, EStateM.bind, hcopy, h]
    rfl
  call := rfl

/-! ## The end of a program -/

theorem variant_ne_ret_of_runProgram {ss : List Statement} (hss : TidyBlock ss) {limits : Limits}
    {console : Console} {v : Value} (hv : (runProgram limits ss console).result = .ok v) :
    v.variant ≠ .ret := by
  have hruns := (runs_program hss limits console).2
  unfold runProgram runOn at hv
  cases hm : program limits ss { console } with
  | error f m => rw [hm] at hv; exact nomatch hv
  | ok w m =>
    rw [hm] at hv hruns
    obtain rfl := Except.ok.inj hv
    exact hruns.2

/-! ## Returns in a run -/

theorem Value.variant_ne_brk_of_isStorable {v : Value} (h : v.isStorable = true) :
    v.variant ≠ .brk := by
  cases v with
  | brk => exact absurd h Bool.false_ne_true
  | _ => exact Variant.noConfusion

/-- A pending `return` that was yielded is not in a box. -/
theorem Yield.Held.eq_value {kept : VarsRef → Prop} {y : Yield} {s : Store} {e : Node}
    (h : y.Held kept s) (hs : s.Sound kept) (he : y.now s = .ret e) : y = .value (.ret e) := by
  cases y with
  | value v => exact congrArg Yield.value he
  | box b => exact absurd (congrArg Value.variant he) (hs.solid b).variant_ne_ret

/-- **Return discipline.** While a parsed program runs,
* no name, field or slot has a pending `return`, and no slot has a `break`;
* a tree that yields a pending `return` is the literal itself, or a form with a body; what leaves the
  form holds a literal with a value that is no pending `return`. A loop never yields a `break`;
* what stands around such a literal hands it on: nothing is evaluated again, the machine stays as it
  is, and the scope does not matter;
* the program does not end with a pending `return`. -/
theorem returns_disciplined {loader : Option Loader} {source : String} {ss : List Statement}
    (hparse : Parser.parseProgram loader source = .ok ss) (limits : Limits) (console : Console) :
    (∀ s, ComesUp limits ss console s →
      (∀ r x b, (s.varsOf r).find? x = some b → (s.read b).variant ≠ .ret) ∧
      (∀ q i b, s.slot q i = some b → (s.read b).variant ≠ .ret ∧ (s.read b).variant ≠ .brk)) ∧
    (∀ depth c y m, InRun limits ss console depth c →
      c.result (evaluate limits.rounds depth) = .ok y m →
      (∀ e, y.now m.store = .ret e → y = .value (.ret e) ∧ (c.node = .literal (.ret e) ∨
        (c.node.isForm = true ∧ ∃ v, e = .literal v ∧ v.variant ≠ .ret))) ∧
      (c.node.isLoop = true → (y.now m.store).variant ≠ .brk)) ∧
    (∀ depth v, v.variant ≠ .ret → PassesOn (evaluate limits.rounds (depth + 1)) v) ∧
    (∀ v, (runProgram limits ss console).result = .ok v → v.variant ≠ .ret) := by
  have htidy := Parser.tidyBlock_parseProgram hparse
  refine ⟨fun s hs => ⟨fun r x b _ => ?_, fun q i b hb => ⟨?_, ?_⟩⟩,
    fun depth c y m hc hy => ⟨fun e he => ?_, fun hloop hbrk => ?_⟩,
    fun depth v hv => passesOn_evaluate limits.rounds depth hv, fun v hv => ?_⟩
  · exact ((hs.sound htidy).solid b).variant_ne_ret
  · exact ((hs.sound htidy).solid b).variant_ne_ret
  · exact Value.variant_ne_brk_of_isStorable ((hs.sound htidy).filled hb).2
  · obtain ⟨hev, hheld, hmay⟩ := (agree_evaluate keptNone _ _ (hc.ready htidy)).of_ok hy
    rw [he] at hmay
    exact ⟨hheld.eq_value hev.sound he, hmay⟩
  · obtain ⟨-, -, hmay⟩ := (agree_evaluate keptNone _ _ (hc.ready htidy)).of_ok hy
    cases hnow : y.now m.store with
    | brk =>
      rw [hnow] at hmay
      exact absurd (hmay.symm.trans hloop) Bool.false_ne_true
    | _ => rw [hnow] at hbrk; exact nomatch hbrk
  · exact variant_ne_ret_of_runProgram htidy hv

/-- A `return` inside of a block, a loop and a function ends the call, and one at the top level ends
the program with its value. -/
theorem returns_disciplined_nested :
    ∃ ss, Parser.parseProgram none
        "fun f()\x7bwhile(true)\x7b\x7breturn true;\x7d\x7d\x7dif(f())\x7breturn \"a\";\x7d" = .ok ss ∧
      ∃ v, (runProgram ⟨20, 9⟩ ss default).result = .ok v ∧ v.variant ≠ .ret := by
  obtain ⟨ss, hparse, hrun⟩ := Parser.exists_parseProgram
    "fun f()\x7bwhile(true)\x7b\x7breturn true;\x7d\x7d\x7dif(f())\x7breturn \"a\";\x7d"
    (fun ss => (runProgram ⟨20, 9⟩ ss default).result.isOk) (by decide +kernel)
  have hend := (returns_disciplined hparse ⟨20, 9⟩ default).2.2.2
  refine ⟨ss, hparse, ?_⟩
  generalize (runProgram ⟨20, 9⟩ ss default).result = result at hrun hend ⊢
  cases result with
  | error f => exact nomatch hrun
  | ok v => exact ⟨v, rfl, hend v rfl⟩

end BoxScript
