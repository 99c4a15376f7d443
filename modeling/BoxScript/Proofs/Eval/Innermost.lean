import BoxScript.Proofs.Eval.Declarations
import BoxScript.Proofs.Parser.Pointing

/-!
# The statement that an error is in

A block places the errors of its statements as they come out of them, unless they have a place
already. `evaluateAt` places errors the other way round: whatever it evaluates knows the place of
the innermost statement around it, and an error gets that place before it leaves the tree that
raised it. Both ways give the same runs, so the place of an error is that of the innermost statement
that was being executed when it was raised.

Classes at the start of a block are declared before any of its statements is executed. If two
classes of the program itself have the same name, no statement is there to place the error.

Results:
* `Likeness.All.evaluateAt`: places that are given early are those that are given late;
* **`errors_placed`**: where the errors of a program are.
-/

namespace BoxScript

open Eval

/-! ## Placing errors early -/

namespace Eval

/-- The statements of a block behind one that yielded `last`. What a statement evaluates knows the
place of the statement. -/
def statementsAt (ev : Option Position → Evaluator) (outer inner : Scope) :
    Yield → List Statement → Eval Yield
  | last, [] => return last
  | _, .mk p n :: ss => do
    let y ← placed p (statement (ev p) outer inner n)
    if (← read y).isStorable then statementsAt ev outer inner y ss else return y

/-- Runs the body of a block or a class. -/
def bodyAt (ev : Option Position → Evaluator) : BodyRunner := fun outer inner ss => do
  let (decls, rest) := leadingClasses ss
  decls.forM (declareClass decls inner)
  statementsAt ev outer inner (.value .void) rest

/-- Evaluates trees inside of the statement at `here`. Errors that a tree raises are placed there
before they leave the tree. -/
def evaluateAt (limit : Nat) : (depth : Nat) → (here : Option Position) → Evaluator
  | 0, _ => fun _ _ => throw .stackExhausted
  | depth + 1, here => fun n scope =>
    let run := bodyAt (evaluateAt limit depth)
    placed here <|
      stepWith limit (evaluateAt limit depth here) run
        (newWith (evaluateAt limit depth here) run siblingTable) n scope

end Eval

/-- Runs a program and places errors as they are raised. -/
def runAt (limits : Limits) (ss : List Statement) (console : Console) : Outcome Value :=
  (programWith (evaluateAt limits.rounds limits.depth none) ss).runOn { console }

/-! ## Early and late -/

namespace Failure

variable {f : Failure} {p q : Option Position}

theorem placedAt_none (f : Failure) : f.placedAt none = f := by
  cases f with
  | error e =>
    obtain ⟨cause, _ | p⟩ := e <;> rfl
  | _ => rfl

theorem placedAt_placedAt (f : Failure) (p : Option Position) :
    (f.placedAt p).placedAt p = f.placedAt p := by
  cases f with
  | error e =>
    obtain ⟨cause, _ | q⟩ := e
    · cases p <;> rfl
    · rfl
  | _ => rfl

/-- A place that was there, or the one that is given. -/
theorem position_placedAt (f : Failure) (p : Option Position) :
    (f.placedAt p).position = none ∨ (f.placedAt p).position = f.position ∨
      (f.placedAt p).position = p := by
  cases f with
  | error e =>
    obtain ⟨cause, _ | q⟩ := e
    · exact .inr (.inr (Option.none_or ..))
    · exact .inr (.inl rfl)
  | _ => exact .inl rfl

end Failure

/-- Runs inside of the statement at `here` that differ in when errors are placed: they have the same
place once this statement has placed them. The places are those of statements. -/
def placing (place : Option Position → Prop) (here : Option Position) : Likeness :=
  .onSameConsole
    (fun f f' => f'.placedAt here = f.placedAt here ∧ (f.position = none ∨ place f.position))
    place True fun h => ⟨rfl, .inl h⟩

namespace placing

variable {place : Option Position → Prop} {here p : Option Position}

variable {m m' : Machine} {α : Type}

/-- What is alike in one statement is alike in all. -/
theorem machines (h : (placing place p).Machines m m') : (placing place here).Machines m m' := by
  refine ⟨{ h.store with classes := fun r x => ?_ }, h.console⟩
  have hx := h.store.classes r x
  generalize (m.store.classesOf r).find? x = o, (m'.store.classesOf r).find? x = o' at hx ⊢
  cases hx with
  | none => exact .none
  | some hc => exact .some ⟨hc.decl, hc.siblings, hc.same⟩

theorem machine_eq (h : (placing place p).Machines m m') : m' = m := by
  obtain ⟨store, console⟩ := m'
  obtain rfl : m.store = store := (h.store.same trivial).symm
  obtain rfl : m.console = console := h.console
  rfl

/-- A statement places the errors that are raised in it, early or late. -/
theorem like_placed {Q : α → Prop} {e e' : Eval α} (hp : place p)
    (h : (placing place p).Like Q e e') :
    (placing place here).Like Q (placed p e) (placed p e') := by
  intro m m' hm
  have hends := h m m' (machines hm)
  generalize heq : e m = r, heq' : e' m' = r' at hends
  cases hends with
  | ok ha hm₁ =>
    rw [placed_of_ok p heq, placed_of_ok p heq']
    exact .ok ha (machines hm₁)
  | @error f f' _ _ hf hm₁ =>
    rw [placed_eq_error p heq, placed_eq_error p heq']
    obtain ⟨hsame, hplace⟩ := hf
    refine .error ⟨by rw [hsame], ?_⟩ (machines hm₁)
    rcases f.position_placedAt p with hnone | hold | hnew
    · exact .inl hnone
    · rwa [hold]
    · rw [hnew]
      exact .inr hp

/-- An error that was placed early is placed no other way later. -/
theorem like_early {Q : α → Prop} {e e' : Eval α} (h : (placing place here).Like Q e e') :
    (placing place here).Like Q e (placed here e') := by
  intro m m' hm
  have hends := h m m' hm
  generalize heq : e m = r, heq' : e' m' = r' at hends
  cases hends with
  | ok ha hm₁ =>
    rw [placed_of_ok here heq']
    exact .ok ha hm₁
  | @error f f' _ _ hf hm₁ =>
    rw [placed_eq_error here heq']
    exact .error ⟨(f'.placedAt_placedAt here).trans hf.1, hf.2⟩ hm₁

section Bodies

variable {ev : Evaluator} {evAt : Option Position → Evaluator}
  (hev : ∀ p, (placing place p).All ev (evAt p))
include hev

theorem like_statements (outer inner : Scope) {ss : List Statement}
    (hss : (placing place here).Tree (.block ss)) {last : Yield}
    (hlast : (placing place here).Yields last) :
    (placing place here).Like (placing place here).Yields (statements ev outer inner last ss)
      (statementsAt evAt outer inner last ss) := by
  induction ss generalizing last with
  | nil => exact .pure hlast
  | cons s ss ih =>
    obtain ⟨p, n⟩ := s
    obtain ⟨hp, hn⟩ := Node.placedIn_block.mp hss _ List.mem_cons_self
    have hstatement : (placing place here).Like (placing place here).Yields
        (placed p (statement ev outer inner n)) (placed p (statement (evAt p) outer inner n)) :=
      like_placed hp ((hev p).statement outer inner hn)
    refine .bind hstatement fun y hy => ?_
    refine .bind (.read hy) fun _ _ => .ite (fun _ => ih ?_ hy) fun _ => .pure hy
    exact hss.block_mono fun s hs => List.mem_cons_of_mem _ hs

theorem like_body (outer inner : Scope) (ss : List Statement)
    (hss : (placing place here).Tree (.block ss)) :
    (placing place here).Like (placing place here).Yields (body ev outer inner ss)
      (bodyAt evAt outer inner ss) := by
  obtain ⟨hdecls, hrest⟩ := hss.leadingClasses
  refine .bind (.declareClasses hdecls inner) fun _ _ => ?_
  exact like_statements hev outer inner hrest (Likeness.fits_of_isPlain (v := .void) trivial)

end Bodies

/-- **Early and late are the same**, inside of every statement. -/
theorem all_evaluate (limit depth : Nat) (here : Option Position) :
    (placing place here).All (evaluate limit depth) (evaluateAt limit depth here) := by
  induction depth generalizing here with
  | zero => exact fun _ _ _ => .throw rfl nofun
  | succ depth ih =>
    intro n scope hn
    change Likeness.Like _ _ (step limit (evaluate limit depth) n scope) _
    rw [step_eq_stepWith]
    exact like_early ((ih here).stepWith (like_body ih) limit n scope hn)

end placing

/-- The statement with this place stands in the program. -/
def PlaceIn (ss : List Statement) (p : Option Position) : Prop :=
  ∃ s : Statement, s.StandsIn (.block ss) ∧ s.position = p

/-- Programs run the same way, and a place of an error is that of a statement. -/
theorem runAt_eq (limits : Limits) (ss : List Statement) (console : Console) :
    runAt limits ss console = runProgram limits ss console ∧
      ∀ e, (runProgram limits ss console).result = .error (.error e) →
        e.position = none ∨ PlaceIn ss e.position := by
  have htree : (placing (PlaceIn ss) none).Tree (.block ss) := fun s hs => ⟨s, hs, rfl⟩
  have hends : (placing (PlaceIn ss) none).Ends (placing (PlaceIn ss) none).Fits
      (program limits ss { console })
      (programWith (evaluateAt limits.rounds limits.depth none) ss { console }) :=
    (placing.all_evaluate limits.rounds limits.depth none).programWith htree _ _ ⟨.empty, rfl⟩
  unfold runAt runProgram runOn
  generalize program limits ss { console } = r,
    programWith (evaluateAt limits.rounds limits.depth none) ss { console } = r' at hends ⊢
  cases hends with
  | ok _ hm =>
    rw [placing.machine_eq hm]
    exact ⟨rfl, fun e he => nomatch he⟩
  | @error f f' _ _ hf hm =>
    rw [placing.machine_eq hm, ← f'.placedAt_none, hf.1, f.placedAt_none]
    refine ⟨rfl, fun e he => ?_⟩
    obtain rfl := Except.error.inj he
    exact hf.2

/-! ## Errors without a place -/

variable {ss : List Statement} {e : EvalError} {m m' : Machine} {α : Type}

/-- What a program fails with its block has failed with: what is returned at the top level is a
value already. -/
theorem firstEvaluation_error (hss : TidyBlock ss) {limits : Limits} {console : Console}
    (h : program limits ss { console } = .error (.error e) m) :
    (firstEvaluation ss console).result (evaluate limits.rounds limits.depth) =
      .error (.error e) m := by
  have hcreate : create (·.newScope {} {} {}) { console } =
      .ok (firstEvaluation ss console).scope (firstEvaluation ss console).machine := rfl
  cases hr : (firstEvaluation ss console).result (evaluate limits.rounds limits.depth) with
  | error f m₁ =>
    have hprogram : program limits ss { console } = .error f m₁ :=
      (bind_of_ok hcreate).trans (bind_of_error (bind_of_error hr))
    obtain ⟨rfl, rfl⟩ := EStateM.Result.error.inj (hprogram.symm.trans h)
    rfl
  | ok y m₁ =>
    have hready := ready_firstEvaluation hss console
    obtain ⟨-, -, hmay⟩ := (agree_evaluate keptNone limits.rounds limits.depth hready).of_ok hr
    have hread : valueOf (evaluate limits.rounds limits.depth) (.block ss)
        (firstEvaluation ss console).scope (firstEvaluation ss console).machine =
          .ok (y.now m₁.store) m₁ := by
      refine (bind_of_ok hr).trans ?_
      cases y <;> rfl
    have hok : ∃ w, program limits ss { console } = .ok w m₁ := by
      obtain ⟨depth, rounds⟩ := limits
      cases depth with
      | zero => exact nomatch hr
      | succ depth =>
        cases hnow : y.now m₁.store with
        | ret e' =>
          rw [hnow] at hread hmay
          rcases hmay with heq | ⟨-, w, rfl, -⟩
          · exact nomatch heq
          · exact ⟨w, (bind_of_ok hcreate).trans (bind_of_ok hread)⟩
        | _ =>
          rw [hnow] at hread
          exact ⟨_, (bind_of_ok hcreate).trans (bind_of_ok hread)⟩
    obtain ⟨w, hw⟩ := hok
    exact nomatch hw.symm.trans h

theorem position_ne_none_of_placed {x : Eval α} {p : Option Position} (hp : p ≠ none)
    (h : placed p x m = .error (.error e) m') : e.position ≠ none := by
  cases hx : x m with
  | ok a m₁ => exact nomatch (placed_of_ok p hx).symm.trans h
  | error f m₁ =>
    rw [placed_eq_error p hx] at h
    obtain ⟨hf, -⟩ := EStateM.Result.error.inj h
    obtain ⟨q, rfl⟩ := Option.ne_none_iff_exists'.mp hp
    cases f with
    | error err =>
      obtain rfl := Failure.error.inj hf
      obtain ⟨cause, _ | r⟩ := err <;> exact Option.some_ne_none _
    | _ => exact nomatch hf

/-- Statements that have places place all errors. -/
theorem position_ne_none_of_statements {ev : Evaluator} {outer inner : Scope}
    (hss : ∀ s ∈ ss, s.position ≠ none) {last : Yield}
    (h : statements ev outer inner last ss m = .error (.error e) m') : e.position ≠ none := by
  induction ss generalizing last m with
  | nil => exact nomatch h
  | cons s ss ih =>
    obtain ⟨p, n⟩ := s
    obtain ⟨hp, hss⟩ := List.forall_mem_cons.mp hss
    cases hs : placed p (statement ev outer inner n) m with
    | error f m₁ =>
      have hf : f = .error e := (EStateM.Result.error.inj ((bind_of_error hs).symm.trans h)).1
      exact position_ne_none_of_placed hp (hf ▸ hs)
    | ok y m₁ =>
      have hread : read y m₁ = .ok (y.now m₁.store) m₁ := by cases y <;> rfl
      have hrest := (bind_of_ok hs).symm.trans h
      rw [bind_of_ok hread] at hrest
      split at hrest
      · exact ih hss hrest
      · exact nomatch hrest

namespace Store

theorem find?_putClass_self {s : Store} {r : ClassesRef} (hr : r.id < s.classes.size) (x : String)
    (c : Class) : ((s.putClass r x c).classesOf r).find? x = some c := by
  simp only [classesOf, putClass, getD_modify, true_and]
  rw [if_pos hr, Table.find?_insert, if_pos rfl]

end Store

/-- Of classes with the same name, or with a name that is taken, one is refused. Nothing is printed
or read by then, and the error has no place. -/
theorem declareClasses_error {C : List ClassDecl} (siblings : List ClassDecl) {scope : Scope}
    (hscope : scope.classes.id < m.store.classes.size) (h : ¬ (C.map (·.name)).Nodup ∨
      ∃ d ∈ C, ((m.store.classesOf scope.classes).find? d.name).isSome = true) :
    ∃ x m', m'.console = m.console ∧
      C.forM (declareClass siblings scope) m = .error (.error { cause := .classExists x }) m' := by
  induction C generalizing m with
  | nil =>
    rcases h with h | ⟨d, hd, -⟩
    · exact absurd List.nodup_nil h
    · exact absurd hd List.not_mem_nil
  | cons d C ih =>
    by_cases hd : ((m.store.classesOf scope.classes).find? d.name).isSome = true
    · have hrefused := (declareClass_eq siblings scope d m).trans (if_pos hd)
      exact ⟨d.name, m, rfl, bind_of_error hrefused⟩
    · have hdeclared := (declareClass_eq siblings scope d m).trans (if_neg hd)
      let next := m.store.putClass scope.classes d.name ⟨d, siblings⟩
      have htaken : ∀ d' : ClassDecl, d'.name = d.name →
          ((next.classesOf scope.classes).find? d'.name).isSome = true := by
        intro d' hname
        rw [hname, Store.find?_putClass_self hscope]
        rfl
      have hnext : ¬ (C.map (·.name)).Nodup ∨
          ∃ d' ∈ C, ((next.classesOf scope.classes).find? d'.name).isSome = true := by
        rcases h with hdup | ⟨d', hd', hfound⟩
        · rw [List.map_cons, List.nodup_cons, not_and_or, not_not] at hdup
          refine hdup.symm.imp_right fun hmem => ?_
          obtain ⟨d', hd', hname⟩ := List.mem_map.mp hmem
          exact ⟨d', hd', htaken d' hname⟩
        · rcases List.mem_cons.mp hd' with rfl | hd'
          · exact absurd hfound hd
          · refine .inr ⟨d', hd', ?_⟩
            by_cases hname : d'.name = d.name
            · exact htaken d' hname
            · rwa [Store.find?_putClass_of_ne hname]
      have hsize : scope.classes.id < next.classes.size :=
        Nat.lt_of_lt_of_eq hscope (Array.size_modify ..).symm
      obtain ⟨x, m', hconsole, herror⟩ := ih (m := { m with store := next }) hsize hnext
      exact ⟨x, m', hconsole, (bind_of_ok hdeclared).trans herror⟩

/-! ## Where errors are -/

section Program

variable {ss : List Statement} {limits : Limits} {console : Console} {e : EvalError}

section

variable (hss : TidyBlock ss) (he : (runProgram limits ss console).result = .error (.error e))
include hss he

/-- A program that fails with an error does so in the body of its block, which starts with no
classes declared. -/
theorem body_of_runProgram :
    ∃ depth outer inner m, m.console = console ∧ inner.classes.id < m.store.classes.size ∧
      (∀ x, (m.store.classesOf inner.classes).find? x = none) ∧
      body (evaluate limits.rounds depth) outer inner ss m =
        .error (.error e) (runProgram limits ss console).machine := by
  unfold runProgram runOn at he ⊢
  cases hprogram : program limits ss { console } with
  | ok v m => rw [hprogram] at he; exact nomatch he
  | error f m =>
    rw [hprogram] at he
    obtain rfl : f = .error e := Except.error.inj he
    have hblock := firstEvaluation_error hss hprogram
    obtain ⟨depth, rounds⟩ := limits
    cases depth with
    | zero => exact nomatch hblock
    | succ depth => exact ⟨depth, _, _, _, rfl, Nat.lt_succ_self 1, fun x => rfl, hblock⟩

/-- A program whose classes have different names places all errors. -/
theorem position_ne_none (hplaced : ∀ s ∈ ss, s.position ≠ none)
    (hnodup : ((leadingClasses ss).1.map (·.name)).Nodup) : e.position ≠ none := by
  obtain ⟨depth, outer, inner, m, -, -, hnew, hbody⟩ := body_of_runProgram hss he
  have hdeclared := declareClasses_eq hnodup (leadingClasses ss).1 inner fun d _ => hnew d.name
  refine position_ne_none_of_statements (fun s hs => ?_) ((bind_of_ok hdeclared).symm.trans hbody)
  exact hplaced s ((mem_of_leadingClasses ss).2 s hs)

/-- A program with two classes of the same name fails before it does anything. -/
theorem position_eq_none (hdup : ¬ ((leadingClasses ss).1.map (·.name)).Nodup) :
    e.position = none ∧ (runProgram limits ss console).machine.console = console := by
  obtain ⟨depth, outer, inner, m, hm, hsize, -, hbody⟩ := body_of_runProgram hss he
  obtain ⟨x, m', hconsole, herror⟩ := declareClasses_error (leadingClasses ss).1 hsize (.inl hdup)
  obtain ⟨hfailure, hmachine⟩ := EStateM.Result.error.inj ((bind_of_error herror).symm.trans hbody)
  rw [← hmachine, ← Failure.error.inj hfailure, hconsole]
  exact ⟨rfl, hm⟩

end

end Program

theorem parseBlock_of_parseProgram {loader : Option Loader} {source : String} {header : Header}
    (hheader : Header.ofSource source = .ok header) (himports : header.imports = [])
    (hparse : Parser.parseProgram loader source = .ok ss) :
    ∃ k, Parser.parseBlock header.body 0 = .ok (ss, k) := by
  rw [Parser.parseProgram, hheader] at hparse
  obtain ⟨⟨us, k⟩, hblock, rfl⟩ := Except.exists_of_map_eq_ok hparse
  obtain ⟨⟨vs, k'⟩, hvs, hrest⟩ := Except.exists_of_bind_eq_ok hblock
  rw [himports] at hrest
  obtain ⟨rfl, rfl⟩ := Prod.mk.inj (Except.ok.inj hrest)
  exact ⟨k', hvs⟩

/-- **Errors are placed at the innermost statement.** A program without imports runs in the same way
if each error gets the place of the innermost statement that is being executed when it is raised. So
if it fails with an error and the classes that it declares at its start have different names, the
place of the error is that of a statement of the program, which is the place of a token. If two of
these classes have the same name, the error has no place, and nothing was printed or read. -/
theorem errors_placed {loader : Option Loader} {source : String} {header : Header}
    {ss : List Statement} (hheader : Header.ofSource source = .ok header)
    (himports : header.imports = []) (hparse : Parser.parseProgram loader source = .ok ss)
    (limits : Limits) (console : Console) :
    runAt limits ss console = runProgram limits ss console ∧
      ∀ e, (runProgram limits ss console).result = .error (.error e) →
        (((leadingClasses ss).1.map (·.name)).Nodup → ∃ s : Statement, ∃ t ∈ header.body,
          s.StandsIn (.block ss) ∧ s.position = some t.position ∧ e.position = some t.position) ∧
        (¬ ((leadingClasses ss).1.map (·.name)).Nodup →
          e.position = none ∧ (runProgram limits ss console).machine.console = console) := by
  have hss : TidyBlock ss := Parser.tidyBlock_parseProgram hparse
  obtain ⟨k, hblock⟩ := parseBlock_of_parseProgram hheader himports hparse
  have hplaced := (Parser.answers_parseBlock header.body).ensures _ _ _ hblock
  obtain ⟨hrun, hplace⟩ := runAt_eq limits ss console
  refine ⟨hrun, fun e he => ⟨fun hnodup => ?_, position_eq_none hss he⟩⟩
  have hsome : e.position ≠ none := by
    refine position_ne_none hss he (fun s hs => ?_) hnodup
    obtain ⟨t, -, ht⟩ := (Node.placedIn_block.mp hplaced s hs).1
    exact ht ▸ Option.some_ne_none _
  obtain ⟨s, hs, hsp⟩ := (hplace e he).resolve_left hsome
  obtain ⟨t, ht, htp⟩ := hplaced s hs
  exact ⟨s, t, ht, hs, htp, hsp ▸ htp⟩

/-- The line of the error that a run ends with. -/
def Outcome.errorLine {α : Type} (o : Outcome α) : Option Int :=
  match o.result with
  | .ok _ => none
  | .error f => f.position.bind (·.startLine)

theorem Outcome.error_of_errorLine {o : Outcome α} {line : Int} (h : o.errorLine = some line) :
    ∃ e p, o.result = .error (.error e) ∧ e.position = some p ∧ p.startLine = some line := by
  obtain ⟨_ | v, m⟩ := o
  · rename_i f
    cases f with
    | error e =>
      obtain ⟨p, hp, hline⟩ := Option.bind_eq_some_iff.mp h
      exact ⟨e, p, rfl, hp, hline⟩
    | _ => exact nomatch h
  · exact nomatch h

/-- A function creates an object, whose class raises an error in an inner block. -/
def failingInside : String :=
  "class C(x)\x7bif(x)\x7b\nerror(\"no\");\x7d\x7dfun f()\x7breturn new C(true);\x7dz=f();"

/-- The error is raised on the second line, and comes out of statements that stand on the first
and on the second one. -/
theorem errors_placed_nested :
    ∃ ss e, Parser.parseProgram none failingInside = .ok ss ∧
      (runAt ⟨20, 9⟩ ss default).result = .error (.error e) ∧
      ∃ s : Statement, ∃ p, s.StandsIn (.block ss) ∧ s.position = some p ∧ e.position = some p ∧
        p.startLine = some 2 := by
  obtain ⟨header, hheader, himports⟩ := Parser.exists_of_any
    (x := Header.ofSource failingInside) (·.imports.isEmpty) (by decide +kernel)
  obtain ⟨ss, hparse, htest⟩ := Parser.exists_parseProgram failingInside
    (fun ss => decide ((leadingClasses ss).1.map ClassDecl.name).Nodup &&
      (runProgram ⟨20, 9⟩ ss default).errorLine == some 2) (by decide +kernel)
  rw [Bool.and_eq_true, decide_eq_true_eq, beq_iff_eq] at htest
  obtain ⟨e, p, he, hp, hline⟩ := Outcome.error_of_errorLine htest.2
  obtain ⟨hrun, hplaced⟩ :=
    errors_placed hheader (List.isEmpty_iff.mp himports) hparse ⟨20, 9⟩ default
  obtain ⟨s, t, -, hs, hsp, hep⟩ := (hplaced e he).1 htest.1
  obtain rfl := Option.some.inj (hp.symm.trans hep)
  exact ⟨ss, e, hparse, hrun ▸ he, s, _, hs, hsp, hep, hline⟩

end BoxScript
