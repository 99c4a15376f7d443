import BoxScript.Proofs.Eval.Overwriting
import BoxScript.Proofs.Eval.Trace
import BoxScript.Proofs.Parser.Program
import Mathlib

/-!
# The receiver of a method call

A method is looked up in the object that the target comes to, before the arguments are evaluated. The
object that gets the arguments as fields, and whose tables the body runs in, is read again behind
them. Both are the same, unless the target is a box that an argument overwrites.

Result: **`receiver_read_again`**, for the method calls of parsed programs. A program whose argument
assigns an object of another class to the target shows that the two may differ
(`redirected_receiver`).
-/

namespace BoxScript

open Eval

/-! ## Arguments one after the other -/

section Arguments

variable {ev : Evaluator} {scope : Scope} {m m' : Machine} {a : Node} {args : List Node}

/-- What holds along the evaluation of each argument holds along all of them. -/
theorem mapM_copyOf_run {K : Machine → Machine → Prop} (hrefl : ∀ m, K m m)
    (htrans : ∀ {a b c}, K a b → K b c → K a c) {values : List Value}
    (h : args.mapM (copyOf ev · scope) m = .ok values m')
    (hparts : ∀ d : Evaluation, d.node ∈ args → d.scope = scope →
      Matters ev (fun ev => args.mapM (copyOf ev · scope)) m d → K d.machine (d.left ev)) :
    K m m' := by
  induction args generalizing m values with
  | nil =>
    obtain ⟨-, rfl⟩ := EStateM.Result.ok.inj h
    exact hrefl m
  | cons a args ih =>
    simp only [List.mapM_cons] at h hparts
    have hF : ∀ ev', (copyOf ev' a scope >>= fun v => do
        return v :: (← args.mapM (copyOf ev' · scope))) m =
        resume ((⟨a, scope, m⟩ : Evaluation).result ev') id fun y =>
          (read y >>= fun v => ofExcept v.copy) >>= fun v => do
            return v :: (← args.mapM (copyOf ev' · scope)) :=
      fun ev' => bind_of_resume (copyOf_eq_resume ev' a scope m)
    have hfirst := hparts ⟨a, scope, m⟩ List.mem_cons_self rfl (.first hF fun _ _ => rfl)
    rw [hF ev] at h
    cases hr : (⟨a, scope, m⟩ : Evaluation).result ev with
    | error f m₁ =>
      rw [hr] at h
      cases h
    | ok y m₁ =>
      rw [hr, resume] at h
      rw [Evaluation.left, machine_of_ok hr] at hfirst
      refine htrans hfirst ?_
      cases hcopy : (y.now m₁.store).copy with
      | error cause =>
        rw [bind_of_error (read_copy_of_error hcopy)] at h
        cases h
      | ok v =>
        rw [bind_of_ok (read_copy_of_ok hcopy)] at h
        cases hrest : args.mapM (copyOf ev · scope) m₁ with
        | error f m₂ => cases (bind_of_error hrest).symm.trans h
        | ok vs m₂ =>
          rw [bind_of_ok hrest] at h
          obtain ⟨-, rfl⟩ := EStateM.Result.ok.inj h
          refine ih hrest fun d hd hscope hm => hparts d (List.mem_cons_of_mem _ hd) hscope ?_
          refine .later hF (fun _ _ => rfl) hr fun f m₃ hf => ?_
          exact (bind_of_ok (read_copy_of_ok hcopy)).trans (bind_of_error (hm f m₃ hf))

end Arguments

/-! ## Method calls -/

/-- Binds the arguments to the parameters as fields of the object, and runs the body of the method in
its tables. What the method returns is evaluated in the scope of the call. -/
def runMethod (ev : Evaluator) (o : Instance) (f : Function) (values : List Value) (scope : Scope) :
    Eval Yield := do
  (f.params.zip values).forM fun (param, v) => bindNew o.vars param v
  callResult ev (← ev (.block f.body) o.scope) scope

section Call

variable {ev : Evaluator} {scope : Scope} {m m₁ : Machine} {target : Node} {name : String}
  {args : List Node} {y : Yield} {o : Instance} {f : Function}

/-- A method call behind its target. -/
theorem methodCall_eq (htarget : ev target scope m = .ok y m₁) (ho : y.now m₁.store = .object o)
    (hf : (m₁.store.funsOf o.funs).find? name = some f) (harity : f.params.length = args.length) :
    methodCall ev target name args scope m =
      (args.mapM (copyOf ev · scope) >>= fun values => read y >>= fun v =>
        objectIn .method v >>= fun o => runMethod ev o f values scope) m₁ := by
  rw [methodCall, bind_of_ok htarget, read_bind_eq, ho]
  simp only [objectIn, pure_bind, query_bind_eq, hf, checkArity, if_pos harity]
  rfl

end Call

section Receiver

variable {limit depth : Nat} {c d : Evaluation} {target : Node} {name : String} {args : List Node}
  {ev : Evaluator} {m₁ : Machine} {y : Yield} {o : Instance} {f : Function}

/-- A method call makes the evaluation of its target. -/
theorem makes_target (hn : c.node = .methodCall target name args) :
    Makes limit ev c ⟨target, c.scope, c.machine⟩ := by
  refine Matters.makes fun g m' hg => ?_
  rw [hn]
  exact bind_of_error (result_stopped ev ⟨target, c.scope, c.machine⟩ g m')

/-- What matters to the arguments of a method call is made by the call. -/
theorem makes_argument (hn : c.node = .methodCall target name args)
    (htarget : (⟨target, c.scope, c.machine⟩ : Evaluation).result ev = .ok y m₁)
    (ho : y.now m₁.store = .object o) (hf : (m₁.store.funsOf o.funs).find? name = some f)
    (harity : f.params.length = args.length)
    (hd : Matters ev (fun ev => args.mapM (copyOf ev · c.scope)) m₁ d) : Makes limit ev c d := by
  by_cases heq : ⟨target, c.scope, c.machine⟩ = d
  · exact heq ▸ makes_target hn
  · refine Matters.makes fun g m' hg => ?_
    rw [hn]
    have htarget' := (result_stopped_of_ne ev heq g m').trans htarget
    exact (methodCall_eq htarget' ho hf harity).trans (bind_of_error (hd g m' hg))

/-- One of the arguments of the call overwrites the box. -/
def ArgumentOverwrites (limit depth : Nat) (c : Evaluation) (b : BoxRef) : Prop :=
  ∃ d : Evaluation, d.node ∈ c.node.arguments ∧ d.scope = c.scope ∧
    Makes limit (evaluate limit depth) c d ∧ Overwritten limit depth d b

/-- Behind the arguments the target has the variant that it had before, and is the same value unless
an argument overwrites it. -/
theorem Evaluation.Fair.target_behind_arguments (hc : c.Fair)
    (hn : c.node = .methodCall target name args)
    (htarget : (⟨target, c.scope, c.machine⟩ : Evaluation).result (evaluate limit depth) =
      .ok y m₁)
    (ho : y.now m₁.store = .object o) (hf : (m₁.store.funsOf o.funs).find? name = some f)
    (harity : f.params.length = args.length) {values : List Value} {m₂ : Machine}
    (hargs : args.mapM (copyOf (evaluate limit depth) · c.scope) m₁ = .ok values m₂) :
    (y.now m₂.store).variant = (y.now m₁.store).variant ∧
      (y.now m₂.store = y.now m₁.store ∨ ∃ b, y = .box b ∧ ArgumentOverwrites limit depth c b) := by
  have hmakes : Makes limit (evaluate limit depth) c ⟨target, c.scope, c.machine⟩ :=
    makes_target hn
  have hfirst := (hc.part hmakes).1
  obtain ⟨hevolves, hheld, -⟩ := (agree_evaluate keptNone limit depth hfirst.ready).of_ok htarget
  have hlater : ∀ m : Machine, m₁.store.Evolves keptNone m.store → y.Held keptNone m.store :=
    fun _ hm => hheld.mono hm
  have hrun := mapM_copyOf_run (K := fun m m' => m₁.store.Evolves keptNone m.store →
      m₁.store.Evolves keptNone m'.store ∧
        (y.now m'.store = y.now m.store ∨ ∃ b, y = .box b ∧ ArgumentOverwrites limit depth c b))
    (fun m hm => ⟨hm, .inl rfl⟩)
    (fun h₁ h₂ hm => by
      obtain ⟨hm₁, h₁⟩ := h₁ hm
      obtain ⟨hm₂, h₂⟩ := h₂ hm₁
      exact ⟨hm₂, h₂.elim (fun heq => h₁.imp_left heq.trans) .inr⟩)
    hargs fun d hd hscope hmatters hm => by
      have hmakes : Makes limit (evaluate limit depth) c d :=
        makes_argument hn htarget ho hf harity hmatters
      have hdfair := (hc.part hmakes).1
      refine ⟨hm.trans (agree_evaluate keptNone limit depth hdfair.ready).evolves, ?_⟩
      cases y with
      | value v => exact .inl rfl
      | box b =>
        refine (hdfair.read_eq_or_overwritten (hlater d.machine hm) limit depth).imp_right
          fun hwritten => ⟨b, rfl, d, ?_, hscope, hmakes, hwritten⟩
        rw [hn]
        exact hd
  obtain ⟨hm₂, hsame⟩ := hrun (.refl hevolves.sound)
  exact ⟨hheld.variant_eq hm₂, hsame⟩

/-- **A method runs in the object that its target is behind the arguments.** While a parsed program
runs, let the target of a method call come to the object `o`, in which the method is found, and let
the arguments come to values. Then the target is still an object. Its fields get the values of the
arguments, and the body runs in its tables. It is the object `o`, unless the target is a box that an
argument overwrites. -/
theorem receiver_read_again {loader : Option Loader} {source : String} {ss : List Statement}
    (hparse : Parser.parseProgram loader source = .ok ss) {limits : Limits} {console : Console}
    (hc : InRun limits ss console (depth + 1) c) (hn : c.node = .methodCall target name args)
    (htarget : (⟨target, c.scope, c.machine⟩ : Evaluation).result
      (evaluate limits.rounds depth) = .ok y m₁)
    (ho : y.now m₁.store = .object o) (hf : (m₁.store.funsOf o.funs).find? name = some f)
    (harity : f.params.length = args.length) {values : List Value} {m₂ : Machine}
    (hargs : args.mapM (copyOf (evaluate limits.rounds depth) · c.scope) m₁ = .ok values m₂) :
    ∃ o', y.now m₂.store = .object o' ∧
      c.result (evaluate limits.rounds (depth + 1)) =
        runMethod (evaluate limits.rounds depth) o' f values c.scope m₂ ∧
      (o' = o ∨ ∃ b, y = .box b ∧ ArgumentOverwrites limits.rounds depth c b) := by
  have hfair := hc.fair (Parser.tidyBlock_parseProgram hparse)
  obtain ⟨hvariant, hsame⟩ := hfair.target_behind_arguments hn htarget ho hf harity hargs
  obtain ⟨o', ho'⟩ : ∃ o', y.now m₂.store = .object o' := by
    rw [ho] at hvariant
    cases hv : y.now m₂.store with
    | object o' => exact ⟨o', rfl⟩
    | _ => exact nomatch hv ▸ hvariant
  refine ⟨o', ho', ?_, hsame.imp_left fun heq => ?_⟩
  · change step limits.rounds (evaluate limits.rounds depth) c.node c.scope c.machine = _
    rw [hn]
    refine (methodCall_eq htarget ho hf harity).trans ((bind_of_ok hargs).trans ?_)
    rw [read_bind_eq, ho']
    rfl
  · exact Value.object.inj (ho'.symm.trans (heq.trans ho))

end Receiver

/-! ## A target that is overwritten -/

/-- The only method of the class `A`. -/
def methodOfA (q : Option Position) : Function where
  params := ["p"]
  body := [.mk q (.lookup "n")]

/-- The declarations of the classes `A` and `B`. -/
def classA (p q : Option Position) : ClassDecl where
  name := "A"
  params := ["n"]
  body := [.mk p (.functionDef "m" (methodOfA q).params (methodOfA q).body)]

def classB : ClassDecl where
  name := "B"
  params := ["n"]
  body := []

/-- The argument of the call assigns another object to the target. -/
def redirectingArgument (u v : Option Position) : Node :=
  .block [.mk u (.assign "o" (.new "B" [.literal (.string "b")])), .mk v (.literal (.boolean true))]

/-- Two classes, and an object of the first one. -/
def beforeCall (p q r s t : Option Position) : List Statement :=
  [.mk r (.classDef "A" (classA p q).params (classA p q).body),
   .mk s (.classDef "B" classB.params classB.body),
   .mk t (.assign "o" (.new "A" [.literal (.string "a")]))]

/-- The program with a method call behind that. -/
def redirecting (p q r s t u v w : Option Position) : List Statement :=
  beforeCall p q r s t ++ [.mk w (.methodCall (.lookup "o") "m" [redirectingArgument u v])]

/-- The objects of the program. -/
def objectOfA : Instance where
  className := "A"
  vars := ⟨2⟩
  funs := ⟨2⟩
  classes := ⟨2⟩

def objectOfB : Instance where
  className := "B"
  vars := ⟨4⟩
  funs := ⟨4⟩
  classes := ⟨4⟩

/-- The classes that are declared in the program. -/
def classesOfBoth (p q : Option Position) : Table Class :=
  siblingClasses { decl := classA p q, siblings := [classA p q, classB] }

/-- The method call of the program. -/
def redirectedCall (p q u v : Option Position) : Evaluation where
  node := .methodCall (.lookup "o") "m" [redirectingArgument u v]
  scope := ⟨⟨1⟩, ⟨1⟩, ⟨1⟩⟩
  machine :=
    { store :=
        { boxes := #[.string "a", .object objectOfA]
          vars := #[{}, ⟨[("o", ⟨1⟩)]⟩, ⟨[("n", ⟨0⟩)]⟩]
          funs := #[{}, {}, ⟨[("m", methodOfA q)]⟩]
          classes := #[{}, classesOfBoth p q, classesOfBoth p q] }
      console := default }

/-- The machine behind the argument. -/
def behindArgument (p q : Option Position) : Machine where
  store :=
    { boxes := #[.string "a", .object objectOfB, .string "b"]
      vars := #[{}, ⟨[("o", ⟨1⟩)]⟩, ⟨[("n", ⟨0⟩)]⟩, ⟨[("o", ⟨1⟩)]⟩, ⟨[("n", ⟨2⟩)]⟩]
      funs := #[{}, {}, ⟨[("m", methodOfA q)]⟩, {}, {}]
      classes := #[{}, classesOfBoth p q, classesOfBoth p q, classesOfBoth p q, classesOfBoth p q] }
  console := default

/-- The method call is evaluated in the run. -/
theorem inRun_redirectedCall {p q r s t u v w : Option Position}
    (hss : TidyBlock (redirecting p q r s t u v w)) :
    InRun ⟨9, 9⟩ (redirecting p q r s t u v w) default 8 (redirectedCall p q u v) := by
  have hfirst : InRun ⟨9, 9⟩ (redirecting p q r s t u v w) default 9 _ := .first
  have hbefore : block (evaluate 9 8) (beforeCall p q r s t) ⟨⟨0⟩, ⟨0⟩, ⟨0⟩⟩
      (firstEvaluation (redirecting p q r s t u v w) default).machine =
        .ok (.value .void) (redirectedCall p q u v).machine := by cbv
  exact .part hfirst ((hfirst.fair hss).makes_statement rfl (fun _ _ _ => Node.noConfusion) hbefore rfl)

theorem mapM_redirectedCall (p q u v : Option Position) :
    [redirectingArgument u v].mapM (copyOf (evaluate 9 7) · (redirectedCall p q u v).scope)
      (redirectedCall p q u v).machine = .ok [.boolean true] (behindArgument p q) := by
  cbv

/-- The program that overwrites the target of a method call. -/
def redirectingText : String :=
  "class A(n)\x7bfun m(p)\x7bn;\x7d\x7dclass B(n)\x7b\x7do=new A(\"a\");" ++
    "o.m(\x7bo=new B(\"b\");true;\x7d);"

theorem parse_redirectingText : ∃ p q r s t u v w,
    Parser.parseProgram none redirectingText = .ok (redirecting p q r s t u v w) :=
  ⟨_, _, _, _, _, _, _, _, rfl⟩

/-- The receiver of a method call whose argument overwrites the target. -/
theorem receiver_read_again_redirected :
    ∃ p q r s t u v w, Parser.parseProgram none redirectingText =
        .ok (redirecting p q r s t u v w) ∧
      InRun ⟨9, 9⟩ (redirecting p q r s t u v w) default 8 (redirectedCall p q u v) ∧
      (⟨.lookup "o", ⟨⟨1⟩, ⟨1⟩, ⟨1⟩⟩, (redirectedCall p q u v).machine⟩ : Evaluation).result
        (evaluate 9 7) = .ok (.box ⟨1⟩) (redirectedCall p q u v).machine ∧
      (redirectedCall p q u v).machine.store.read ⟨1⟩ = .object objectOfA ∧
      [redirectingArgument u v].mapM (copyOf (evaluate 9 7) · ⟨⟨1⟩, ⟨1⟩, ⟨1⟩⟩)
        (redirectedCall p q u v).machine = .ok [.boolean true] (behindArgument p q) ∧
      (redirectedCall p q u v).result (evaluate 9 8) =
        runMethod (evaluate 9 7) objectOfB (methodOfA q) [.boolean true] ⟨⟨1⟩, ⟨1⟩, ⟨1⟩⟩
          (behindArgument p q) ∧
      ArgumentOverwrites 9 7 (redirectedCall p q u v) ⟨1⟩ := by
  obtain ⟨p, q, r, s, t, u, v, w, hparse⟩ := parse_redirectingText
  have hc := inRun_redirectedCall (Parser.tidyBlock_parseProgram hparse)
  have hargs := mapM_redirectedCall p q u v
  obtain ⟨o', ho', hresult, hsame⟩ := receiver_read_again hparse hc (y := .box ⟨1⟩) rfl rfl
    (o := objectOfA) rfl (f := methodOfA q) rfl rfl hargs
  obtain rfl : objectOfB = o' := Value.object.inj ho'
  refine ⟨p, q, r, s, t, u, v, w, hparse, hc, rfl, rfl, hargs, hresult, ?_⟩
  rcases hsame with hsame | ⟨b, hb, hwritten⟩
  · exact absurd hsame (by decide)
  · exact Yield.box.inj hb ▸ hwritten

/-- **A method may run in another object than the one that it was found in.** In the program the
method is found in an object of the class `A`, and the argument then assigns an object of the class
`B` to the variable. The body runs in the tables of the latter: it yields the field `"b"`, where the
same method yields the field `"a"` in the object that it was found in. -/
theorem redirected_receiver :
    ∃ ss c y m₁ o f values m₂ o', Parser.parseProgram none redirectingText = .ok ss ∧
      InRun ⟨9, 9⟩ ss default 8 c ∧
      (∃ target args, c.node = .methodCall target "m" args ∧
        (⟨target, c.scope, c.machine⟩ : Evaluation).result (evaluate 9 7) = .ok y m₁ ∧
        y.now m₁.store = .object o ∧ (m₁.store.funsOf o.funs).find? "m" = some f ∧
        args.mapM (copyOf (evaluate 9 7) · c.scope) m₁ = .ok values m₂) ∧
      o'.className ≠ o.className ∧ y.now m₂.store = .object o' ∧
      (∃ z m₃, c.result (evaluate 9 8) = .ok z m₃ ∧ z.now m₃.store = .string "b") ∧
      (∃ z m₃, runMethod (evaluate 9 7) o f values c.scope m₂ = .ok z m₃ ∧
        z.now m₃.store = .string "a") := by
  obtain ⟨p, q, r, s, t, u, v, w, hparse⟩ := parse_redirectingText
  exact ⟨_, redirectedCall p q u v, .box ⟨1⟩, (redirectedCall p q u v).machine, objectOfA,
    methodOfA q, [.boolean true], behindArgument p q, objectOfB, hparse,
    inRun_redirectedCall (Parser.tidyBlock_parseProgram hparse),
    ⟨_, _, rfl, rfl, rfl, rfl, mapM_redirectedCall p q u v⟩, by decide, rfl,
    ⟨_, _, by cbv, by cbv⟩, ⟨_, _, by cbv, by cbv⟩⟩

end BoxScript
