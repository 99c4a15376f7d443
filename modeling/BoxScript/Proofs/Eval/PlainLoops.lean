import BoxScript.Proofs.Eval.Paired
import BoxScript.Proofs.Eval.Trace
import BoxScript.Proofs.Parser.Program
import Mathlib

/-!
# Loops without copies

A loop copies its scope for each round, from the copy of the round before. Apart from these copies it
does the same as a plain loop, whose rounds all run in one scope. Both runs are compared with a
pairing of tables that is extended by each copy (`Pairing.copied`). The copy corresponds to the one
scope of the plain loop. In a `while` loop nothing is bound in that scope, so the older copies
correspond to it too, and so does the scope around the loop, in which the condition is evaluated. In a
`for` loop the increment may bind names, in the newest copy only, and the older copies are given up.

A `while` loop needs that no object has the variables around the loop as its fields. Otherwise the
body could bind a name there, which the copies do not show.

Results:
* `Pairing.Stage.copied`, `Pairing.Stage.rounds`: what a copy keeps, and hence a whole loop;
* **`loops_plain`**: in a parsed program that declares in blocks only, loops do the same as plain
  loops. A method that returns a loop shows that a `while` loop may do something else otherwise
  (`returned_while`).
-/

namespace BoxScript

open Eval

namespace Pairing

/-! ## Pairings of copies -/

/-- The tables of the store correspond to themselves. Those of an object are not `t`. -/
def self (s : Store) (t : VarsRef) : Pairing where
  vars := .self s.vars.size
  funs := .self s.funs.size
  classes := .self s.classes.size
  objects i j := (i < s.vars.size ∧ j = i) ∧ i ≠ t.id
  free_of_objects h := h.1

/-- The first store gets a copy of a scope that corresponds to the scope `T` of the second one. -/
def copied (W : Pairing) (s s' : Store) (T : Scope) (keep : Prop) : Pairing where
  vars := W.vars.copied s.vars.size s'.vars.size T.vars.id keep
  funs := W.funs.copied s.funs.size s'.funs.size T.funs.id True
  classes := W.classes.copied s.classes.size s'.classes.size T.classes.id True
  objects i j := W.Fields i j ∧ i < s.vars.size ∧ j < s'.vars.size ∧ j ≠ T.vars.id
  free_of_objects h := .inl ⟨h.1.free, h.2⟩

/-- The tables of the store correspond to themselves. -/
structure Fixes (W : Pairing) (s : Store) : Prop where
  vars : ∀ i, i < s.vars.size → W.vars.Same i i
  funs : ∀ i, i < s.funs.size → W.funs.Same i i
  classes : ∀ i, i < s.classes.size → W.classes.Same i i

variable {W : Pairing} {s s' : Store} {T scope : Scope}

theorem Fixes.scopes (h : W.Fixes s) (hscope : scope.Within s) : W.Scopes scope scope :=
  ⟨h.vars _ hscope.vars_lt, h.funs _ hscope.funs_lt, h.classes _ hscope.classes_lt⟩

/-- Scopes that correspond are there in both stores. -/
theorem Stores.within (h : W.Stores s s') (hscopes : W.Scopes scope T) (hscope : scope.Within s) :
    T.Within s' where
  vars_lt := (hscopes.vars.lt_iff h.vars.new).mp hscope.vars_lt
  funs_lt := (hscopes.funs.lt_iff h.funs.new).mp hscope.funs_lt
  classes_lt := (hscopes.classes.lt_iff h.classes.new).mp hscope.classes_lt

theorem own_self (hT : T.Within s) (t : VarsRef) : (Pairing.self s t).Own T T :=
  ⟨.inl ⟨hT.vars_lt, rfl⟩, .inl ⟨hT.funs_lt, rfl⟩, .inl ⟨hT.classes_lt, rfl⟩⟩

theorem stores_self (hs : s.Sound keptNone) (hrooted : s.Rooted)
    (hobject : ∀ b o, s.read b = .object o → o.vars ≠ T.vars) :
    (Pairing.self s T.vars).Stores s s where
  size_eq := rfl
  boxes b := by
    have hsolid := hs.solid b
    have hwithin := hrooted.read b
    have hne := hobject b
    cases hv : s.read b with
    | object o =>
      rw [hv] at hwithin
      have ho := hwithin.object
      have hid : o.vars.id ≠ T.vars.id := fun heq => hne o hv (congrArg VarsRef.mk heq)
      exact .object ⟨rfl, .inl ⟨⟨ho.vars_lt, rfl⟩, hid⟩, .inl ⟨ho.funs_lt, rfl⟩,
        .inl ⟨ho.classes_lt, rfl⟩⟩
    | array r => exact .array r
    | ret e =>
      rw [hv] at hsolid
      exact hsolid.elim
    | _ => exact .plain trivial
  slots_eq := rfl
  vars := Pairs.tracks_self s.vars
  funs := Pairs.tracks_self s.funs
  classes := Pairs.tracks_self s.classes

/-- An object of the first store still corresponds to its counterpart. -/
theorem Object.copied {o o' : Instance} (h : W.Object o o') (hs : W.Stores s s')
    (ho : o.scope.Within s) (hclear : ∀ i, ¬ W.Fields i T.vars.id) (keep : Prop) :
    (W.copied s s' T keep).Object o o' where
  className_eq := h.className_eq
  vars := by
    refine .inl ⟨h.vars, ho.vars_lt, (hs.within h.scopes ho).vars_lt, fun heq => ?_⟩
    exact hclear o.vars.id (heq ▸ h.vars)
  funs := hs.funs.same_copied h.funs ho.funs_lt fun _ => trivial
  classes := hs.classes.same_copied h.classes ho.classes_lt fun _ => trivial

/-- A scope of the first store still corresponds to itself. -/
theorem Fixes.copied {before : Store} (h : W.Fixes before) (hs : W.Stores s s')
    (hsince : before.Widens s) {keep : Prop} (hkeep : keep ∨ before.vars.size ≤ T.vars.id) :
    (W.copied s s' T keep).Fixes before where
  vars i hi := by
    refine hs.vars.same_copied (h.vars i hi) (Nat.lt_of_lt_of_le hi hsince.vars_le) fun heq => ?_
    exact hkeep.resolve_right (Nat.not_le.mpr (heq ▸ hi))
  funs i hi :=
    hs.funs.same_copied (h.funs i hi) (Nat.lt_of_lt_of_le hi hsince.funs_le) fun _ => trivial
  classes i hi :=
    hs.classes.same_copied (h.classes i hi) (Nat.lt_of_lt_of_le hi hsince.classes_le) fun _ => trivial

theorem Stores.copied (h : W.Stores s s') (hscopes : W.Scopes scope T) (hrooted : s.Rooted)
    (hclear : ∀ i, ¬ W.Fields i T.vars.id) (keep : Prop) :
    (W.copied s s' T keep).Stores (s.copyScope scope).2 s' where
  size_eq := h.size_eq
  boxes b := by
    have hwithin := hrooted.read b
    have halike := h.boxes b
    change Value.Alike _ (s.read b) (s'.read b)
    generalize s.read b = v, s'.read b = v' at hwithin halike
    cases halike with
    | plain hv => exact .plain hv
    | array r => exact .array r
    | object ho => exact .object (ho.copied h hwithin.object hclear keep)
  slots_eq := h.slots_eq
  vars := h.vars.copied hscopes.vars keep
  funs := h.funs.copied hscopes.funs True
  classes := h.classes.copied hscopes.classes True

theorem Machines.copied {m m' : Machine} (h : W.Machines m m') (hscopes : W.Scopes scope T)
    (hrooted : m.store.Rooted) (hclear : ∀ i, ¬ W.Fields i T.vars.id) (keep : Prop) :
    (W.copied m.store m'.store T keep).Machines (m.copied scope) m' where
  store := h.store.copied hscopes hrooted hclear keep
  stocked := h.stocked.copyScope scope
  console_eq := h.console_eq

/-! ## Stages of a loop -/

/-- The machines between two rounds. The loop has come to `scope`, and the plain loop stands in `T`. -/
structure Stage (W : Pairing) (before : Store) (T scope : Scope) (m m' : Machine) : Prop where
  machines : W.Machines m m'
  scopes : W.Scopes scope T
  clear : ∀ i, ¬ W.Fields i T.vars.id
  fixes : W.Fixes before
  since : before.Widens m.store
  sound : m.store.Sound keptNone
  within : scope.Within m.store

/-- Both runs end in the same way. Their stores differ at most in tables that were not there before. -/
def EndAlike (before : Store) (r r' : EStateM.Result Failure Machine Yield) : Prop :=
  ∃ W : Pairing, W.Fixes before ∧ W.Ends W.Yields r r'

/-- Both runs have read and written the same. -/
theorem EndAlike.console_eq {before : Store} {r r' : EStateM.Result Failure Machine Yield} {y y' : Yield}
    {m m' : Machine} (h : EndAlike before r r') (hr : r = .ok y m) (hr' : r' = .ok y' m') :
    m'.console = m.console := by
  obtain ⟨W, -, hends⟩ := h
  subst hr hr'
  cases hends with
  | ok _ hm => exact hm.console_eq

namespace Stage

variable {before : Store} {m m' m₁ m₁' : Machine} {keep : Prop}

theorem fit (h : W.Stage before T scope m m') : m.Fit :=
  ⟨h.sound, h.since.rooted⟩

/-- Both runs start with the same machine. -/
theorem start (hm : m.Fit) (hsince : before.Widens m.store)
    (hstocked : m.store.Stocked Node.Orderly) (hT : T.Within m.store)
    (hobject : ∀ b o, m.store.read b = .object o → o.vars ≠ T.vars) :
    (Pairing.self m.store T.vars).Stage before T T m m where
  machines := ⟨stores_self hm.sound hm.rooted hobject, hstocked, rfl⟩
  scopes := (own_self hT T.vars).scopes
  clear i := by
    rintro (⟨⟨-, heq⟩, hne⟩ | ⟨-, hle, -⟩)
    · exact hne heq.symm
    · exact Nat.not_lt.mpr hle hT.vars_lt
  fixes :=
    { vars := fun _ hi => .inl ⟨Nat.lt_of_lt_of_le hi hsince.vars_le, rfl⟩
      funs := fun _ hi => .inl ⟨Nat.lt_of_lt_of_le hi hsince.funs_le, rfl⟩
      classes := fun _ hi => .inl ⟨Nat.lt_of_lt_of_le hi hsince.classes_le, rfl⟩ }
  since := hsince
  sound := hm.sound
  within := hT

/-- Both runs go on in the same way. -/
theorem next (h : W.Stage before T scope m m') (hmachines : W.Machines m₁ m₁')
    (hleads : m.store.Widens m₁.store ∧ m₁.Fit) : W.Stage before T scope m₁ m₁' :=
  { h with
    machines := hmachines
    since := h.since.trans hleads.1
    sound := hleads.2.sound
    within := h.within.mono hleads.1 }

/-- **A copy of the scope does not matter**, if the older copies are not needed any more or stay as
they are. -/
theorem copied (h : W.Stage before T scope m m') (hkeep : keep ∨ before.vars.size ≤ T.vars.id) :
    (W.copied m.store m'.store T keep).Stage before T (m.store.copyScope scope).1
      (m.copied scope) m' where
  machines := h.machines.copied h.scopes h.since.rooted h.clear keep
  scopes :=
    { vars := h.machines.store.vars.same_copy h.scopes.vars h.within.vars_lt keep
      funs := h.machines.store.funs.same_copy h.scopes.funs h.within.funs_lt True
      classes := h.machines.store.classes.same_copy h.scopes.classes h.within.classes_lt True }
  clear i := by
    have hT := h.machines.store.within h.scopes h.within
    rintro (⟨-, -, -, hne⟩ | ⟨-, hle, -⟩)
    · exact hne rfl
    · exact Nat.not_lt.mpr hle hT.vars_lt
  fixes := h.fixes.copied h.machines.store h.since hkeep
  since := h.since.trans (h.since.rooted.copied m scope)
  sound := (h.sound.copyScope scope).sound
  within := m.within_copied scope

/-- Names can be bound in the newest copy, unless the older ones are kept. -/
theorem free_copied (h : W.Stage before T scope m m') (hkeep : ¬ keep) :
    (W.copied m.store m'.store T keep).vars.Free (m.store.copyScope scope).1.vars.id T.vars.id :=
  .inl (.inr ⟨hkeep, rfl, rfl, (h.machines.store.within h.scopes h.within).vars_lt⟩)

/-- **Loops do the same if their rounds do.** -/
theorem rounds {round : Scope → Eval (Option Yield)} {plain : Eval (Option Yield)}
    (hkeep : keep ∨ before.vars.size ≤ T.vars.id)
    (hround : ∀ {W inner m m'}, Stage W before T inner m m' →
      (¬ keep → W.vars.Free inner.vars.id T.vars.id) →
      W.Ends (Option.Rel W.Yields) (round inner m) (plain m') ∧ Leads (round inner) m)
    (n : Nat) (h : W.Stage before T scope m m') :
    EndAlike before (Eval.rounds round n scope m) (plainRounds plain n m') := by
  induction n generalizing W scope m m' with
  | zero => exact ⟨W, h.fixes, .error _ h.machines⟩
  | succ n ih =>
    have hcopied := h.copied hkeep
    obtain ⟨hends, hleads⟩ := hround hcopied h.free_copied
    generalize hr : round _ (m.copied scope) = r, hr' : plain m' = r' at hends
    cases hends with
    | error f hm =>
      rw [rounds_of_error hr, plainRounds_of_error hr']
      exact ⟨_, hcopied.fixes, .error f hm⟩
    | ok hy hm =>
      cases hy with
      | some hy =>
        rw [rounds_of_some hr, plainRounds_of_some hr']
        exact ⟨_, hcopied.fixes, .ok hy hm⟩
      | none =>
        rw [rounds_of_none hr, plainRounds_of_none hr']
        exact ih (hcopied.next hm (hleads _ _ hr))

end Stage

end Pairing

/-! ## Loops -/

namespace Evaluation.Fair

variable {c : Evaluation} {init test increment : Node} {ss : List Statement}

/-- A `while` loop does the same as a plain one. -/
theorem endAlike_plainWhile (hc : c.Fair) (hall : c.All Node.Orderly)
    (hn : c.node = .whileLoop test ss)
    (hobject : ∀ b o, c.machine.store.read b = .object o → o.vars ≠ c.scope.vars)
    (limit depth : Nat) :
    Pairing.EndAlike c.machine.store (c.result (evaluate limit (depth + 1)))
      (plainWhile (evaluate limit depth) limit test ss c.scope c.machine) := by
  have hnode : (Node.whileLoop test ss).All Node.Orderly := hn ▸ hall.node
  have htest : test.Expression := hnode.expression List.mem_cons_self nofun
  have hss := hnode.body Node.blockwise_orderly fun _ hs => hs
  have hstart := Pairing.Stage.start ⟨hc.ready.sound, hc.rooted⟩ hc.rooted.refl hall.store hc.scope
    hobject
  -- nothing is bound around the loop, so every copy stays in a pair with it
  have hkeep : True ∨ c.machine.store.vars.size ≤ c.scope.vars.id := .inl trivial
  rw [result, hn]
  change Pairing.EndAlike _ (whileLoop (evaluate limit depth) limit test ss c.scope c.machine) _
  rw [whileLoop_apply]
  refine (hstart.copied hkeep).rounds hkeep (fun {W inner m m'} hstage _ => ⟨?_, ?_⟩) limit
  · have hscope := hstage.fixes.scopes hc.scope
    exact (Pairing.All.evaluate limit depth).whileRound hscope hstage.scopes htest hss m m'
      hstage.machines
  · exact .whileRound hstage.fit (hc.scope.mono hstage.since) hstage.within htest.tidy hss.tidyBlock

/-- A `for` loop does the same as a plain one. -/
theorem endAlike_plainFor (hc : c.Fair) (hall : c.All Node.Orderly) (hinit : init.All Node.Orderly)
    (htest : test.Expression) (hincrement : increment.All Node.Orderly)
    (hdecl : increment.isDeclaration = false) (hss : (Node.block ss).All Node.Orderly)
    (limit depth : Nat) :
    Pairing.EndAlike c.machine.store
      (forLoop (evaluate limit depth) limit init test increment ss c.scope c.machine)
      (plainFor (evaluate limit depth) limit init test increment ss c.scope c.machine) := by
  have hcopy := hc.rooted.copied c.machine c.scope
  have hfit : (c.machine.copied c.scope).Fit :=
    ⟨(hc.ready.sound.copyScope c.scope).sound, hcopy.rooted⟩
  have hown := c.machine.within_copied c.scope
  have hstart := Pairing.Stage.start hfit hcopy (hall.store.copyScope c.scope) hown fun _ _ =>
    hc.ready.sound.fresh_copied c.machine c.scope
  have hends := Pairing.All.evaluate limit depth init init _ _ (.same hinit) hstart.scopes
    ((Pairing.own_self hown _).allows init) _ _ hstart.machines
  have hleads : Leads (evaluate limit depth init _) (c.machine.copied c.scope) :=
    .evaluate hfit hown (Node.all_iff.mp hinit).1.tidy
  rw [forLoop_apply, plainFor_apply]
  generalize hr : evaluate limit depth init _ (c.machine.copied c.scope) = r at hends
  cases hends with
  | error f hm =>
    rw [bind_of_error hr, bind_of_error hr]
    exact ⟨_, hstart.fixes, .error f hm⟩
  | ok _ hm =>
    rw [bind_of_ok hr, bind_of_ok hr]
    -- the increment binds names in the newest copy
    have hkeep : False ∨ c.machine.store.vars.size ≤ (c.machine.store.copyScope c.scope).1.vars.id :=
      .inr (Nat.le_refl _)
    refine (hstart.next hm (hleads _ _ hr)).rounds hkeep (fun {W inner m m'} hstage hfree => ⟨?_, ?_⟩)
      limit
    · have hallows := Pairing.allows_of_isDeclaration_eq hdecl (hfree id)
      exact (Pairing.All.evaluate limit depth).forRound hstage.scopes htest hincrement hallows hss m m'
        hstage.machines
    · exact .forRound hstage.fit hstage.within htest.tidy (Node.all_iff.mp hincrement).1.tidy
        hss.tidyBlock

end Evaluation.Fair

/-- **The copies that a loop makes for its rounds cannot be observed**, but for one case. Let a program
be parsed and declare functions and classes in blocks only. Whatever loop is evaluated while it runs: a
`for` loop ends like the plain loop that runs in one copy of the scope, and a `while` loop ends like
the plain loop that runs in the scope itself, if no object has the variables of this scope as its
fields. That is, both end with the same value or failure, have read and written the same, and leave
the same boxes, slots and tables, but for tables that were not there before. -/
theorem loops_plain {loader : Option Loader} {source : String} {ss : List Statement}
    (hparse : Parser.parseProgram loader source = .ok ss)
    (hdeclares : (Node.block ss).All Node.DeclaresInBlocks) {limits : Limits} {console : Console}
    {depth : Nat} {c : Evaluation} (hc : InRun limits ss console (depth + 1) c) :
    (∀ test body, c.node = .whileLoop test body →
      (∀ b o, c.machine.store.read b = .object o → o.vars ≠ c.scope.vars) →
      Pairing.EndAlike c.machine.store (c.result (evaluate limits.rounds (depth + 1)))
        (plainWhile (evaluate limits.rounds depth) limits.rounds test body c.scope c.machine)) ∧
    (∀ init test increment body, c.node = .forLoop init test increment body →
      Pairing.EndAlike c.machine.store (c.result (evaluate limits.rounds (depth + 1)))
        (plainFor (evaluate limits.rounds depth) limits.rounds init test increment body c.scope
          c.machine)) ∧
    (∀ x count body, c.node = .countdown x count body →
      Pairing.EndAlike c.machine.store (c.result (evaluate limits.rounds (depth + 1)))
        (plainFor (evaluate limits.rounds depth) limits.rounds (.countdownInit x count)
          (.countdownCondition x) (.countdownIncrement x) body c.scope c.machine)) := by
  have htidy := Parser.tidyBlock_parseProgram hparse
  have hfair := hc.fair htidy
  have horderly := hc.orderly htidy hdeclares
  refine ⟨fun test body hn hobject => ?_, fun init test increment body hn => ?_,
    fun x count body hn => ?_⟩
  · have hall := horderly fun v hv => nomatch hn.symm.trans hv
    exact hfair.endAlike_plainWhile hall hn hobject limits.rounds depth
  · have hall := horderly fun v hv => nomatch hn.symm.trans hv
    have hnode : (Node.forLoop init test increment body).All Node.Orderly := hn ▸ hall.node
    obtain ⟨hincrement, hdecl⟩ := hnode.operand (.tail _ (.tail _ List.mem_cons_self))
    rw [Evaluation.result, hn]
    exact hfair.endAlike_plainFor hall (hnode.part List.mem_cons_self) hnode.forCondition hincrement
      hdecl (hnode.body Node.blockwise_orderly fun _ hs => hs) limits.rounds depth
  · have hall := horderly fun v hv => nomatch hn.symm.trans hv
    have hnode : (Node.countdown x count body).All Node.Orderly := hn ▸ hall.node
    rw [Evaluation.result, hn]
    exact hfair.endAlike_plainFor hall (hnode.part List.mem_cons_self) hnode.countdownCondition
      (hnode.part (.tail _ (.tail _ List.mem_cons_self))) rfl
      (hnode.body Node.blockwise_orderly fun _ hs => hs) limits.rounds depth

/-! ## Loops in methods -/

/-- The places of the statements of a program. -/
structure TypesPlaces where
  printAt : Option Position
  setAt : Option Position
  stepAt : Option Position
  loopAt : Option Position
  methodAt : Option Position
  classAt : Option Position
  objectAt : Option Position
  fieldAt : Option Position
  callAt : Option Position

/-- The loop `while(i!="11"){print(x.type);a.x="s";i=i+"1";}`. -/
def typesTest : Node :=
  .binary .ne (.lookup "i") (.literal (.string "11"))

def typesBody (ps : TypesPlaces) : List Statement :=
  [.mk ps.printAt (.print (.fieldGet (.lookup "x") "type")),
   .mk ps.setAt (.fieldSet (.lookup "a") "x" (.literal (.string "s"))),
   .mk ps.stepAt (.assign "i" (.binary .add (.lookup "i") (.literal (.string "1"))))]

def typesLoop (ps : TypesPlaces) : Node :=
  .whileLoop typesTest (typesBody ps)

section Types

variable (ps : TypesPlaces) (n : Node)

/-- A method with the statement `n`. -/
def typesMethod : Function where
  params := []
  body := [.mk ps.loopAt n]

def typesClass : ClassDecl where
  name := "A"
  params := ["x", "i"]
  body := [.mk ps.methodAt (.functionDef "m" [] (typesMethod ps n).body)]

/-- A class with the method, and an object that is in a field of its own. -/
def typesBefore : List Statement :=
  [.mk ps.classAt (.classDef "A" (typesClass ps n).params (typesClass ps n).body),
   .mk ps.objectAt (.assign "o" (.new "A" [.literal (.boolean true), .literal (.string "")])),
   .mk ps.fieldAt (.fieldSet (.lookup "o") "a" (.lookup "o"))]

/-- The program `class A(x,i){fun m(){n}}o=new A(true,"");o.a=o;o.m();`. -/
def typesProgram : List Statement :=
  typesBefore ps n ++ [.mk ps.callAt (.methodCall (.lookup "o") "m" [])]

def typesObject : Instance where
  className := "A"
  vars := ⟨2⟩
  funs := ⟨2⟩
  classes := ⟨2⟩

/-- The machine when the method is called. -/
def typesMachine : Machine where
  store :=
    { boxes := #[.boolean true, .string "", .object typesObject, .object typesObject]
      vars := #[{}, ⟨[("o", ⟨2⟩)]⟩, ⟨[("x", ⟨0⟩), ("i", ⟨1⟩), ("a", ⟨3⟩)]⟩]
      funs := #[{}, {}, ⟨[("m", typesMethod ps n)]⟩]
      classes :=
        let classes := siblingClasses { decl := typesClass ps n, siblings := [typesClass ps n] }
        #[{}, classes, classes] }
  console := .buffer {}

/-- The call of the method, and the run of its body. -/
def typesCall : Evaluation :=
  ⟨.methodCall (.lookup "o") "m" [], ⟨⟨1⟩, ⟨1⟩, ⟨1⟩⟩, typesMachine ps n⟩

def typesRun : Evaluation :=
  ⟨.block (typesMethod ps n).body, typesObject.scope, typesMachine ps n⟩

theorem inRun_typesRun (hss : TidyBlock (typesProgram ps n)) :
    InRun ⟨20, 20⟩ (typesProgram ps n) (.buffer {}) 18 (typesRun ps n) := by
  have hfirst : InRun ⟨20, 20⟩ (typesProgram ps n) (.buffer {}) 20 _ := .first
  have hbefore : block (evaluate 20 19) (typesBefore ps n) ⟨⟨0⟩, ⟨0⟩, ⟨0⟩⟩
      (firstEvaluation (typesProgram ps n) (.buffer {})).machine =
        .ok (.value .void) (typesMachine ps n) := by cbv
  have hcall : InRun ⟨20, 20⟩ (typesProgram ps n) (.buffer {}) 19 (typesCall ps n) :=
    .part hfirst ((hfirst.fair hss).makes_statement rfl (fun _ _ _ => Node.noConfusion) hbefore rfl)
  have htarget : (⟨.lookup "o", (typesCall ps n).scope, typesMachine ps n⟩ : Evaluation).result
      (evaluate 20 18) = .ok (.box ⟨2⟩) (typesMachine ps n) := rfl
  have hrun : Matters (evaluate 20 18) (fun ev => ev (typesRun ps n).node (typesRun ps n).scope >>=
      fun z => callResult ev z (typesCall ps n).scope) (typesMachine ps n) (typesRun ps n) :=
    (Matters.part _ (typesRun ps n)).bind
  refine .part hcall (Matters.makes ?_)
  exact ((Trace.part htarget).matters_bind (hrun.after fun _ => rfl)).after fun _ => rfl

end Types

/-- The evaluation of the loop, in a copy of the scope of the object or in that scope itself. -/
def typesEvaluation (ps : TypesPlaces) (n : Node) (scope : Scope) : Evaluation :=
  ⟨typesLoop ps, scope, (typesMachine ps n).copied typesObject.scope⟩

/-- The loop is a statement of the method. -/
def typesText : String :=
  "class A(x,i)\x7bfun m()\x7bwhile(i!=\"11\")\x7bprint(x.type);a.x=\"s\";i=i+\"1\";\x7d\x7d\x7d" ++
    "o=new A(true,\"\");o.a=o;o.m();"

theorem parse_typesText : ∃ ps, Parser.parseProgram none typesText =
    .ok (typesProgram ps (typesLoop ps)) :=
  ⟨⟨_, _, _, _, _, _, _, _, _⟩, rfl⟩

/-- The loop is what the method returns. -/
def returnedText : String :=
  "class A(x,i)\x7bfun m()\x7breturn while(i!=\"11\")\x7bprint(x.type);a.x=\"s\";i=i+\"1\";\x7d;\x7d\x7d" ++
    "o=new A(true,\"\");o.a=o;o.m();"

theorem parse_returnedText : ∃ ps, Parser.parseProgram none returnedText =
    .ok (typesProgram ps (.literal (.ret (typesLoop ps)))) :=
  ⟨⟨_, _, _, _, _, _, _, _, _⟩, rfl⟩

/-- The programs declare functions and classes in blocks only. -/
theorem declares_typesProgram (ps : TypesPlaces) {n : Node}
    (hn : n = typesLoop ps ∨ n = .literal (.ret (typesLoop ps))) :
    (Node.block (typesProgram ps n)).All Node.DeclaresInBlocks := by
  have htest : ∀ n, n = typesLoop ps ∨ n = .literal (.ret (typesLoop ps)) →
      Node.allTo Node.DeclaresInBlocks 9 (.block (typesProgram ps n)) = true := by
    rintro n (rfl | rfl) <;> rfl
  exact .of_allTo (htest n hn)

/-- The loop of a method runs in a copy of the scope of the object. -/
theorem loops_plain_types :
    ∃ ps, Parser.parseProgram none typesText = .ok (typesProgram ps (typesLoop ps)) ∧
      (Node.block (typesProgram ps (typesLoop ps))).All Node.DeclaresInBlocks ∧
      let c := typesEvaluation ps (typesLoop ps) ⟨⟨3⟩, ⟨3⟩, ⟨3⟩⟩
      InRun ⟨20, 20⟩ (typesProgram ps (typesLoop ps)) (.buffer {}) 17 c ∧
        c.node = .whileLoop typesTest (typesBody ps) ∧
        (∀ b o, c.machine.store.read b = .object o → o.vars ≠ c.scope.vars) ∧
        Pairing.EndAlike c.machine.store (c.result (evaluate 20 17))
          (plainWhile (evaluate 20 16) 20 typesTest (typesBody ps) c.scope c.machine) := by
  obtain ⟨ps, hparse⟩ := parse_typesText
  have hss := Parser.tidyBlock_parseProgram hparse
  have hdeclares := declares_typesProgram ps (.inl rfl)
  have hrun := inRun_typesRun ps _ hss
  have hnothing : block (evaluate 20 17) [] (typesRun ps (typesLoop ps)).scope
      (typesRun ps (typesLoop ps)).machine =
        .ok (.value .void) ((typesMachine ps (typesLoop ps)).copied typesObject.scope) := rfl
  have hc : InRun ⟨20, 20⟩ _ (.buffer {}) 17 (typesEvaluation ps (typesLoop ps) ⟨⟨3⟩, ⟨3⟩, ⟨3⟩⟩) :=
    .part hrun ((hrun.fair hss).makes_statement rfl (fun _ _ _ => Node.noConfusion) hnothing rfl)
  have hobject : ∀ b o, ((typesMachine ps (typesLoop ps)).copied typesObject.scope).store.read b =
      .object o → o.vars ≠ ⟨3⟩ := fun _ _ => (hrun.fair hss).ready.sound.fresh_copied _ _
  exact ⟨ps, hparse, hdeclares, hc, rfl, hobject,
    (loops_plain hparse hdeclares hc).1 _ _ rfl hobject⟩

/-! ## A loop that is returned -/

/-- A block makes what its first statement returns. -/
theorem makes_returned {c : Evaluation} {limit depth : Nat} {ss : List Statement}
    {p : Option Position} {n e : Node} {y : Yield} {m : Machine} (hnode : c.node = .block (.mk p n :: ss))
    (hn : ∀ x ps us, n ≠ .classDef x ps us)
    (hr : (⟨n, (c.machine.store.copyScope c.scope).1, c.machine.copied c.scope⟩ : Evaluation).result
      (evaluate limit depth) = .ok y m) (hy : y.now m.store = .ret e) :
    Makes limit (evaluate limit depth) c ⟨e, c.scope, m⟩ := by
  have hcopy : Matters (evaluate limit depth)
      (fun ev => copyOf ev e c.scope >>= fun v => yield (.ret (.literal v))) m ⟨e, c.scope, m⟩ :=
    (Matters.part _ ⟨e, c.scope, m⟩).bind.bind.bind
  have hstatement : Matters (evaluate limit depth)
      (fun ev => statement ev c.scope (c.machine.store.copyScope c.scope).1 n)
      (c.machine.copied c.scope) ⟨e, c.scope, m⟩ := by
    refine (Trace.part hr).matters_bind (hcopy.after fun ev => ?_)
    rw [read_bind_eq, hy]
  have hstatements : Matters (evaluate limit depth)
      (fun ev => statements ev c.scope (c.machine.store.copyScope c.scope).1 (.value .void)
        (.mk p n :: ss)) (c.machine.copied c.scope) ⟨e, c.scope, m⟩ :=
    (hstatement.placed p).bind
  refine Matters.makes (hstatements.after fun ev => ?_)
  have hempty : block ev [] c.scope c.machine = .ok (.value .void) (c.machine.copied c.scope) := rfl
  rw [hnode]
  exact block_append_of_ok hn hempty rfl

theorem inRun_returned (ps : TypesPlaces)
    (hss : TidyBlock (typesProgram ps (.literal (.ret (typesLoop ps))))) :
    InRun ⟨20, 20⟩ (typesProgram ps (.literal (.ret (typesLoop ps)))) (.buffer {}) 17
      (typesEvaluation ps (.literal (.ret (typesLoop ps))) typesObject.scope) := by
  have hrun := inRun_typesRun ps _ hss
  exact .part hrun (makes_returned rfl (fun _ _ _ => Node.noConfusion) rfl rfl)

/-- **The copies of a loop that a method returns can be observed.** It is evaluated in the scope of the
object itself. In the program its body gives the field `x` another type. The next round does not see
that, where the plain loop does. -/
theorem returned_while :
    ∃ ps, Parser.parseProgram none returnedText =
        .ok (typesProgram ps (.literal (.ret (typesLoop ps)))) ∧
      (Node.block (typesProgram ps (.literal (.ret (typesLoop ps))))).All Node.DeclaresInBlocks ∧
      let c := typesEvaluation ps (.literal (.ret (typesLoop ps))) typesObject.scope
      let plain := plainWhile (evaluate 20 16) 20 typesTest (typesBody ps) c.scope
      InRun ⟨20, 20⟩ (typesProgram ps (.literal (.ret (typesLoop ps)))) (.buffer {}) 17 c ∧
        c.node = .whileLoop typesTest (typesBody ps) ∧
        (∃ m, c.result (evaluate 20 17) = .ok (.value .void) m ∧
          m.console = .buffer { written := #["Boolean", "Boolean"] }) ∧
        (∃ m, plain c.machine = .ok (.value .void) m ∧
          m.console = .buffer { written := #["Boolean", "String"] }) ∧
        ¬ Pairing.EndAlike c.machine.store (c.result (evaluate 20 17)) (plain c.machine) := by
  obtain ⟨ps, hparse⟩ := parse_returnedText
  refine ⟨ps, hparse, declares_typesProgram ps (.inr rfl),
    inRun_returned ps (Parser.tidyBlock_parseProgram hparse), rfl, ?_⟩
  obtain ⟨m, hm, hwritten⟩ : ∃ m, (typesEvaluation ps (.literal (.ret (typesLoop ps)))
      typesObject.scope).result (evaluate 20 17) = .ok (.value .void) m ∧
      m.console = .buffer { written := #["Boolean", "Boolean"] } := ⟨_, by cbv, by cbv⟩
  obtain ⟨m', hm', hwritten'⟩ : ∃ m', plainWhile (evaluate 20 16) 20 typesTest (typesBody ps)
      typesObject.scope ((typesMachine ps (.literal (.ret (typesLoop ps)))).copied typesObject.scope) =
      .ok (.value .void) m' ∧
      m'.console = .buffer { written := #["Boolean", "String"] } := ⟨_, by cbv, by cbv⟩
  refine ⟨⟨m, hm, hwritten⟩, ⟨m', hm', hwritten'⟩, fun halike => ?_⟩
  have hconsole := halike.console_eq hm hm'
  rw [hwritten, hwritten'] at hconsole
  exact absurd (Buffer.mk.inj (Console.buffer.inj hconsole)).2 (by decide)

end BoxScript
