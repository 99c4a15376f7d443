import BoxScript.Proofs.Eval.Trace
import BoxScript.Proofs.Parser.Program

/-!
# Declarations stay where they are made

A block, a conditional, a loop or a call runs in tables of its own, so what is declared there is not
seen around it. There are two ways out. A condition, an argument, or the object whose method is
called, is evaluated in the scope around the tree, and may declare something there (`HeaderAdds`).
What is returned is evaluated in the scope around the block that returns it, which for a call is that
of the caller (`ReturnAdds`): a function can hand a declaration to its caller that way
(`declaration_returned`).

Results:
* `Does.finds`: on its own an evaluation declares something in its own scope, unless it is scoped;
* `Evaluation.Fair.adds`: how a declaration gets into a table that was there before;
* **`declarations_contained`**: what a scoped tree leaves in the scope around it.
-/

namespace BoxScript

open Eval

/-! ## Tables of declarations -/

/-- Something that is declared. -/
inductive Declared where
  | function (f : Function)
  | cls (c : Class)

namespace Declared

/-- The table of a scope that it is declared in. -/
def table (scope : Scope) : Declared → Nat
  | function _ => scope.funs.id
  | cls _ => scope.classes.id

/-- How many tables for it there are in a store. -/
def tables (s : Store) : Declared → Nat
  | function _ => s.funs.size
  | cls _ => s.classes.size

end Declared

/-- In the table `t` the name `x` stands for what is declared. -/
def Store.Finds (s : Store) (t : Nat) (x : String) : Declared → Prop
  | .function f => (s.funsOf ⟨t⟩).find? x = some f
  | .cls c => (s.classesOf ⟨t⟩).find? x = some c

section Store

variable {s s' : Store} {δ : Declared} {t : Nat} {x y : String}

theorem Store.Widens.tables_le (h : s.Widens s') (δ : Declared) : δ.tables s ≤ δ.tables s' := by
  cases δ with
  | function f => exact h.funs_le
  | cls c => exact h.classes_le

theorem Scope.Within.table_lt {scope : Scope} (h : scope.Within s) (δ : Declared) :
    δ.table scope < δ.tables s := by
  cases δ with
  | function f => exact h.funs_lt
  | cls c => exact h.classes_lt

theorem Scope.Beyond.tables_le {scope : Scope} (h : scope.Beyond s) (δ : Declared) :
    δ.tables s ≤ δ.table scope := by
  cases δ with
  | function f => exact h.funs_le
  | cls c => exact h.classes_le

/-- Stores with the same functions and classes have the same declarations. -/
theorem Store.Finds.of_eq (hfuns : s'.funs = s.funs) (hclasses : s'.classes = s.classes)
    (h : s'.Finds t x δ) : s.Finds t x δ := by
  cases δ with
  | function f =>
    change ((s'.funs.getD t {}).find? x) = some f at h
    rwa [hfuns] at h
  | cls c =>
    change ((s'.classes.getD t {}).find? x) = some c at h
    rwa [hclasses] at h

/-- A new table of functions changes none that is there. -/
theorem Store.Finds.of_newFuns {u : Table Function} (ht : t < δ.tables s)
    (h : (s.newFuns u).2.Finds t x δ) : s.Finds t x δ := by
  cases δ with
  | function f =>
    change ((s.newFuns u).2.funsOf ⟨t⟩).find? x = some f at h
    have hne : t ≠ s.funs.size := Nat.ne_of_lt ht
    rwa [Store.funsOf_newFuns, if_neg hne] at h
  | cls c => exact h

theorem Store.Finds.of_newClasses {u : Table Class} (ht : t < δ.tables s)
    (h : (s.newClasses u).2.Finds t x δ) : s.Finds t x δ := by
  cases δ with
  | function f => exact h
  | cls c =>
    change ((s.newClasses u).2.classesOf ⟨t⟩).find? x = some c at h
    have hne : t ≠ s.classes.size := Nat.ne_of_lt ht
    rwa [Store.classesOf_newClasses, if_neg hne] at h

/-- A function that is declared in a table changes no other one. -/
theorem Store.Finds.of_putFun {r : FunsRef} {g : Function} (h : (s.putFun r y g).Finds t x δ) :
    s.Finds t x δ ∨ ∃ f, δ = .function f ∧ t = r.id := by
  cases δ with
  | function f =>
    by_cases ht : t = r.id
    · exact .inr ⟨f, rfl, ht⟩
    · change ((s.funs.modify r.id (·.insert y g)).getD t {}).find? x = some f at h
      rw [getD_modify, if_neg fun hr => ht hr.1] at h
      exact .inl h
  | cls c => exact .inl h

theorem Store.Finds.of_putClass {r : ClassesRef} {d : Class}
    (h : (s.putClass r y d).Finds t x δ) :
    s.Finds t x δ ∨ ∃ c, δ = .cls c ∧ t = r.id := by
  cases δ with
  | function f => exact .inl h
  | cls c =>
    by_cases ht : t = r.id
    · exact .inr ⟨c, rfl, ht⟩
    · change ((s.classes.modify r.id (·.insert y d)).getD t {}).find? x = some c at h
      rw [getD_modify, if_neg fun hr => ht hr.1] at h
      exact .inl h

end Store

/-! ## How something is declared -/

variable {c d : Evaluation} {δ : Declared} {t : Nat} {x : String} {limit depth : Nat}

/-- **On its own an evaluation declares something in its own scope, and only if it is not scoped.**
Tables that it makes are not there yet when it begins. -/
theorem Does.finds {Answer : Evaluation → Yield → Machine → Prop} {m m' : Machine}
    (h : Does Answer c m m') (hc : t < δ.tables c.machine.store) (hm : Since c m)
    (hfinds : m'.store.Finds t x δ) :
    m.store.Finds t x δ ∨ t = δ.table c.scope ∧ c.node.isScoped = false := by
  induction h with
  | andThen h₁ _ ih₁ ih₂ =>
    exact (ih₂ (hm.trans (h₁.widens hm.rooted)) hfinds).elim (ih₁ hm) .inr
  | assignVar m r y _ _ _ =>
    obtain ⟨-, hfuns, hclasses⟩ := m.store.tables_assignVar r y _
    exact .inl (hfinds.of_eq hfuns hclasses)
  | assignSlot m r i _ _ _ =>
    obtain ⟨-, hfuns, hclasses⟩ := m.store.tables_assignSlot r i _
    exact .inl (hfinds.of_eq hfuns hclasses)
  | newFuns m _ => exact .inl (hfinds.of_newFuns (Nat.lt_of_lt_of_le hc (hm.tables_le δ)))
  | newClasses m _ => exact .inl (hfinds.of_newClasses (Nat.lt_of_lt_of_le hc (hm.tables_le δ)))
  | putFun m y f hn =>
    rcases hfinds.of_putFun with hold | ⟨g, rfl, ht⟩
    · exact .inl hold
    · exact .inr ⟨ht, hn ▸ rfl⟩
  | putClass m cl hr _ _ =>
    rcases hfinds.of_putClass with hold | ⟨cl', rfl, ht⟩
    · exact .inl hold
    · rcases hr with ⟨rfl, hopen⟩ | hnew
      · exact .inr ⟨ht, hopen⟩
      · exact absurd (ht ▸ hc) (Nat.not_lt.mpr hnew)
  | _ => exact .inl (hfinds.of_eq rfl rfl)

/-- Behind the evaluation something is declared that was not so before it. -/
def Adds (limit : Nat) (t : Nat) (x : String) (δ : Declared) (depth : Nat) (e : Evaluation) : Prop :=
  ¬ e.machine.store.Finds t x δ ∧ (e.outcome limit depth).machine.store.Finds t x δ

/-- A condition, an argument, or the object whose method is called, adds the declaration. -/
inductive HeaderAdds (limit : Nat) (t : Nat) (x : String) (δ : Declared) : Nat → Evaluation → Prop
  | intro {depth : Nat} {c d : Evaluation} :
    Makes limit (evaluate limit depth) c d → d.node ∈ c.node.headers → d.scope = c.scope →
    Adds limit t x δ depth d → HeaderAdds limit t x δ (depth + 1) c

/-- In the course of an evaluation something that is returned adds the declaration. -/
inductive ReturnAdds (limit : Nat) (t : Nat) (x : String) (δ : Declared) : Nat → Evaluation → Prop
  /-- The part `b` returns a tree, and the part `e` is its evaluation. -/
  | here {depth : Nat} {c b e : Evaluation} {y : Yield} :
    Makes limit (evaluate limit depth) c b →
    b.result (evaluate limit depth) = .ok y e.machine → y.now e.machine.store = .ret e.node →
    Makes limit (evaluate limit depth) c e → t = δ.table e.scope → Adds limit t x δ depth e →
    ReturnAdds limit t x δ (depth + 1) c
  | part {depth : Nat} {c d : Evaluation} :
    Makes limit (evaluate limit depth) c d → ReturnAdds limit t x δ depth d →
    ReturnAdds limit t x δ (depth + 1) c

/-- A block has no headers. -/
theorem not_headerAdds {ss : List Statement} (hc : c.node = .block ss) :
    ¬ HeaderAdds limit t x δ depth c := by
  rintro ⟨-, hmem, -, -⟩
  rw [hc] at hmem
  exact absurd hmem List.not_mem_nil

/-- How a declaration gets into a table that was there before: the table is that of the scope, and
the tree is not scoped or has a header that adds it, or it is added by something returned. -/
def Added (limit : Nat) (t : Nat) (x : String) (δ : Declared) (depth : Nat) (c : Evaluation) :
    Prop :=
  t = δ.table c.scope ∧ (c.node.isScoped = false ∨ HeaderAdds limit t x δ depth c) ∨
    ReturnAdds limit t x δ depth c

/-- What is added by a part is added by the whole. -/
theorem Added.of_part (ht : t < δ.tables c.machine.store)
    (hmakes : Makes limit (evaluate limit depth) c d)
    (hasks : Asks (Answered limit (evaluate limit depth) c) c d) (hadds : Adds limit t x δ depth d)
    (h : Added limit t x δ depth d) : Added limit t x δ (depth + 1) c := by
  rcases h with ⟨htable, hcause⟩ | hreturn
  · cases hasks.standing with
    | operand hopen _ hscope => exact .inl ⟨hscope ▸ htable, .inl hopen⟩
    | header hmem hscope =>
      exact .inl ⟨hscope ▸ htable, .inr (.intro hmakes hmem hscope hadds)⟩
    | returned hb hy _ => exact .inr (.here hb.1 hb.2 hy hmakes htable hadds)
    | body hn _ _ | function hn _ _ _ | method hn _ _ =>
      rcases hcause with hopen | hheader
      · rw [hn] at hopen
        exact nomatch hopen
      · exact absurd hheader (not_headerAdds hn)
    | inner hown => exact absurd (htable ▸ ht) (Nat.not_lt.mpr (hown.toBeyond.tables_le δ))
  · exact .inr (.part hmakes hreturn)

/-- **What a fair evaluation adds to a table that was there before** is added in one of these
ways. -/
theorem Evaluation.Fair.adds (hc : c.Fair) (ht : t < δ.tables c.machine.store)
    (h : Adds limit t x δ depth c) : Added limit t x δ depth c := by
  induction depth generalizing c with
  | zero => exact absurd h.2 h.1
  | succ depth ih =>
    -- along each step, what is found was found before or is accounted for
    have hrun := hc.run (K := fun m m' => Since c m → Since c m' ∧
        (m'.store.Finds t x δ → m.store.Finds t x δ ∨ Added limit t x δ (depth + 1) c))
      (fun h₁ h₂ hm => ⟨(h₂ (h₁ hm).1).1, fun hf => ((h₂ (h₁ hm).1).2 hf).elim (h₁ hm).2 .inr⟩)
      (fun hd hm => ⟨hm.trans (hd.widens hm.rooted), fun hf =>
        (hd.finds ht hm hf).imp_right fun ⟨htable, hopen⟩ => .inl ⟨htable, .inl hopen⟩⟩)
      fun d hd hmakes hasks _ hm => by
        refine ⟨hm.trans (hd.widens limit depth).1, fun hafter => ?_⟩
        refine (Classical.em _).imp_right fun hbefore => ?_
        have htd : t < δ.tables d.machine.store := Nat.lt_of_lt_of_le ht (hm.tables_le δ)
        exact .of_part ht hmakes hasks ⟨hbefore, hafter⟩ (ih hd htd ⟨hbefore, hafter⟩)
    exact ((hrun hc.rooted.refl).2 h.2).resolve_left h.1

/-! ## Programs -/

/-- **What a scoped tree leaves in the scope around it.** While a parsed program runs, each block,
conditional, loop and call leaves the functions and classes of the scope that it is evaluated in as
they are, but for what a condition, an argument or the object of a method call declares there, and
for what is declared by the evaluation of something returned in the course of it. -/
theorem declarations_contained {loader : Option Loader} {source : String} {ss : List Statement}
    (hparse : Parser.parseProgram loader source = .ok ss) {limits : Limits} {console : Console}
    (hc : InRun limits ss console depth c) (hscoped : c.node.isScoped = true) (x : String)
    (δ : Declared) :
    (c.machine.store.Finds (δ.table c.scope) x δ →
      (c.outcome limits.rounds depth).machine.store.Finds (δ.table c.scope) x δ) ∧
    ((c.outcome limits.rounds depth).machine.store.Finds (δ.table c.scope) x δ →
      c.machine.store.Finds (δ.table c.scope) x δ ∨
        HeaderAdds limits.rounds (δ.table c.scope) x δ depth c ∨
        ReturnAdds limits.rounds (δ.table c.scope) x δ depth c) := by
  have hfair := hc.fair (Parser.tidyBlock_parseProgram hparse)
  refine ⟨fun hbefore => ?_, fun hafter => (Classical.em _).imp_right fun hbefore => ?_⟩
  · have hkeeps := (agree_evaluate keptNone limits.rounds depth hfair.ready).evolves.toKeeps
    cases δ with
    | function f => exact hkeeps.function_eq hbefore
    | cls d => exact hkeeps.class_eq hbefore
  · rcases hfair.adds (hfair.scope.table_lt δ) ⟨hbefore, hafter⟩ with ⟨-, hopen | hheader⟩ | hreturn
    · exact absurd (hscoped.symm.trans hopen) Bool.noConfusion
    · exact .inl hheader
    · exact .inr hreturn

/-- A function that returns the declaration of another one, which is called next. -/
def handingText : String :=
  "fun f()\x7breturn fun g()\x7bprint(\"g\");\x7d;\x7df();g();"

/-- The functions that are declared in the program. -/
def innerFunction (r : Option Position) : Function where
  params := []
  body := [.mk r (.print (.literal (.string "g")))]

def outerFunction (q r : Option Position) : Function where
  params := []
  body := [.mk q (.literal (.ret (.functionDef "g" [] (innerFunction r).body)))]

/-- The program with this text, with the places of its statements. -/
def handingOut (p q r s t : Option Position) : List Statement :=
  [.mk p (.functionDef "f" [] (outerFunction q r).body)] ++
    [.mk s (.functionCall "f" []), .mk t (.functionCall "g" [])]

/-- The first call of the program. -/
def handingCall (q r : Option Position) : Evaluation where
  node := .functionCall "f" []
  scope := ⟨⟨1⟩, ⟨1⟩, ⟨1⟩⟩
  machine :=
    { store :=
        { vars := #[{}, {}], funs := #[{}, ⟨[("f", outerFunction q r)]⟩], classes := #[{}, {}] }
      console := default }

/-- The call is evaluated in the run, behind the declaration. -/
theorem inRun_handingCall {p q r s t : Option Position} (hss : TidyBlock (handingOut p q r s t)) :
    InRun ⟨9, 9⟩ (handingOut p q r s t) default 8 (handingCall q r) := by
  have hfirst : InRun ⟨9, 9⟩ (handingOut p q r s t) default 9 _ := .first
  have hbefore : block (evaluate 9 8) [.mk p (.functionDef "f" [] (outerFunction q r).body)]
      ⟨⟨0⟩, ⟨0⟩, ⟨0⟩⟩ (firstEvaluation (handingOut p q r s t) default).machine =
        .ok (.value .void) (handingCall q r).machine := rfl
  exact .part hfirst ((hfirst.fair hss).makes_statement rfl (fun _ _ _ => Node.noConfusion) hbefore rfl)

/-- The call adds a function to the scope around it. -/
theorem adds_handingCall (q r : Option Position) :
    Adds 9 1 "g" (.function (innerFunction r)) 8 (handingCall q r) :=
  ⟨nofun, rfl⟩

theorem exists_handingOut :
    ∃ p q r s t, Parser.parseProgram none handingText = .ok (handingOut p q r s t) :=
  ⟨_, _, _, _, _, rfl⟩

/-- **A declaration is returned**: a call without arguments adds a function to the scope around
it. -/
theorem declaration_returned :
    ∃ ss c f, Parser.parseProgram none handingText = .ok ss ∧
      InRun ⟨9, 9⟩ ss default 8 c ∧ c.node = .functionCall "f" [] ∧
      (c.machine.store.funsOf c.scope.funs).find? "g" = none ∧
      ((c.outcome 9 8).machine.store.funsOf c.scope.funs).find? "g" = some f := by
  obtain ⟨p, q, r, s, t, hparse⟩ := exists_handingOut
  have hrun := inRun_handingCall (Parser.tidyBlock_parseProgram hparse)
  exact ⟨_, handingCall q r, innerFunction r, hparse, hrun, rfl, rfl, (adds_handingCall q r).2⟩

/-- The function was returned, as the call has no arguments. -/
theorem declarations_contained_handing :
    ∃ p q r s t, Parser.parseProgram none handingText = .ok (handingOut p q r s t) ∧
      InRun ⟨9, 9⟩ (handingOut p q r s t) default 8 (handingCall q r) ∧
      (handingCall q r).node.isScoped = true ∧
      ReturnAdds 9 1 "g" (.function (innerFunction r)) 8 (handingCall q r) := by
  obtain ⟨p, q, r, s, t, hparse⟩ := exists_handingOut
  obtain ⟨hbefore, hafter⟩ := adds_handingCall q r
  have hrun := inRun_handingCall (Parser.tidyBlock_parseProgram hparse)
  obtain ⟨-, hcontained⟩ :=
    declarations_contained hparse hrun rfl "g" (.function (innerFunction r))
  refine ⟨p, q, r, s, t, hparse, hrun, rfl, ?_⟩
  rcases hcontained hafter with hold | ⟨-, hmem, -, -⟩ | hreturn
  · exact absurd hold hbefore
  · exact absurd hmem List.not_mem_nil
  · exact hreturn

end BoxScript
