import BoxScript.Proofs.Eval.Lasting
import BoxScript.Proofs.Parser.Program
import BoxScript.Session

/-!
# Steps of a session do not depend on each other

The store of a run is gone when the run is over. To see that nothing would change if it stayed, a
`Lasting` session keeps its store from step to step, and with it what trees hold there. Literals are
kept in held, which all runs share, so a run that wrote to one would change the programs themselves.
Classes have tables for their siblings, which stay filled as one run leaves them for the next.

Results:
* **`step_independent`**: after any steps, a step gives what it gives in a fresh session that has only
  parsed the programs, whether the store is kept or not, and the texts of all kept programs stay as
  they are;
* `Lasting.Sound.after`: apart from the store, a session that keeps it is in the same state as one that
  does not.
-/

namespace BoxScript

namespace Session

/-! ## Many steps -/

/-- The step runs nothing. -/
def Step.isParse : Step → Bool
  | .parse _ _ => true
  | _ => false

/-- The session after some steps. -/
def after (limits : Limits) (loader : Option Loader) (s : Session) (steps : List Step) : Session :=
  steps.foldl (fun s step => (s.step limits loader step).2) s

/-- The answer of a step on a console that had `before` written on it, and the answer on a console
with nothing written: the same refusal or program, or a run with the same text or failure, which wrote
the same and left the same to read. -/
inductive Repeats (before : Console) : Answer → Answer → Prop
  | refused (e : ParseError) : Repeats before (.refused e) (.refused e)
  | parsed (ss : List Statement) : Repeats before (.parsed ss) (.parsed ss)
  | ran {o o' : Outcome Value} (htext : o.text = o'.text)
    (hconsole : o.machine.console = o'.machine.console.behind before) :
    Repeats before (.ran o) (.ran o')

/-- All programs that were kept were parsed. -/
def Parsed (programs : List (String × List Statement)) : Prop :=
  ∀ entry ∈ programs, WellFormedBlock entry.2

/-! ## Sessions that keep their store -/

/-- A session that keeps its store. -/
structure Lasting where
  machine : Machine
  programs : List (String × List Statement) := []

namespace Lasting

variable (held : Held) (limits : Limits) (loader : Option Loader)

/-- What is left of the session without its store. -/
def session (t : Lasting) : Session :=
  { console := t.machine.console, programs := t.programs }

/-- Runs a program on the store of the session. -/
def runOn (t : Lasting) (ss : List Statement) : Answer × Lasting :=
  let o := runShared held limits ss t.machine
  (.ran o, { t with machine := o.machine })

/-- One step of a session that keeps its store. -/
def step (t : Lasting) : Step → Answer × Lasting
  | .run source =>
    match Parser.parseProgram loader source with
    | .ok ss => t.runOn held limits ss
    | .error e => (.refused e, t)
  | .parse name source =>
    match Parser.parseProgram loader source with
    | .ok ss => (.parsed ss, { t with programs := (name, ss) :: t.programs })
    | .error e => (.refused e, t)
  | .evaluate name => t.runOn held limits (t.session.program name)

/-- The session after some steps. -/
def after (t : Lasting) (steps : List Step) : Lasting :=
  steps.foldl (fun t step => (t.step held limits loader step).2) t

end Lasting

/-! ## One step -/

theorem Parsed.program {s : Session} (h : Parsed s.programs) (name : String) :
    WellFormedBlock (s.program name) := by
  unfold Session.program
  cases hfound : s.programs.lookup name with
  | none => exact fun s hs => absurd hs List.not_mem_nil
  | some ss =>
    obtain ⟨front, rest, heq, -⟩ := List.lookup_eq_some_iff.mp hfound
    exact h (name, ss) (heq ▸ List.mem_append_right front List.mem_cons_self)

/-- The session with nothing written on its console. -/
def fresh (s : Session) : Session :=
  { s with console := s.console.cleared }

section Steps

variable {held : Held} (limits : Limits) (loader : Option Loader)

namespace Lasting

/-- What trees hold is in the store of the session, and its programs were parsed. -/
structure Sound (held : Held) (t : Lasting) : Prop where
  holds : t.machine.store.Holds held
  parsed : Parsed t.programs

/-- What comes of a step, compared with the same step on a fresh console. -/
structure Matches (held : Held) (t : Lasting) (r : Answer × Lasting)
    (alone : Answer × Session) : Prop where
  repeats : Repeats t.machine.console r.1 alone.1
  sound : r.2.Sound held
  console : r.2.machine.console = alone.2.console.behind t.machine.console
  programs : r.2.programs = alone.2.programs

theorem Sound.runOn {t : Lasting} (ht : t.Sound held) {ss : List Statement}
    (hss : WellFormedBlock ss) :
    Matches held t (t.runOn held limits ss) (t.session.fresh.runOn limits ss) := by
  obtain ⟨htext, front, hfront, hmachine⟩ :=
    runShared_eq ht.holds limits (WellFormed.block hss).handleless
  have hconsole := congrArg Machine.console hmachine
  rw [Machine.behind, hfront.console_eq] at hconsole
  refine ⟨.ran htext hconsole, ⟨?_, ht.parsed⟩, hconsole, rfl⟩
  exact (congrArg Machine.store hmachine) ▸ hfront.holds.behind _

/-- **A step on a store that is kept repeats the step on an empty store.** -/
theorem Sound.step {t : Lasting} (ht : t.Sound held) (step : Step) :
    Matches held t (t.step held limits loader step) (t.session.fresh.step limits loader step) := by
  have hconsole : t.machine.console = t.session.fresh.console.behind t.machine.console :=
    t.machine.console.cleared_behind.symm
  cases step with
  | run source =>
    simp only [Lasting.step, Session.step]
    cases hparse : Parser.parseProgram loader source with
    | ok ss => exact ht.runOn limits (Parser.wellFormed_parseProgram hparse)
    | error e => exact ⟨.refused e, ht, hconsole, rfl⟩
  | parse name source =>
    simp only [Lasting.step, Session.step]
    cases hparse : Parser.parseProgram loader source with
    | ok ss =>
      refine ⟨.parsed ss, ⟨ht.holds, ?_⟩, hconsole, rfl⟩
      exact List.forall_mem_cons.mpr ⟨Parser.wellFormed_parseProgram hparse, ht.parsed⟩
    | error e => exact ⟨.refused e, ht, hconsole, rfl⟩
  | evaluate name => exact ht.runOn limits (Parsed.program (s := t.session) ht.parsed name)

end Lasting

/-- A session steps like one whose store is empty before each step. -/
theorem step_eq_lasting (s : Session) (step : Step) :
    s.step limits loader step =
      let r := Lasting.step {} limits loader ⟨⟨{}, s.console⟩, s.programs⟩ step
      (r.1, r.2.session) := by
  have hrun : ∀ ss, s.runOn limits ss =
      let r := Lasting.runOn {} limits ⟨⟨{}, s.console⟩, s.programs⟩ ss
      (r.1, r.2.session) := by
    intro ss
    rw [Session.runOn, runProgram_eq_runShared]
    rfl
  cases step with
  | run source =>
    simp only [Lasting.step, Session.step]
    cases Parser.parseProgram loader source with
    | ok ss => exact hrun ss
    | error e => rfl
  | parse name source =>
    simp only [Lasting.step, Session.step]
    cases Parser.parseProgram loader source with
    | ok ss => rfl
    | error e => rfl
  | evaluate name => exact hrun _

/-- What a step gives, on a console that has something written on it. -/
theorem Parsed.step {s : Session} (h : Parsed s.programs) (step : Step) :
    Repeats s.console (s.step limits loader step).1 (s.fresh.step limits loader step).1 ∧
      (s.step limits loader step).2.console =
        (s.fresh.step limits loader step).2.console.behind s.console ∧
      (s.step limits loader step).2.programs = (s.fresh.step limits loader step).2.programs := by
  have hsound : Lasting.Sound {} ⟨⟨{}, s.console⟩, s.programs⟩ := ⟨⟨nofun, nofun, nofun, nofun⟩, h⟩
  have hstep := hsound.step limits loader step
  rw [step_eq_lasting limits loader s step]
  exact ⟨hstep.repeats, hstep.console, hstep.programs⟩

/-! ## Many steps -/

/-- That the store is kept makes no difference to the rest of a session. -/
theorem Lasting.Sound.step_session {t : Lasting} (ht : t.Sound held) (step : Step) :
    (t.step held limits loader step).2.session = (t.session.step limits loader step).2 := by
  have hkept := ht.step limits loader step
  obtain ⟨-, hconsole, hprograms⟩ := Parsed.step limits loader (s := t.session) ht.parsed step
  have hsame : ∀ s s' : Session, s.console = s'.console → s.programs = s'.programs → s = s' := by
    rintro ⟨c, ps⟩ ⟨c', ps'⟩ rfl rfl
    rfl
  exact hsame _ _ (hkept.console.trans hconsole.symm) (hkept.programs.trans hprograms.symm)

theorem Lasting.Sound.after {t : Lasting} (ht : t.Sound held) (steps : List Step) :
    (t.after held limits loader steps).Sound held ∧
      (t.after held limits loader steps).session = t.session.after limits loader steps := by
  induction steps generalizing t with
  | nil => exact ⟨ht, rfl⟩
  | cons step steps ih =>
    have hnext := ih (ht.step limits loader step).sound
    rw [ht.step_session limits loader step] at hnext
    exact hnext

theorem programs_step_of_isParse {step : Step} (hstep : step.isParse = true) (s : Session)
    (console : Console) :
    (Session.step limits loader { s with console } step).2 =
      { (s.step limits loader step).2 with console } := by
  cases step with
  | run source | evaluate name => exact absurd hstep Bool.false_ne_true
  | parse name source =>
    simp only [Session.step]
    cases Parser.parseProgram loader source with
    | ok ss => rfl
    | error e => rfl

theorem programs_step_of_not_isParse {step : Step} (hstep : step.isParse = false) (s : Session) :
    (s.step limits loader step).2.programs = s.programs := by
  cases step with
  | parse name source => exact absurd hstep.symm Bool.false_ne_true
  | evaluate name => rfl
  | run source =>
    simp only [Session.step]
    cases Parser.parseProgram loader source with
    | ok ss => rfl
    | error e => rfl

/-- Only the steps that parse matter to what is kept. -/
theorem after_filter_isParse (s : Session) (console : Console) (steps : List Step) :
    after limits loader { s with console } (steps.filter Step.isParse) =
      { s.after limits loader steps with console } := by
  induction steps generalizing s with
  | nil => rfl
  | cons step steps ih =>
    have hnext := ih (s.step limits loader step).2
    cases hstep : step.isParse with
    | true =>
      rw [List.filter_cons_of_pos hstep]
      rw [← programs_step_of_isParse limits loader hstep s console] at hnext
      exact hnext
    | false =>
      rw [List.filter_cons_of_neg (hstep ▸ Bool.false_ne_true)]
      rw [programs_step_of_not_isParse limits loader hstep s] at hnext
      exact hnext

end Steps

/-! ## Independence -/

/-- **Steps of a session do not depend on each other.** After any steps, which may have failed, a step
gives the text or failure, writes the lines and leaves the input that it does in a fresh session with
the input that is left, in which nothing was run. The same holds if the store of every run is kept, with
the literals of all programs in boxes of it and the siblings that classes know in tables of it; and then
the step leaves the text and the outline of every node of every kept program as they were. -/
theorem step_independent (limits : Limits) (loader : Option Loader) {held : Held} {P : Machine}
    (hP : P.store.Holds held) (steps : List Step) (step : Step) :
    let s := after limits loader { console := P.console } steps
    let t := Lasting.after held limits loader { machine := P } steps
    let t' := (t.step held limits loader step).2
    let alone := after limits loader { console := s.console.cleared } (steps.filter Step.isParse)
    Repeats s.console (s.step limits loader step).1 (alone.step limits loader step).1 ∧
      Repeats s.console (t.step held limits loader step).1 (alone.step limits loader step).1 ∧
      ∀ name n, Inside (.block (s.program name)) n →
        (n.current held.boxes t'.machine.store).source t'.machine.store.shown =
            (n.current held.boxes t.machine.store).source t.machine.store.shown ∧
          (n.current held.boxes t'.machine.store).outline t'.machine.store.shown =
            (n.current held.boxes t.machine.store).outline t.machine.store.shown := by
  intro s t t' alone
  have hstart : Lasting.Sound held { machine := P } := ⟨hP, nofun⟩
  obtain ⟨ht, hsession⟩ := hstart.after limits loader steps
  have halone : alone = t.session.fresh := by
    rw [hsession]
    exact after_filter_isParse limits loader { console := P.console } s.console.cleared steps
  have hs : s = t.session := hsession.symm
  have hkept := ht.step limits loader step
  refine ⟨?_, ?_, fun name n hn => ?_⟩
  · rw [halone, hs]
    exact (Parsed.step limits loader (s := t.session) ht.parsed step).1
  · rw [halone, hs]
    exact hkept.repeats
  · rw [hkept.sound.holds.backs.current_eq n, ht.holds.backs.current_eq n]
    have hblock : WellFormedBlock (s.program name) := hs ▸ Parsed.program (s := t.session) ht.parsed name
    have hnode := hn.handleless (WellFormed.block hblock).handleless
    exact ⟨hnode.source_eq _ _, hnode.outline_eq _ _⟩

open Classical in
/-- A program that overwrites a name with another truth value runs the second time as it did the first,
although its literal is in a box. -/
theorem step_independent_flip :
    ∃ (held : Held) (P : Machine),
      held.boxes (.boolean true) = some ⟨0⟩ ∧ P.store.Holds held ∧
      let flip := Step.parse "flip" "flag = true; flag = false; print(flag);"
      let s := after {} none { console := P.console } [flip, .evaluate "flip"]
      let t := Lasting.after held {} none { machine := P } [flip, .evaluate "flip"]
      let alone := after {} none { console := s.console.cleared } [flip]
      Repeats s.console (t.step held {} none (.evaluate "flip")).1
        (alone.step {} none (.evaluate "flip")).1 := by
  have hboxes : ({ boxes := #[.boolean true] } : Store).Holds
      { boxes := fun v => if v = .boolean true then some ⟨0⟩ else none } := by
    refine ⟨fun v b hb => ?_, nofun, nofun, nofun⟩
    obtain ⟨rfl, rfl⟩ : v = .boolean true ∧ ⟨0⟩ = b := by simpa using hb
    exact ⟨Nat.zero_lt_one, rfl⟩
  refine ⟨_, ⟨_, .buffer {}⟩, if_pos rfl, hboxes, ?_⟩
  exact (step_independent {} none (P := ⟨_, .buffer {}⟩) hboxes _ (.evaluate "flip")).2.1

end Session

end BoxScript
