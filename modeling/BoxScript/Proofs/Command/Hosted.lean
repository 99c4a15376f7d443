import BoxScript.Command.Run
import BoxScript.Proofs.Eval.Lockstep
import BoxScript.Proofs.Parser.Program

/-!
# Programs on a screen and in a host program

A host program gives a program ready-made lines to read and collects the lines that it writes. On a
screen the same lines are typed, each with a line feed behind it, and what is written stands there
line by line. A line that has no line feed in it and does not end with a carriage return is read as
it was typed, so the two consoles stay alike all along (`Buffer.screen`), and so do the runs
(`Likeness.All.evaluate`).

Result: **`Command.Job.runProgram_quiet`**, for all programs and all lines.
-/

namespace BoxScript

open Eval

/-! ## Lines -/

/-- The line can be typed: nothing in it ends the line early, or is taken off its end. -/
def IsLine (line : String) : Prop :=
  '\n' ∉ line.toList ∧ line.toList.getLast? ≠ some '\r'

/-- Lines as text, each with a line feed behind it. -/
def lineText (lines : List String) : String :=
  String.join (lines.map (· ++ "\n"))

theorem toList_lineText_cons (line : String) (lines : List String) :
    (lineText (line :: lines)).toList = line.toList ++ '\n' :: (lineText lines).toList := by
  rw [lineText, List.map_cons, String.join_cons, String.toList_append, String.toList_append,
    List.append_assoc]
  rfl

theorem lineText_concat (lines : List String) (line : String) :
    lineText (lines ++ [line]) = lineText lines ++ line ++ "\n" := by
  rw [lineText, List.map_append, String.join_append, lineText, String.append_assoc]
  exact congrArg _ (String.join_cons.trans String.append_empty)

/-- Nothing is taken off a line that can be typed. -/
theorem IsLine.trimLine {line : String} (h : IsLine line) :
    Terminal.trimLine line.toList = line := by
  have hdrop : line.toList.reverse.dropWhile (· == '\r') = line.toList.reverse := by
    cases hrev : line.toList.reverse with
    | nil => rfl
    | cons c cs =>
      have hc : c ≠ '\r' := by
        rintro rfl
        exact h.2 (by rw [← List.head?_reverse, hrev]; rfl)
      rw [List.dropWhile_cons_of_neg (by simpa using hc)]
  rw [Terminal.trimLine, hdrop, List.reverse_reverse, String.ofList_toList]

namespace Buffer

/-- The screen on which the pending lines are typed, and the written lines stand. -/
def screen (b : Buffer) : Terminal :=
  { input := (lineText b.pending).toList, written := lineText b.written.toList }

theorem screen_writeLine (b : Buffer) (s : String) :
    (b.writeLine s).screen = b.screen.writeLine s := by
  unfold screen writeLine Terminal.writeLine
  rw [Array.toList_push, lineText_concat]

/-- What is typed is read line by line. -/
theorem screen_readLine {b : Buffer} (h : ∀ line ∈ b.pending, IsLine line) :
    b.screen.readLine = (b.readLine.1, b.readLine.2.screen) := by
  obtain ⟨pending, written⟩ := b
  cases pending with
  | nil => rfl
  | cons line lines =>
    have hline := h line List.mem_cons_self
    have hinput : (lineText (line :: lines)).toList =
        line.toList ++ '\n' :: (lineText lines).toList := toList_lineText_cons line lines
    have htake : (lineText (line :: lines)).toList.takeWhile (· != '\n') = line.toList := by
      rw [hinput, List.takeWhile_append_of_pos fun c hc => ?_]
      · exact List.append_nil _
      · exact bne_iff_ne.mpr fun heq => hline.1 (heq ▸ hc)
    have hdrop : (lineText (line :: lines)).toList.drop line.toList.length =
        '\n' :: (lineText lines).toList := by
      rw [hinput, List.drop_left]
    simp only [screen, Terminal.readLine, htake, hdrop, hline.trimLine, readLine]

end Buffer

/-- A run in a host program, and the same run on a screen. -/
def hosting : Likeness where
  console := fun c c' => ∃ b : Buffer, c = .buffer b ∧ c' = .terminal b.screen ∧
    ∀ line ∈ b.pending, IsLine line
  failure := fun f f' => f = f' ∧ f ≠ .awaitingInput
  place := fun _ => True
  same := True
  reads := by
    rintro _ _ ⟨b, rfl, rfl, h⟩
    have hread := Buffer.screen_readLine h
    refine ⟨congrArg (fun r => r.1) hread, b.readLine.2, rfl,
      congrArg (fun r : Reading × Terminal => Console.terminal r.2) hread, fun line hline => ?_⟩
    obtain ⟨pending, written⟩ := b
    cases pending with
    | nil => exact h line hline
    | cons first lines => exact h line (List.mem_cons_of_mem _ hline)
  writes := by
    rintro _ _ s ⟨b, rfl, rfl, h⟩
    exact ⟨b.writeLine s, rfl, congrArg Console.terminal (b.screen_writeLine s).symm, h⟩
  raises := fun _ hne => ⟨rfl, hne⟩
  awaits := by
    rintro _ _ ⟨⟨pending, written⟩, rfl, -, -⟩ h
    cases pending <;> exact nomatch h

/-! ## Runs -/

theorem hosting_placing : hosting.Placing := by
  rintro f _ p ⟨rfl, hne⟩
  refine ⟨rfl, ?_⟩
  cases f with
  | error e => exact nofun
  | _ => exact hne

/-- The lines that a host program collects. -/
def linesOf (m : Machine) : List String :=
  match m.console with
  | .buffer b => b.written.toList
  | .terminal _ => []

/-- A run on a screen ends like the run in a host program, with the same lines. Neither waits for
input. -/
theorem runProgram_screen {lines : List String} (hlines : ∀ line ∈ lines, IsLine line)
    (limits : Limits) (ss : List Statement) :
    let o := runProgram limits ss (.buffer { pending := lines })
    let o' := runProgram limits ss (.terminal { input := (lineText lines).toList })
    o'.result = o.result ∧ o.result ≠ .error .awaitingInput ∧
      ∃ screen : Terminal, o'.machine.console = .terminal screen ∧
        screen.written = lineText (linesOf o.machine) := by
  have hev := Likeness.All.evaluate hosting_placing limits.rounds limits.depth
  have hstart : hosting.Machines { console := .buffer { pending := lines } }
      { console := .terminal { input := (lineText lines).toList } } :=
    ⟨.empty, { pending := lines }, rfl, rfl, hlines⟩
  have htree : hosting.Tree (.block ss) := fun _ _ => trivial
  have hends := hev.programWith htree _ _ hstart
  refine ⟨hends.result_eq fun f f' hf => hf.1.symm, fun hawaiting => ?_, ?_⟩
  · obtain ⟨_, -, hne⟩ := hends.failure hawaiting
    exact hne rfl
  · obtain ⟨b, hc, hc', -⟩ := hends.machines.console
    exact ⟨b.screen, hc', congrArg lineText (congrArg (fun c => linesOf ⟨{}, c⟩) hc).symm⟩

namespace Command

/-- The command ends with a status, and exactly these lines stand on the screen. -/
def Report.Shows (report : Report) (status : Nat) (lines : List String) : Prop :=
  ∃ screen : Terminal, report = .done status screen [] ∧ screen.written = lineText lines

/-- **A quiet run on a screen agrees with the run in a host program.** The lines that are typed are
those that the host program gives. Then those stand on the screen that the host program collects,
and behind them, if the program cannot be parsed or fails, the description of the error. The status
is one if there is an error, and zero otherwise. Only a run that leaves its limits ends in another
way. -/
theorem Job.runProgram_quiet {job : Job} (hquiet : job.options.quiet = true)
    (times : String × String) {lines : List String} (hlines : ∀ line ∈ lines, IsLine line) :
    let report := job.runProgram times { input := (lineText lines).toList }
    (∀ e, job.parse = .error e → report.Shows 1 [e.diagnostic.describe]) ∧
    ∀ ss, job.parse = .ok ss →
      let o := BoxScript.runProgram job.limits ss (.buffer { pending := lines })
      (∀ v, o.result = .ok v → report.Shows 0 (linesOf o.machine)) ∧
      (∀ e, o.result = .error (.error e) →
        report.Shows 1 (linesOf o.machine ++ [e.diagnostic.describe])) ∧
      ∀ f, o.result = .error f → (∃ e, f = .error e) ∨ f = .stackExhausted ∨
        f = .roundsExhausted ∨ ∃ r, f = .arraySize r := by
  intro report
  have hdivide : ∀ screen, job.divide screen = screen := fun screen => if_pos hquiet
  have hannounce : ∀ time screen, job.announce time screen = screen := fun _ _ => if_pos hquiet
  refine ⟨fun e he => ?_, fun ss hss => ?_⟩
  · refine ⟨Terminal.writeLine { input := (lineText lines).toList } e.diagnostic.describe, ?_,
      lineText_concat [] e.diagnostic.describe |>.symm⟩
    simp only [report, runProgram, he, fail, hdivide]
  · obtain ⟨hresult, hawaiting, screen, hconsole, hwritten⟩ :=
      runProgram_screen hlines job.limits ss
    have hreport : report = job.conclude times.2 (BoxScript.runProgram job.limits ss
        (.terminal { input := (lineText lines).toList })) := by
      simp only [report, runProgram, hss, hannounce, evaluate]
    have hscreen : screenOf (BoxScript.runProgram job.limits ss
        (.terminal { input := (lineText lines).toList })).machine = screen := by
      rw [screenOf, hconsole]
    refine ⟨fun v hv => ⟨screen, ?_, hwritten⟩, fun e he => ?_, fun f hf => ?_⟩
    · simp only [hreport, conclude, hresult.trans hv, hscreen, succeed, hquiet, if_true]
    · refine ⟨screen.writeLine e.diagnostic.describe, ?_, ?_⟩
      · simp only [hreport, conclude, hresult.trans he, hscreen, fail, hdivide, Failure.message]
      · rw [lineText_concat, ← hwritten]
        rfl
    · cases f with
      | error e => exact .inl ⟨e, rfl⟩
      | stackExhausted => exact .inr (.inl rfl)
      | roundsExhausted => exact .inr (.inr (.inl rfl))
      | arraySize r => exact .inr (.inr (.inr ⟨r, rfl⟩))
      | awaitingInput => exact absurd hf hawaiting

/-- Writes what it reads first, and raises what it reads then. -/
def echoing : Job where
  options := { quiet := true, depth := 20 }
  source := "print(read);error(read);"
  loader := .ofTexts []

/-- The description of the error that a run ends with, if there is one. -/
def describedError (o : Outcome Value) : Option String :=
  match o.result with
  | .error (.error e) => some e.diagnostic.describe
  | _ => none

/-- A carriage return inside of a line, and an error that is raised at last. -/
theorem Job.runProgram_quiet_raised :
    (echoing.runProgram ("", "") { input := (lineText ["a\rb", "c"]).toList }).Shows 1
      ["a\rb", "Program error: c (on line 1)"] := by
  obtain ⟨ss, hss, htest⟩ := Parser.exists_of_any (x := echoing.parse)
    (fun ss =>
      let o := BoxScript.runProgram echoing.limits ss (.buffer { pending := ["a\rb", "c"] })
      linesOf o.machine == ["a\rb"] && describedError o == some "Program error: c (on line 1)")
    (by decide +kernel)
  have hlines : ∀ line ∈ ["a\rb", "c"], IsLine line := by
    simp [IsLine]
  have hquiet : echoing.options.quiet = true := rfl
  obtain ⟨-, herror, -⟩ := (runProgram_quiet hquiet ("", "") hlines).2 ss hss
  rw [Bool.and_eq_true, beq_iff_eq, beq_iff_eq] at htest
  generalize BoxScript.runProgram echoing.limits ss _ = o at htest herror
  obtain ⟨hwritten, hdescribed⟩ := htest
  unfold describedError at hdescribed
  split at hdescribed
  · rename_i e he
    have hshown := herror e he
    rw [hwritten, Option.some.inj hdescribed] at hshown
    exact hshown
  · exact nomatch hdescribed

end Command

end BoxScript
