import BoxScript.Proofs.Eval.Counters
import BoxScript.Proofs.Eval.Rounds
import BoxScript.Proofs.Eval.Scoping
import BoxScript.Proofs.Eval.Trace
import BoxScript.Proofs.Node.Paths
import BoxScript.Proofs.Number.Whole
import BoxScript.Proofs.Parser.Program
import Mathlib

/-!
# Countdown loops

A loop `for(n){..}` counts in a hidden variable: it stores its count, goes on while the counter is
positive, and takes one off behind each round. The counter is a variable like any other. A program
cannot name it (`IsCounter`), and two loops of a program have two counters, but the same loop may be
started again by a function that its body calls. The call sees the variables of its caller, so both
then count in the same box.

Results:
* `trace_countdown`: from a counter at `k` a loop goes through `k` rounds, if its bodies leave the
  counter alone;
* `Evaluation.Fair.counting`: a body does so, unless it starts the loop again;
* **`countdown_rounds`**: a countdown loop of a parsed program runs its body as often as its count
  says. A program whose loop is started again shows that it may be less often otherwise
  (`restarted_countdown`).
-/

namespace BoxScript

open Eval

namespace Trace

variable {ev : Evaluator} {d : Evaluation} {m : Machine}

variable {y : Yield}

theorem valueOf (hd : d.result ev = .ok y m) :
    Trace ev (fun ev => Eval.valueOf ev d.node d.scope) d.machine [d] (.ok (y.now m.store) m) :=
  .part_bind hd (.done fun _ => by cases y <;> rfl)

theorem condition {t : Bool} (hd : d.result ev = .ok (.value (.boolean t)) m) :
    Trace ev (fun ev => Eval.condition ev d.node d.scope) d.machine [d] (.ok t m) :=
  .bind (.valueOf hd) (.done fun _ => rfl)

theorem loopBody {ss : List Statement} (hn : d.node = .block ss) (hd : d.result ev = .ok y m)
    (hy : (y.now m.store).isStorable = true) :
    Trace ev (fun ev => Eval.loopBody ev ss d.scope) d.machine [d] (.ok none m) := by
  obtain ⟨n, scope, m₀⟩ := d
  obtain rfl : n = .block ss := hn
  refine .part_bind hd (.done fun _ => ?_)
  rw [read_bind_eq]
  cases hv : y.now m.store with
  | brk => exact nomatch hv ▸ hy
  | ret e => exact nomatch hv ▸ hy
  | _ => rfl

end Trace

/-! ## Rounds -/

section Rounds

variable {ev : Evaluator} {test increment : Node} {ss : List Statement} {inner : Scope}
  {m₁ m₂ m₃ : Machine} {y z : Yield}

/-- The last round. -/
theorem trace_forRound_last
    (htest : (⟨test, inner, m₁⟩ : Evaluation).result ev = .ok (.value (.boolean false)) m₁) :
    Trace ev (forRound test increment ss inner) m₁ [⟨test, inner, m₁⟩]
      (.ok (some (.value .void)) m₁) :=
  .bind (.condition htest) (.done fun _ => rfl)

/-- The body of a round matters. -/
theorem matters_forRound
    (htest : (⟨test, inner, m₁⟩ : Evaluation).result ev = .ok (.value (.boolean true)) m₁) :
    Matters ev (forRound test increment ss inner) m₁ ⟨.block ss, inner, m₁⟩ := by
  refine (Trace.condition htest).matters_bind ?_
  exact (Matters.part ev ⟨.block ss, inner, m₁⟩).bind.bind

/-- A round that goes on. -/
theorem trace_forRound
    (htest : (⟨test, inner, m₁⟩ : Evaluation).result ev = .ok (.value (.boolean true)) m₁)
    (hbody : (⟨.block ss, inner, m₁⟩ : Evaluation).result ev = .ok y m₂)
    (hy : (y.now m₂.store).isStorable = true)
    (hstep : (⟨increment, inner, m₂⟩ : Evaluation).result ev = .ok z m₃) :
    Trace ev (forRound test increment ss inner) m₁
      [⟨test, inner, m₁⟩, ⟨.block ss, inner, m₁⟩, ⟨increment, inner, m₂⟩] (.ok none m₃) := by
  refine .bind (.condition htest) (.bind (.loopBody rfl hbody hy) ?_)
  exact .part_bind hstep (.done fun _ => rfl)

variable {scope : Scope} {m : Machine}

/-- A loop that ends with its next round. -/
theorem trace_forRounds_last
    (htest : (⟨test, (m.store.copyScope scope).1, m.copied scope⟩ : Evaluation).result ev =
      .ok (.value (.boolean false)) (m.copied scope)) (n : Nat) :
    Trace ev (forRounds test increment ss (n + 1) scope) m
      [⟨test, (m.store.copyScope scope).1, m.copied scope⟩]
      (.ok (.value .void) (m.copied scope)) :=
  ((trace_forRound_last htest).bind (.pure _)).after (forRounds_succ test increment ss n scope m)

/-- A loop that goes on with its next round. -/
theorem trace_forRounds {n : Nat} {ds es : List Evaluation}
    {r : EStateM.Result Failure Machine Yield}
    (hround : Trace ev (forRound test increment ss (m.store.copyScope scope).1) (m.copied scope) ds
      (.ok none m₃))
    (hrest : Trace ev (forRounds test increment ss n (m.store.copyScope scope).1) m₃ es r) :
    Trace ev (forRounds test increment ss (n + 1) scope) m (ds ++ es) r :=
  (hround.bind hrest).after (forRounds_succ test increment ss n scope m)

end Rounds

/-! ## The counter -/

section Counter

variable {limit depth : Nat} {x : String} {scope : Scope} {m : Machine} {b : BoxRef} {v : Float}

theorem result_lookup (hb : (m.store.varsOf scope.vars).find? x = some b) (limit depth : Nat) :
    (⟨.lookup x, scope, m⟩ : Evaluation).result (evaluate limit (depth + 1)) = .ok (.box b) m := by
  change (query (·.varsOf scope.vars) >>= _) m = _
  simp only [query, bind, EStateM.bind, hb]
  rfl

theorem result_countdownCondition (hb : (m.store.varsOf scope.vars).find? x = some b)
    (hv : m.store.read b = .number v) (limit depth : Nat) :
    (⟨.countdownCondition x, scope, m⟩ : Evaluation).result (evaluate limit (depth + 2)) =
      .ok (.value (.boolean (0 < v))) m := by
  have hzero : (⟨.literal (.number 0), scope, m⟩ : Evaluation).result (evaluate limit (depth + 1)) =
      .ok (.value (.number 0)) m := rfl
  have hresult := (trace_binary limit (c := ⟨.countdownCondition x, scope, m⟩) rfl
    (result_lookup hb limit depth) hzero).result
  have hnow : (Yield.box b).now m.store = .number v := hv
  rw [hnow] at hresult
  exact hresult

/-- An assignment whose part comes to a value. -/
theorem result_assign {e : Node} {y : Yield} {m' : Machine}
    (he : (⟨e, scope, m⟩ : Evaluation).result (evaluate limit depth) = .ok y m')
    (hy : (y.now m'.store).isStorable = true) :
    (⟨.assign x e, scope, m⟩ : Evaluation).result (evaluate limit (depth + 1)) =
      .ok (.value .void) { m' with store := m'.store.assignVar scope.vars x (y.now m'.store) } := by
  have hvalue : valueOf (evaluate limit depth) e scope m = .ok (y.now m'.store) m' := by
    refine (bind_of_ok he).trans ?_
    cases y <;> rfl
  refine (bind_of_ok hvalue).trans ?_
  rw [assignTo, if_pos hy]
  rfl

theorem result_dec (hb : (m.store.varsOf scope.vars).find? x = some b)
    (hv : m.store.read b = .number v) (limit depth : Nat) :
    (⟨.unary .dec (.lookup x), scope, m⟩ : Evaluation).result (evaluate limit (depth + 2)) =
      .ok (.value (.number (v - 1))) m := by
  have hvalue : valueOf (evaluate limit (depth + 1)) (.lookup x) scope m = .ok (.number v) m := by
    refine (bind_of_ok (result_lookup hb limit depth)).trans ?_
    exact congrArg (EStateM.Result.ok · m) hv
  exact bind_of_ok hvalue

/-- A box with a value of the same variant is overwritten. -/
theorem Store.assignVar_eq_write {s : Store} {r : VarsRef} {w : Value}
    (hb : (s.varsOf r).find? x = some b) (hw : (s.read b).variant = w.variant) :
    s.assignVar r x w = s.write b w := by
  simp only [assignVar, settle, hb, if_pos hw, if_true]

theorem result_countdownIncrement (hb : (m.store.varsOf scope.vars).find? x = some b)
    (hv : m.store.read b = .number v) (limit depth : Nat) :
    (⟨.countdownIncrement x, scope, m⟩ : Evaluation).result (evaluate limit (depth + 3)) =
      .ok (.value .void) { m with store := m.store.write b (.number (v - 1)) } := by
  have hvariant : (m.store.read b).variant = (Value.number (v - 1)).variant := by rw [hv]; rfl
  rw [← Store.assignVar_eq_write hb hvariant]
  exact result_assign (result_dec hb hv limit depth) rfl

/-- The counter `x` of the scope stands at `k`. -/
structure Counting (x : String) (k : Nat) (scope : Scope) (m : Machine) : Prop where
  sound : m.store.Sound keptNone
  stands : ∃ b v, (m.store.varsOf scope.vars).find? x = some b ∧ m.store.read b = .number v ∧
    Number.whole? v = some (k : Int)

namespace Counting

variable {k : Nat}

/-- A copy of the scope has the same counter. -/
theorem copied (h : Counting x k scope m) :
    Counting x k (m.store.copyScope scope).1 (m.copied scope) := by
  obtain ⟨b, v, hb, hv, hk⟩ := h.stands
  exact ⟨(h.sound.copyScope scope).sound, b, v, m.varsOf_copied scope ▸ hb, hv, hk⟩

/-- A counter that stands at zero ends the loop. -/
theorem condition_zero (h : Counting x 0 scope m) (limit depth : Nat) :
    (⟨.countdownCondition x, scope, m⟩ : Evaluation).result (evaluate limit (depth + 2)) =
      .ok (.value (.boolean false)) m := by
  obtain ⟨b, v, hb, hv, hk⟩ := h.stands
  rw [result_countdownCondition hb hv, decide_eq_false (Number.not_pos_of_whole? hk)]

theorem condition_succ (h : Counting x (k + 1) scope m) (hk : k + 1 < 2 ^ 53) (limit depth : Nat) :
    (⟨.countdownCondition x, scope, m⟩ : Evaluation).result (evaluate limit (depth + 2)) =
      .ok (.value (.boolean true)) m := by
  obtain ⟨b, v, hb, hv, hwhole⟩ := h.stands
  have hpos := Number.pos_of_whole? hwhole (Nat.succ_pos k) hk
  rw [result_countdownCondition hb hv, decide_eq_true hpos]

/-- The increment takes one off the counter. -/
theorem increment (h : Counting x (k + 1) scope m) (hk : k + 1 < 2 ^ 53) (limit depth : Nat) :
    ∃ m', (⟨.countdownIncrement x, scope, m⟩ : Evaluation).result (evaluate limit (depth + 3)) =
        .ok (.value .void) m' ∧ Counting x k scope m' ∧ m'.store.vars = m.store.vars := by
  obtain ⟨b, v, hb, hv, hwhole⟩ := h.stands
  have hless : Number.whole? (v - 1) = some (k : Int) :=
    Number.whole?_sub_one hwhole (Nat.succ_pos k) hk
  have hvariant : (m.store.read b).variant = (Value.number (v - 1)).variant := by rw [hv]; rfl
  have hread : (m.store.write b (.number (v - 1))).read b = .number (v - 1) := by
    rw [Store.read_write, if_pos ⟨rfl, h.sound.bound ⟨_, hb⟩⟩]
  have hsolid : (Value.number (v - 1)).Solid keptNone m.store.vars.size := trivial
  exact ⟨_, result_countdownIncrement hb hv limit depth,
    ⟨(h.sound.write hsolid hvariant).sound, b, v - 1, hb, hread, hless⟩, rfl⟩

end Counting

/-- Of the parts `ds`, which are made behind `m`, the bodies are `es`. -/
structure Bodies (ss : List Statement) (m : Machine) (ds es : List Evaluation) : Prop where
  mem_iff : ∀ d, d ∈ es ↔ d ∈ ds ∧ d.node = .block ss
  later : ∀ d ∈ es, m.store.vars.size < d.machine.store.vars.size
  nodup : es.Nodup

variable {ss : List Statement} {inner : Scope} {test : Node} {m₁ : Machine}

/-- The last round has no body. -/
theorem Bodies.nil (htest : ∀ us, test ≠ .block us) (m : Machine) :
    Bodies ss m [⟨test, inner, m₁⟩] [] where
  mem_iff d := by
    simp only [List.not_mem_nil, false_iff, List.mem_singleton, not_and]
    rintro rfl
    exact htest ss
  later := List.forall_mem_nil _
  nodup := .nil

/-- A round before others. -/
theorem Bodies.cons {increment : Node} {m₂ m₃ : Machine} {ds es : List Evaluation}
    (h : Bodies ss m₃ ds es) (htest : ∀ us, test ≠ .block us)
    (hincrement : ∀ us, increment ≠ .block us) (hlt : m.store.vars.size < m₁.store.vars.size)
    (hle : m₁.store.vars.size ≤ m₃.store.vars.size) :
    Bodies ss m ([⟨test, inner, m₁⟩, ⟨.block ss, inner, m₁⟩, ⟨increment, inner, m₂⟩] ++ ds)
      (⟨.block ss, inner, m₁⟩ :: es) where
  mem_iff d := by
    simp only [List.mem_cons, List.cons_append, List.nil_append, h.mem_iff]
    constructor
    · rintro (rfl | ⟨hd, hn⟩)
      · exact ⟨.inr (.inl rfl), rfl⟩
      · exact ⟨.inr (.inr (.inr hd)), hn⟩
    · rintro ⟨rfl | rfl | rfl | hd, hn⟩
      · exact absurd hn (htest ss)
      · exact .inl rfl
      · exact absurd hn (hincrement ss)
      · exact .inr ⟨hd, hn⟩
  later d hd := by
    rcases List.mem_cons.mp hd with rfl | hd
    · exact hlt
    · exact Nat.lt_trans (Nat.lt_of_lt_of_le hlt hle) (h.later d hd)
  nodup := List.nodup_cons.mpr ⟨fun hmem => Nat.not_lt.mpr hle (h.later _ hmem), h.nodup⟩

/-- With `ev` the body ends with a value that is no signal, and the counter is as it was. -/
def Steady (ev : Evaluator) (x : String) (d : Evaluation) : Prop :=
  ∃ y m', d.result ev = .ok y m' ∧ (y.now m'.store).isStorable = true ∧
    d.machine.store.vars.size ≤ m'.store.vars.size ∧
    ∀ k, Counting x k d.scope d.machine → Counting x k d.scope m'

/-- **A counter that stands at `k` leads to `k` rounds**, if the bodies are steady. -/
theorem trace_countdown {k n : Nat} (hcount : Counting x k scope m) (hk : k < 2 ^ 53) (hn : k < n)
    (hbody : ∀ d, Matters (evaluate limit (depth + 3))
        (forRounds (.countdownCondition x) (.countdownIncrement x) ss n scope) m d →
      d.node = .block ss → (∀ b o, d.machine.store.read b = .object o → o.vars ≠ d.scope.vars) →
      Steady (evaluate limit (depth + 3)) x d) :
    ∃ ds es m', Trace (evaluate limit (depth + 3))
        (forRounds (.countdownCondition x) (.countdownIncrement x) ss n scope) m ds
        (.ok (.value .void) m') ∧ es.length = k ∧ Bodies ss m ds es := by
  induction k generalizing n scope m with
  | zero =>
    obtain ⟨n, rfl⟩ : ∃ n', n = n' + 1 := ⟨n - 1, by omega⟩
    have htest := hcount.copied.condition_zero limit (depth + 1)
    have hne : ∀ us, Node.countdownCondition x ≠ .block us := nofun
    exact ⟨_, [], _, trace_forRounds_last htest n, rfl, .nil hne m⟩
  | succ k ih =>
    obtain ⟨n, rfl⟩ : ∃ n', n = n' + 1 := ⟨n - 1, by omega⟩
    have hsucc := forRounds_succ (.countdownCondition x) (.countdownIncrement x) ss n scope m
    have htest := hcount.copied.condition_succ hk limit (depth + 1)
    obtain ⟨y, m₂, hr, hy, hle, hkeeps⟩ := hbody _ ((matters_forRound htest).bind.after hsucc) rfl
      fun _ _ => hcount.sound.fresh_copied m scope
    obtain ⟨m₃, hstep, hcount₃, hvars⟩ := (hkeeps _ hcount.copied).increment hk limit depth
    have hround := trace_forRound htest hr hy hstep
    obtain ⟨ds, es, m', htrace, hlength, hbodies⟩ := ih hcount₃ (Nat.lt_of_succ_lt hk)
      (Nat.lt_of_succ_lt_succ hn) fun d hd => hbody d ((hround.matters_bind hd).after hsucc)
    have hlt : m.store.vars.size < (m.copied scope).store.vars.size :=
      m.size_copied scope ▸ Nat.lt_succ_self _
    exact ⟨_, ⟨.block ss, (m.store.copyScope scope).1, m.copied scope⟩ :: es, m',
      trace_forRounds hround htrace, congrArg Nat.succ hlength,
      hbodies.cons nofun nofun hlt (hvars ▸ hle)⟩

end Counter

/-! ## Countdown loops -/

section Loop

variable {limit depth : Nat} {c d : Evaluation} {x : String} {m : Machine} {y : Yield}

/-- No countdown loop with this counter is started in the course of the evaluation, in a scope with
the same box for it. -/
def NotRestarted (limit depth : Nat) (x : String) (d : Evaluation) : Prop :=
  ∀ depth' e n ss, Involves limit depth d depth' e → e.node = .countdown x n ss →
    (e.machine.store.varsOf e.scope.vars).find? x ≠ (d.machine.store.varsOf d.scope.vars).find? x

/-- The node is no countdown loop with this counter. -/
def Node.NoCountdown (x : String) (n : Node) : Prop :=
  n.counter? ≠ some x

instance (x : String) : DecidablePred (Node.NoCountdown x) := fun n =>
  inferInstanceAs (Decidable (n.counter? ≠ some x))

theorem Node.hereditary_noCountdown (x : String) : Hereditary (Node.NoCountdown x) where
  body _ _ := (Option.some_ne_none x).symm
  value _ := (Option.some_ne_none x).symm

/-- If nothing in a body, and nothing that is declared, is a countdown loop with this counter, the
loop is not started again. -/
theorem NotRestarted.of_all (hd : d.Fair) (hall : d.All (Node.NoCountdown x)) :
    NotRestarted limit depth x d := by
  intro depth' e n ss hinvolves hloop
  suffices h : e.All (Node.NoCountdown x) from
    absurd (congrArg Node.counter? hloop) (Node.all_iff.mp h.node).1
  clear hloop
  have hP := Node.hereditary_noCountdown x
  induction hinvolves with
  | self => exact hall
  | part hmakes _ ih => exact ih (hd.part hmakes).1 (hd.all_made hP (hall.below hP) hmakes)

variable {ss : List Statement} {k : Nat} {count : Node}

/-- A body leaves the counter alone, unless the loop is started again. -/
theorem Evaluation.Fair.counting (hd : d.Fair) (hall : d.All Node.KeepsCounters) (hx : IsCounter x)
    (hn : d.node = .block ss)
    (hfresh : ∀ b o, d.machine.store.read b = .object o → o.vars ≠ d.scope.vars)
    (honce : NotRestarted limit depth x d) (hr : d.result (evaluate limit depth) = .ok y m)
    (hcount : Counting x k d.scope d.machine) : Counting x k d.scope m := by
  obtain ⟨b, v, hb, hv, hk⟩ := hcount.stands
  have hassign : ∀ z e, d.node ≠ .assign z e := fun z e heq => nomatch hn.symm.trans heq
  have hsound := ((agree_evaluate keptNone limit depth hd.ready).of_ok hr).1.sound
  -- the table is kept: no object has it
  have htidy : d.node.TidyStatement := by
    rcases hd.ready.node with htidy | ⟨w, hw, -⟩
    · exact htidy
    · exact nomatch hn.symm.trans hw
  have hkeep : Ready (· = d.scope.vars) d.node d.scope d.machine.store :=
    ⟨⟨hd.ready.sound.keep hd.ready.scope_lt hfresh, hd.ready.scope_lt⟩, .inl htidy,
      fun z e he => absurd he (hassign z e)⟩
  have hvars := ((agree_evaluate _ limit depth hkeep).of_ok hr).1.varsOf_eq rfl
  -- the box is not overwritten
  have hguards : d.Guards b x := ⟨hd, hall, hcount.sound.belongsTo ⟨_, hb⟩, hx⟩
  have hread : m.store.read b = d.machine.store.read b := by
    rcases hd.read_eq_or_overwritten hguards.belongs.lt limit depth with hsame | hwritten
    · rwa [Evaluation.outcome, machine_of_ok hr] at hsame
    · obtain ⟨depth', e, n, us, hinvolves, hloop, hfind⟩ := hguards.restarted (hassign x) hwritten
      exact absurd (hfind.trans hb.symm) (honce depth' e n us hinvolves hloop)
  exact ⟨hsound, b, v, hvars.symm ▸ hb, hread.trans hv, hk⟩

/-- What is assigned to a name is what the name has then. -/
theorem Store.Sound.assigned {kept : VarsRef → Prop} {s : Store} (h : s.Sound kept) {r : VarsRef}
    (hr : r.id < s.vars.size) (x : String) (v : Value) :
    ∃ b, ((s.assignVar r x v).varsOf r).find? x = some b ∧ (s.assignVar r x v).read b = v := by
  rcases h.assignVar_cases r x v with ⟨b, hb, -, heq⟩ | ⟨-, heq⟩
  · refine ⟨b, heq ▸ hb, ?_⟩
    rw [heq, read_write, if_pos ⟨rfl, h.bound ⟨r, hb⟩⟩]
  · refine ⟨(s.newBox v).1, ?_, ?_⟩
    · rw [heq, varsOf_putVar, if_pos ⟨rfl, hr⟩, Table.find?_insert, if_pos rfl]
    · rw [heq]
      exact (read_newBox ..).trans (if_pos rfl)

/-- The evaluation of a tree in a copy of the scope. -/
def Evaluation.inCopy (c : Evaluation) (n : Node) : Evaluation :=
  ⟨n, (c.machine.store.copyScope c.scope).1, c.machine.copied c.scope⟩

theorem step_countdown (hn : c.node = .countdown x count ss) (limit : Nat) (ev : Evaluator) :
    step limit ev c.node c.scope c.machine =
      (ev (.countdownInit x count) (c.machine.store.copyScope c.scope).1 >>= fun _ =>
        forRounds (.countdownCondition x) (.countdownIncrement x) ss limit
          (c.machine.store.copyScope c.scope).1 ev) (c.machine.copied c.scope) := by
  rw [hn]
  rfl

/-- An assignment makes the evaluation of what is assigned. -/
theorem makes_assigned {e : Node} (hn : c.node = .assign x e) (ev : Evaluator) :
    Makes limit ev c ⟨e, c.scope, c.machine⟩ := by
  refine Matters.makes fun f m' _ => ?_
  rw [hn]
  exact bind_of_error (bind_of_error (result_stopped ev ⟨e, c.scope, c.machine⟩ f m'))

/-- Behind its first part, the counter of a countdown loop stands at its count. -/
theorem Evaluation.Fair.counting_init (hc : c.Fair) (hn : c.node = .countdown x count ss)
    (hcount : (c.inCopy count).result (evaluate limit depth) = .ok y m) {v : Float}
    (hv : y.now m.store = .number v) (hk : Number.whole? v = some (k : Int)) :
    ∃ m', (c.inCopy (.countdownInit x count)).result (evaluate limit (depth + 1)) =
      .ok (.value .void) m' ∧ Counting x k (c.inCopy (.countdownInit x count)).scope m' := by
  have hmakes : Makes limit (evaluate limit (depth + 1)) c (c.inCopy (.countdownInit x count)) :=
    Matters.makes ((Matters.part _ _).bind.after (step_countdown hn limit))
  have hinit := (hc.part hmakes).1
  have hpart := (hinit.part (makes_assigned rfl (evaluate limit depth))).1
  obtain ⟨hevolves, -⟩ := (agree_evaluate keptNone limit depth hpart.ready).of_ok hcount
  have hresult := result_assign (x := x) hcount (hv ▸ rfl)
  obtain ⟨hevolves', -⟩ := (agree_evaluate keptNone limit (depth + 1) hinit.ready).of_ok hresult
  obtain ⟨b, hb, hread⟩ := hevolves.sound.assigned
    (Nat.lt_of_lt_of_le hinit.scope.vars_lt hevolves.vars_le) x (y.now m.store)
  exact ⟨_, hresult, hevolves'.sound, b, v, hb, hread.trans hv, hk⟩

/-- The loop evaluates its body `n` times, each time anew. -/
def Evaluation.RunsBody (limit depth : Nat) (c : Evaluation) (ss : List Statement) (n : Nat) : Prop :=
  ∃ ds : List Evaluation, ds.length = n ∧ ds.Nodup ∧
    ∀ d, d ∈ ds ↔ Makes limit (evaluate limit depth) c d ∧ d.node = .block ss

/-- The bodies are those behind the first part. -/
theorem Bodies.runsBody {ds es : List Evaluation} {r : EStateM.Result Failure Machine Yield}
    (h : Bodies ss m ds es)
    (htrace : Trace (evaluate limit depth) (fun ev => step limit ev c.node c.scope) c.machine
      (d :: ds) r) (hd : ∀ us, d.node ≠ .block us) : c.RunsBody limit depth ss es.length := by
  refine ⟨es, rfl, h.nodup, fun e => ?_⟩
  rw [htrace.makes_iff, h.mem_iff, List.mem_cons]
  refine and_congr_left fun hblock => ⟨.inr, fun hmem => hmem.resolve_left ?_⟩
  rintro rfl
  exact hd ss hblock

end Loop

/-- **A countdown loop runs its body as often as its count says, unless its body starts it again.** Let
the count of a countdown loop in a parsed program come to a whole number `N` below `2 ^ 53`, with more
rounds allowed than that. Let each evaluation of the body end with a value that is no signal, and start
no countdown loop with the same counter in a scope that has the same box for it. Then the loop ends,
and has evaluated its body `N` times. -/
theorem countdown_rounds {loader : Option Loader} {source : String} {ss : List Statement}
    (hparse : Parser.parseProgram loader source = .ok ss) {limits : Limits} {console : Console}
    {depth : Nat} {c : Evaluation} (hc : InRun limits ss console (depth + 4) c) {x : String}
    {count : Node} {body : List Statement} (hn : c.node = .countdown x count body)
    {y : Yield} {m : Machine} {v : Float} {N : Nat}
    (hcount : (c.inCopy count).result (evaluate limits.rounds (depth + 2)) = .ok y m)
    (hv : y.now m.store = .number v) (hN : Number.whole? v = some (N : Int)) (hlt : N < 2 ^ 53)
    (hlimit : N < limits.rounds)
    (hends : ∀ d, Makes limits.rounds (evaluate limits.rounds (depth + 3)) c d →
      d.node = .block body → ∃ z m', d.result (evaluate limits.rounds (depth + 3)) = .ok z m' ∧
        (z.now m'.store).isStorable = true)
    (honce : ∀ d, Makes limits.rounds (evaluate limits.rounds (depth + 3)) c d →
      d.node = .block body → NotRestarted limits.rounds (depth + 3) x d) :
    (∃ m', c.result (evaluate limits.rounds (depth + 4)) = .ok (.value .void) m') ∧
      c.RunsBody limits.rounds (depth + 3) body N := by
  have hfair := hc.fair (Parser.tidyBlock_parseProgram hparse)
  have hall := hc.all (Parser.tidyBlock_parseProgram hparse) Node.hereditary_keepsCounters
    (Parser.wellFormed_parseProgram hparse).countless.all
  have hbelow := hall.below Node.hereditary_keepsCounters
  have hx := (Node.all_iff.mp hall.node).1.counter hn
  obtain ⟨m₁, hinit, hcounting⟩ := hfair.counting_init hn hcount hv hN
  have hstep := step_countdown hn limits.rounds
  obtain ⟨ds, es, m', htrace, rfl, hbodies⟩ := trace_countdown hcounting hlt hlimit
    fun d hd hblock hfresh => by
      have hmakes := (((Trace.part hinit).matters_bind hd).after hstep).makes
      have hd := (hfair.part hmakes).1
      have hdall := hfair.all_made Node.hereditary_keepsCounters hbelow hmakes
      obtain ⟨z, m', hr, hz⟩ := hends d hmakes hblock
      have hw := (hd.widens limits.rounds (depth + 3)).1
      rw [Evaluation.outcome, machine_of_ok hr] at hw
      exact ⟨z, m', hr, hz, hw.vars_le, fun k =>
        hd.counting hdall hx hblock hfresh (honce d hmakes hblock) hr⟩
  have hwhole := (Trace.part_bind hinit htrace).after hstep
  exact ⟨⟨m', hwhole.result⟩, hbodies.runsBody hwhole fun _ => Node.noConfusion⟩

/-! ## A loop with two rounds -/

/-- The place of a stretch of a text with one line. -/
def inLine (start stop : Nat) : Option Position :=
  some (.ofSpan ⟨1, start⟩ ⟨1, stop⟩)

theorem Number.ofDigits_two : Number.ofDigits ['2'] = 2 := by
  decide +kernel

/-- The body of the loop `for(2){print("a");}`. -/
def twiceBody : List Statement :=
  [.mk (inLine 8 13) (.print (.literal (.string "a")))]

def twiceProgram (two : Float) : List Statement :=
  [.mk (inLine 1 4) (.countdown "#0" (.literal (.number two)) twiceBody)]

theorem parse_twice :
    Parser.parseProgram none "for(2)\x7bprint(\"a\");\x7d" = .ok (twiceProgram 2) := by
  have hparse : Parser.parseProgram none "for(2)\x7bprint(\"a\");\x7d" =
      .ok (twiceProgram (Number.ofDigits ['2'])) := rfl
  rwa [Number.ofDigits_two] at hparse

/-- The loop. -/
def twiceLoop : Evaluation where
  node := .countdown "#0" (.literal (.number 2)) twiceBody
  scope := ⟨⟨1⟩, ⟨1⟩, ⟨1⟩⟩
  machine :=
    { store := { vars := #[{}, {}], funs := #[{}, {}], classes := #[{}, {}] }, console := default }

theorem inRun_twiceLoop : InRun ⟨20, 20⟩ (twiceProgram 2) default 19 twiceLoop := by
  have hfirst : InRun ⟨20, 20⟩ (twiceProgram 2) default 20 _ := .first
  have hfair := hfirst.fair (Parser.tidyBlock_parseProgram parse_twice)
  have hnothing : block (evaluate 20 19) [] (firstEvaluation (twiceProgram 2) default).scope
      (firstEvaluation (twiceProgram 2) default).machine = .ok (.value .void) twiceLoop.machine := rfl
  exact .part hfirst (hfair.makes_statement rfl (fun _ _ _ => Node.noConfusion) hnothing rfl)

/-- There is no other loop below it. -/
theorem allBelow_twiceLoop : twiceLoop.AllBelow (Node.NoCountdown "#0") := by
  have hparts : twiceLoop.node.parts.all (Node.allTo (Node.NoCountdown "#0") 3) = true := rfl
  have hprint : Node.allTo (Node.NoCountdown "#0") 2 (.print (.literal (.string "a"))) = true := rfl
  have hempty : Store.Stocked (Node.NoCountdown "#0") {} := Store.stocked_empty
  refine ⟨⟨fun hpart => .of_allTo (List.all_eq_true.mp hparts _ hpart), fun hss => ?_⟩, ?_⟩
  · refine Node.all_iff.mpr ⟨(Option.some_ne_none "#0").symm, fun part hpart => ?_⟩
    obtain ⟨s, hs, rfl⟩ := List.mem_map.mp hpart
    obtain rfl := List.mem_singleton.mp (Node.mem_statements_of_mem_bodies hss hs)
    exact .of_allTo hprint
  · exact ((hempty.copyScope ⟨⟨0⟩, ⟨0⟩, ⟨0⟩⟩).copyScope ⟨⟨0⟩, ⟨0⟩, ⟨0⟩⟩).of_eq rfl rfl

/-- The loop of `for(2){print("a");}` evaluates its body twice. -/
theorem countdown_rounds_twice :
    Parser.parseProgram none "for(2)\x7bprint(\"a\");\x7d" = .ok (twiceProgram 2) ∧
      InRun ⟨20, 20⟩ (twiceProgram 2) default 19 twiceLoop ∧
      (∃ m, twiceLoop.result (evaluate 20 19) = .ok (.value .void) m) ∧
      twiceLoop.RunsBody 20 18 twiceBody 2 := by
  have hfair := inRun_twiceLoop.fair (Parser.tidyBlock_parseProgram parse_twice)
  have hcount : (twiceLoop.inCopy (.literal (.number 2))).result (evaluate 20 17) =
      .ok (.value (.number 2)) _ := rfl
  have hP := Node.hereditary_noCountdown "#0"
  refine ⟨parse_twice, inRun_twiceLoop, countdown_rounds parse_twice inRun_twiceLoop rfl hcount rfl
    (by decide) (by decide) (by decide) ?_ fun d hd _ =>
      .of_all (hfair.part hd).1 (hfair.all_made hP allBelow_twiceLoop hd)⟩
  rintro ⟨n, scope, m⟩ - hn
  obtain rfl : n = .block twiceBody := hn
  exact ⟨_, _, rfl, rfl⟩

/-! ## A loop that is started again -/

theorem Number.ofDigits_zero : Number.ofDigits ['0'] = 0 := by
  decide +kernel

/-- The machine with a copy of the variables, as a call makes it. -/
def Machine.called (m : Machine) (scope : Scope) : Machine :=
  { m with store := (m.store.newVars (m.store.varsOf scope.vars)).2 }

variable {ev : Evaluator} {d : Evaluation} {m : Machine} {x : String} {b : BoxRef}

/-- The argument of a call with one parameter. -/
theorem Trace.argument {y : Yield} {r : VarsRef} (param : String) (hd : d.result ev = .ok y m)
    (hy : (y.now m.store).isStorable = true) :
    Trace ev (fun ev => bindArguments ev d.scope r [param] [d.node]) d.machine [d]
      (.ok () { m with store := m.store.bindNew r param (y.now m.store) }) := by
  have hcopy : ∀ v : Value, v.isStorable = true → ofExcept v.copy m = .ok v m := by
    intro v hv
    cases v with
    | ret e => exact nomatch hv
    | _ => rfl
  exact .bind (.bind ((Trace.valueOf hd).bind (.done fun _ => hcopy _ hy)) (.done fun _ => rfl))
    (.pure ())

/-- A loop that is started again by its body. -/
def restartedText : String :=
  "fun f(n)\x7bfor(n)\x7bprint(\"x\");f(0);\x7d\x7df(2);"

/-- The body of the loop. -/
def restartedBody (zero : Float) : List Statement :=
  [.mk (inLine 17 22) (.print (.literal (.string "x"))),
   .mk (inLine 28 29) (.functionCall "f" [.literal (.number zero)])]

def restartedFunction (zero : Float) : Function where
  params := ["n"]
  body := [.mk (inLine 10 13) (.countdown "#0" (.lookup "n") (restartedBody zero))]

def restartedProgram (two zero : Float) : List Statement :=
  [.mk (inLine 1 4) (.functionDef "f" ["n"] (restartedFunction zero).body),
   .mk (inLine 35 36) (.functionCall "f" [.literal (.number two)])]

theorem parse_restarted :
    Parser.parseProgram none restartedText = .ok (restartedProgram 2 0) := by
  have hparse : Parser.parseProgram none restartedText =
      .ok (restartedProgram (Number.ofDigits ['2']) (Number.ofDigits ['0'])) := rfl
  rwa [Number.ofDigits_two, Number.ofDigits_zero] at hparse

/-- The call of the function. -/
def restartedCall : Evaluation where
  node := .functionCall "f" [.literal (.number 2)]
  scope := ⟨⟨1⟩, ⟨1⟩, ⟨1⟩⟩
  machine :=
    { store :=
        { vars := #[{}, {}], funs := #[{}, ⟨[("f", restartedFunction 0)]⟩], classes := #[{}, {}] }
      console := default }

/-- The body of the function. -/
def restartedBlock : Evaluation where
  node := .block (restartedFunction 0).body
  scope := ⟨⟨2⟩, ⟨1⟩, ⟨1⟩⟩
  machine :=
    { store :=
        { boxes := #[.number 2], vars := #[{}, {}, ⟨[("n", ⟨0⟩)]⟩]
          funs := #[{}, ⟨[("f", restartedFunction 0)]⟩], classes := #[{}, {}] }
      console := default }

/-- The loop. -/
def restartedLoop : Evaluation where
  node := .countdown "#0" (.lookup "n") (restartedBody 0)
  scope := ⟨⟨3⟩, ⟨2⟩, ⟨2⟩⟩
  machine :=
    { store :=
        { boxes := #[.number 2], vars := #[{}, {}, ⟨[("n", ⟨0⟩)]⟩, ⟨[("n", ⟨0⟩)]⟩]
          funs := #[{}, ⟨[("f", restartedFunction 0)]⟩, ⟨[("f", restartedFunction 0)]⟩]
          classes := #[{}, {}, {}] }
      console := default }

/-- The loop is evaluated in the run. -/
theorem inRun_restartedLoop :
    InRun ⟨20, 20⟩ (restartedProgram 2 0) default 17 restartedLoop := by
  have hss := Parser.tidyBlock_parseProgram parse_restarted
  have hfirst : InRun ⟨20, 20⟩ (restartedProgram 2 0) default 20 _ := .first
  have hbefore : block (evaluate 20 19)
      [.mk (inLine 1 4) (.functionDef "f" ["n"] (restartedFunction 0).body)]
      (firstEvaluation (restartedProgram 2 0) default).scope
      (firstEvaluation (restartedProgram 2 0) default).machine =
      .ok (.value .void) restartedCall.machine := rfl
  have hcall : InRun ⟨20, 20⟩ (restartedProgram 2 0) default 19 restartedCall :=
    .part hfirst ((hfirst.fair hss).makes_statement rfl (fun _ _ _ => Node.noConfusion) hbefore rfl)
  have hblock : InRun ⟨20, 20⟩ (restartedProgram 2 0) default 18 restartedBlock := by
    refine .part hcall (Matters.makes ?_)
    have hargument : (⟨.literal (.number 2), restartedCall.scope, restartedCall.machine.called
        restartedCall.scope⟩ : Evaluation).result (evaluate 20 18) = .ok (.value (.number 2)) _ := rfl
    have hbound := Trace.argument (r := ⟨2⟩) "n" hargument rfl
    exact (hbound.matters_bind (Matters.part _ restartedBlock).bind).after fun _ => rfl
  have hnothing : block (evaluate 20 17) [] restartedBlock.scope restartedBlock.machine =
      .ok (.value .void) restartedLoop.machine := rfl
  exact .part hblock ((hblock.fair hss).makes_statement rfl (fun _ _ _ => Node.noConfusion) hnothing rfl)

/-- The machine when the loop has stored its count. -/
def restartedStart : Machine where
  store :=
    { boxes := #[.number 2, .number 2]
      vars := #[{}, {}, ⟨[("n", ⟨0⟩)]⟩, ⟨[("n", ⟨0⟩)]⟩, ⟨[("n", ⟨0⟩), ("#0", ⟨1⟩)]⟩]
      funs := #[{}, ⟨[("f", restartedFunction 0)]⟩, ⟨[("f", restartedFunction 0)]⟩,
        ⟨[("f", restartedFunction 0)]⟩]
      classes := #[{}, {}, {}, {}] }
  console := default

theorem result_restartedInit :
    (restartedLoop.inCopy (.countdownInit "#0" (.lookup "n"))).result (evaluate 20 16) =
      .ok (.value .void) restartedStart :=
  rfl

/-- The first round of the loop. -/
def restartedRound : Evaluation :=
  ⟨.block (restartedBody 0), (restartedStart.store.copyScope ⟨⟨4⟩, ⟨3⟩, ⟨3⟩⟩).1,
    restartedStart.copied ⟨⟨4⟩, ⟨3⟩, ⟨3⟩⟩⟩

/-- The round ends with a value that is no signal, and in its scope the counter is then positive or
not, when one is taken off it. -/
def roundTest (d : Evaluation) (ev : Evaluator) (x : String) (b : BoxRef) (positive : Bool) : Bool :=
  match d.result ev with
  | .ok y m =>
    (y.now m.store).isStorable && decide (d.machine.store.vars.size ≤ m.store.vars.size) &&
      (m.store.varsOf d.scope.vars).find? x == some b && decide (b.id < m.store.boxes.size) &&
      match m.store.read b with
      | .number v => decide (0 < v - 1) == positive
      | _ => false
  | .error _ _ => false

/-- What a test of a round shows. -/
theorem exists_of_roundTest {positive : Bool} (h : roundTest d ev x b positive = true) :
    ∃ y m v, d.result ev = .ok y m ∧ (y.now m.store).isStorable = true ∧
      d.machine.store.vars.size ≤ m.store.vars.size ∧
      (m.store.varsOf d.scope.vars).find? x = some b ∧ b.id < m.store.boxes.size ∧
      m.store.read b = .number v ∧ decide (0 < v - 1) = positive := by
  unfold roundTest at h
  split at h
  · rename_i y m hr
    simp only [Bool.and_eq_true, beq_iff_eq, decide_eq_true_eq] at h
    obtain ⟨⟨⟨⟨hy, hle⟩, hb⟩, hlt⟩, h⟩ := h
    split at h
    · rename_i v hv
      exact ⟨y, m, v, hr, hy, hle, hb, hlt, hv, beq_iff_eq.mp h⟩
    · exact nomatch h
  · exact nomatch h

theorem roundTest_restarted : roundTest restartedRound (evaluate 20 16) "#0" ⟨1⟩ false = true := by
  decide +kernel

/-- A loop that has its first round and no other. -/
theorem trace_once {limit depth n : Nat} {ss : List Statement} {scope : Scope} {w : Float}
    (hb : ((m.copied scope).store.varsOf (m.store.copyScope scope).1.vars).find? x = some b)
    (hw : (m.copied scope).store.read b = .number w) (hpos : decide (0 < w) = true)
    (htest : roundTest ⟨.block ss, (m.store.copyScope scope).1, m.copied scope⟩
      (evaluate limit (depth + 3)) x b false = true) :
    ∃ ds m', Trace (evaluate limit (depth + 3))
        (forRounds (.countdownCondition x) (.countdownIncrement x) ss (n + 2) scope) m ds
        (.ok (.value .void) m') ∧
      Bodies ss m ds [⟨.block ss, (m.store.copyScope scope).1, m.copied scope⟩] := by
  obtain ⟨y, m₂, v, hr, hy, hle, hb₂, hlt, hv, hdone⟩ := exists_of_roundTest htest
  have hread : (m₂.store.write b (.number (v - 1))).read b = .number (v - 1) := by
    rw [Store.read_write, if_pos ⟨rfl, hlt⟩]
  have hstep := result_countdownIncrement hb₂ hv limit depth
  generalize hm₃ : ({ m₂ with store := m₂.store.write b (.number (v - 1)) } : Machine) = m₃ at hstep
  have hgoes := result_countdownCondition hb hw limit (depth + 1)
  rw [hpos] at hgoes
  have hends : (⟨.countdownCondition x, (m₃.store.copyScope (m.store.copyScope scope).1).1,
      m₃.copied (m.store.copyScope scope).1⟩ : Evaluation).result (evaluate limit (depth + 3)) =
      .ok (.value (.boolean false)) (m₃.copied (m.store.copyScope scope).1) := by
    subst hm₃
    rw [← hdone]
    refine result_countdownCondition ?_ hread limit (depth + 1)
    rw [Machine.varsOf_copied]
    exact hb₂
  have hne : ∀ us, Node.countdownCondition x ≠ .block us := nofun
  refine ⟨_, _, trace_forRounds (trace_forRound hgoes hr hy hstep) (trace_forRounds_last hends n),
    (Bodies.nil hne m₃).cons hne nofun ?_ ?_⟩
  · exact m.size_copied scope ▸ Nat.lt_succ_self _
  · exact hm₃ ▸ hle

/-- **A loop that is started again runs its body less often.** In the program
`fun f(n){for(n){print("x");f(0);}}f(2);` the count of the loop comes to 2, and each evaluation of its
body ends with a value that is no signal. But there is only one: the body calls the function with 0,
and the loop that this starts counts in the same box. -/
theorem restarted_countdown :
    Parser.parseProgram none restartedText = .ok (restartedProgram 2 0) ∧
      InRun ⟨20, 20⟩ (restartedProgram 2 0) default 17 restartedLoop ∧
      restartedLoop.node = .countdown "#0" (.lookup "n") (restartedBody 0) ∧
      (∃ y m, (restartedLoop.inCopy (.lookup "n")).result (evaluate 20 15) = .ok y m ∧
        y.now m.store = .number 2 ∧ Number.whole? 2 = some 2) ∧
      (∀ d, Makes 20 (evaluate 20 16) restartedLoop d → d.node = .block (restartedBody 0) →
        ∃ z m, d.result (evaluate 20 16) = .ok z m ∧ (z.now m.store).isStorable = true) ∧
      (∃ m, restartedLoop.result (evaluate 20 17) = .ok (.value .void) m) ∧
      restartedLoop.RunsBody 20 16 (restartedBody 0) 1 := by
  have hb : (restartedRound.machine.store.varsOf restartedRound.scope.vars).find? "#0" = some ⟨1⟩ :=
    rfl
  have hw : restartedRound.machine.store.read ⟨1⟩ = .number 2 := rfl
  obtain ⟨ds, m, hrest, hbodies⟩ := trace_once (m := restartedStart) (n := 18) hb hw (by decide)
    roundTest_restarted
  have htrace := (Trace.part_bind result_restartedInit hrest).after
    (step_countdown (c := restartedLoop) rfl 20)
  refine ⟨parse_restarted, inRun_restartedLoop, rfl, ⟨_, _, rfl, rfl, by decide⟩, ?_,
    ⟨_, htrace.result⟩, hbodies.runsBody htrace nofun⟩
  intro d hmakes hn
  have hround : d = restartedRound := by
    rcases List.mem_cons.mp (htrace.makes_iff.mp hmakes) with rfl | hd
    · exact nomatch hn
    · exact List.mem_singleton.mp ((hbodies.mem_iff d).mpr ⟨hd, hn⟩)
  obtain ⟨z, m', -, hr, hz, -⟩ := exists_of_roundTest roundTest_restarted
  exact ⟨z, m', hround ▸ hr, hz⟩

end BoxScript
