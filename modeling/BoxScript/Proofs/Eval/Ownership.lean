import BoxScript.Proofs.Eval.Lasting
import BoxScript.Proofs.Parser.Program

/-!
# Who owns a box

While a program runs, a box is shared by tables only under one name, and a box in a slot is shared
with nothing. So an assignment is seen under its own name or in its own slot, and nowhere else. If a
literal is kept in a box, which it yields, this box is the literal's own: what is stored under a name
or in a slot is a copy of what it holds (`Store.Unbound`).

Results:
* `ComesUpOn.literals`: boxes of literals are bound nowhere, on any machine that a program runs on;
* **`boxes_owned`**, for every store that comes up while a parsed program runs.
-/

namespace BoxScript

open Eval

/-! ## Boxes of literals -/

namespace Store

variable {s P : Store} {b : BoxRef}

/-- No name is bound to the box, and it is in no slot. -/
structure Unbound (s : Store) (b : BoxRef) : Prop where
  names : ∀ r x, (s.varsOf r).find? x ≠ some b
  slots : ∀ q i, s.slot q i ≠ some b

/-- Behind a store there are no names and slots for its boxes. -/
theorem Unbound.behind (h : P.Unbound b) (hb : b.id < P.boxes.size) (s : Store) :
    (s.behind P).Unbound b := by
  have hne : ∀ b' : BoxRef, b'.behind P ≠ b := fun b' heq => by
    have hid : P.boxes.size + b'.id = b.id := congrArg BoxRef.id heq
    omega
  refine ⟨fun r x hx => ?_, fun q i hi => ?_⟩
  · rcases Nat.lt_or_ge r.id P.vars.size with hr | hr
    · have hfront : (s.behind P).varsOf r = P.varsOf r := by
        simp only [varsOf, Store.behind, Array.getD_eq_getD_getElem?]
        rw [Array.getElem?_append_left hr]
      exact h.names r x (hfront ▸ hx)
    · obtain ⟨i, hi⟩ := Nat.exists_eq_add_of_le hr
      obtain rfl : r = VarsRef.behind P ⟨i⟩ := congrArg VarsRef.mk hi
      rw [varsOf_behind, Table.find?_map] at hx
      obtain ⟨b', -, heq⟩ := Option.map_eq_some_iff.mp hx
      exact hne b' heq
  · rcases Nat.lt_or_ge q.id P.slots.size with hq | hq
    · have hfront : (s.behind P).slot q i = P.slot q i := by
        simp only [slot, slotsOf, Store.behind, Array.getD_eq_getD_getElem?]
        rw [Array.getElem?_append_left hq]
      exact h.slots q i (hfront ▸ hi)
    · obtain ⟨j, hj⟩ := Nat.exists_eq_add_of_le hq
      obtain rfl : q = SlotsRef.behind P ⟨j⟩ := congrArg SlotsRef.mk hj
      rw [slot, slot_behind] at hi
      obtain ⟨b', -, heq⟩ := Option.map_eq_some_iff.mp hi
      exact hne b' heq

/-- A value is put into the box that was there, or into a new one. -/
theorem read_settle_of_ne {current : Option BoxRef} (hne : current ≠ some b)
    (hb : b.id < s.boxes.size) (v : Value) : (s.settle current v).2.read b = s.read b := by
  rcases s.settle_cases current v with ⟨b', rfl, heq⟩ | heq
  · rw [heq, read_write]
    exact if_neg fun hsame => hne (congrArg some hsame.1.symm)
  · rw [heq, read_newBox_of_lt hb]

theorem Unbound.read_assignVar (h : s.Unbound b) (hb : b.id < s.boxes.size) (r : VarsRef)
    (x : String) (v : Value) : (s.assignVar r x v).read b = s.read b := by
  simp only [assignVar]
  split <;> exact read_settle_of_ne (h.names r x) hb v

theorem Unbound.read_assignSlot (h : s.Unbound b) (hb : b.id < s.boxes.size) (q : SlotsRef)
    (i : Nat) (v : Value) : (s.assignSlot q i v).read b = s.read b := by
  simp only [assignSlot]
  split <;> exact read_settle_of_ne (h.slots q i) hb v

end Store

section Literals

variable {held : Held} {P : Machine} {limits : Limits} {ss : List Statement} {s : Store}

/-- **All stores that come up are behind a front.** -/
theorem ComesUpOn.exists_behind (h : ComesUpOn held limits ss P s) (hP : P.store.Holds held)
    (hss : (Node.block ss).Handleless) :
    ∃ (s₀ : Store) (front : Machine), Fronts held P P.store.offsets front ∧
      s = s₀.behind front.store := by
  cases h with
  | start => exact ⟨{}, P, .refl hP, P.store.empty_behind.symm⟩
  | within he =>
    obtain ⟨-, -, m, front, -, -, hm⟩ := he.seen hP limits hss
    exact ⟨m.store, front, hm.fronts, congrArg Machine.store hm.eq_behind⟩
  | last =>
    obtain ⟨-, front, hfront, heq⟩ := runShared_eq hP limits hss
    exact ⟨_, front, hfront, congrArg Machine.store heq⟩

theorem Store.Backs.of_read {s s' : Store} {boxes : Value → Option BoxRef} (h : s.Backs boxes)
    (hsize : s.boxes.size ≤ s'.boxes.size)
    (hread : ∀ v b, boxes v = some b → s'.read b = s.read b) : s'.Backs boxes := by
  intro v b hb
  obtain ⟨hlt, hv⟩ := h v b hb
  exact ⟨Nat.lt_of_lt_of_le hlt hsize, (hread v b hb).trans hv⟩

/-- **Boxes of literals are bound nowhere**, so an assignment leaves the literals as they are. -/
theorem ComesUpOn.literals (h : ComesUpOn held limits ss P s) (hP : P.store.Holds held)
    (hss : (Node.block ss).Handleless)
    (hunbound : ∀ v b, held.boxes v = some b → P.store.Unbound b) :
    (∀ v b, held.boxes v = some b → s.Unbound b) ∧
      (∀ r x v, (s.assignVar r x v).Backs held.boxes) ∧
      ∀ q i v, (s.assignSlot q i v).Backs held.boxes := by
  obtain ⟨s₀, front, hfront, rfl⟩ := h.exists_behind hP hss
  have hbacks := (hfront.holds.behind s₀).backs
  have hfree : ∀ v b, held.boxes v = some b → (s₀.behind front.store).Unbound b := by
    intro v b hb
    have hfree : front.store.Unbound b := by
      obtain ⟨_, rfl⟩ := hfront.same
      exact ⟨(hunbound v b hb).names, (hunbound v b hb).slots⟩
    exact hfree.behind (hfront.holds.backs v b hb).1 s₀
  refine ⟨hfree, fun r x v => ?_, fun q i v => ?_⟩
  · exact hbacks.of_read (Store.boxes_le_assignVar _ r x v) fun w b hb =>
      (hfree w b hb).read_assignVar (hbacks w b hb).1 r x v
  · exact hbacks.of_read (Store.boxes_le_assignSlot _ q i v) fun w b hb =>
      (hfree w b hb).read_assignSlot (hbacks w b hb).1 q i v

end Literals

/-! ## Owners -/

/-- **Boxes have owners all along.** In every store that comes up while a parsed program runs, also if
the run fails later on, a box is bound to one name at most, and a box in a slot is in no other slot
and bound to no name. Therefore an assignment to a name or field changes no value that is seen under
another name or in a slot, and none that stands in a declaration, and an assignment to a slot changes
none that is seen under a name or in another slot.

If literals are kept in boxes, which they yield, the program gives what it gives without them, and no
such box is ever bound to a name or put in a slot. So the trees of the program stay as they are,
whatever is assigned to a name, a field or a slot. -/
theorem boxes_owned {loader : Option Loader} {source : String} {ss : List Statement}
    (hparse : Parser.parseProgram loader source = .ok ss) (limits : Limits) :
    (∀ {console s}, ComesUp limits ss console s →
      (∀ r r' x x' b, (s.varsOf r).find? x = some b → (s.varsOf r').find? x' = some b → x = x') ∧
      (∀ q i b, s.slot q i = some b → (∀ q' i', s.slot q' i' = some b → q' = q ∧ i' = i) ∧
        ∀ r x, (s.varsOf r).find? x ≠ some b) ∧
      (∀ r x v,
        (∀ r' y, y ≠ x → (s.assignVar r x v).seen r' y = s.seen r' y) ∧
        (∀ q i, (s.assignVar r x v).seenIn q i = s.seenIn q i) ∧
        (s.assignVar r x v).funs = s.funs ∧ (s.assignVar r x v).classes = s.classes) ∧
      (∀ q i v,
        (∀ r x, (s.assignSlot q i v).seen r x = s.seen r x) ∧
        (∀ q' i', ¬ (q' = q ∧ i' = i) → (s.assignSlot q i v).seenIn q' i' = s.seenIn q' i') ∧
        (s.assignSlot q i v).funs = s.funs ∧ (s.assignSlot q i v).classes = s.classes)) ∧
    ∀ {held P s}, P.store.Holds held → (∀ v b, held.boxes v = some b → P.store.Unbound b) →
      ComesUpOn held limits ss P s →
      (runShared held limits ss P).text = (runProgram limits ss P.console.cleared).text ∧
      (∀ v b, held.boxes v = some b →
        (∀ r x, (s.varsOf r).find? x ≠ some b) ∧ ∀ q i, s.slot q i ≠ some b) ∧
      ∀ n : Node, (∀ r x v, n.current held.boxes (s.assignVar r x v) = n) ∧
        ∀ q i v, n.current held.boxes (s.assignSlot q i v) = n := by
  refine ⟨fun {console s} hs => ?_, fun {held P s} hP hunbound hs => ?_⟩
  · have hsound := hs.sound (Parser.tidyBlock_parseProgram hparse)
    refine ⟨fun r r' x x' b hb hb' => hsound.name_eq ⟨r, hb⟩ ⟨r', hb'⟩, fun q i b hb => ⟨?_, ?_⟩,
      fun r x v => ⟨?_, ?_, ?_⟩, fun q i v => ⟨?_, ?_, ?_⟩⟩
    · exact fun q' i' hb' => hsound.slot_eq hb' hb
    · exact fun r x hx => hsound.not_binds hb ⟨r, hx⟩
    · exact fun r' y hy => hsound.seen_assignVar hy
    · exact fun q i => hsound.seenIn_assignVar
    · exact hsound.declarations_assignVar
    · exact fun r x => hsound.seen_assignSlot
    · exact fun q' i' hne => hsound.seenIn_assignSlot hne
    · exact hsound.declarations_assignSlot
  · have hss := (WellFormed.block (Parser.wellFormed_parseProgram hparse)).handleless
    obtain ⟨hfree, hvars, hslots⟩ := hs.literals hP hss hunbound
    refine ⟨(runShared_eq hP limits hss).1, fun v b hb => ?_, fun n => ⟨fun r x v => ?_, fun q i v => ?_⟩⟩
    · exact ⟨(hfree v b hb).names, (hfree v b hb).slots⟩
    · exact (hvars r x v).current_eq n
    · exact (hslots q i v).current_eq n

/-- The literal `"s"` is kept in the first box. -/
def quoteBoxed : Held where
  boxes
    | .string "s" => some ⟨0⟩
    | _ => none

/-- A machine with this box. -/
def quoteMachine : Machine :=
  { store := { boxes := #[.string "s"] }, console := default }

theorem eq_of_quoteBoxed {v : Value} {b : BoxRef} (h : quoteBoxed.boxes v = some b) :
    v = .string "s" ∧ b = ⟨0⟩ := by
  simp only [quoteBoxed] at h
  split at h
  · exact ⟨rfl, (Option.some.inj h).symm⟩
  · exact nomatch h

/-- Behind `a=[1];x="s";a[0]=x;y=x;` the slot and the two names have boxes of their own, and a new
value for `x` is seen neither in the slot nor under `y`. If the literal is kept in a box, `x` has
another one, and a new value for `x` leaves the program as it is. -/
theorem boxes_owned_copies :
    ∃ ss, Parser.parseProgram none "a=[1];x=\"s\";a[0]=x;y=x;" = .ok ss ∧
      (let s := ((firstEvaluation ss default).outcome 9 9).machine.store
      (s.varsOf ⟨1⟩).find? "x" = some ⟨1⟩ ∧ s.slot ⟨0⟩ 0 = some ⟨2⟩ ∧
      (s.varsOf ⟨1⟩).find? "y" ≠ some ⟨1⟩ ∧ (s.varsOf ⟨1⟩).find? "y" ≠ some ⟨2⟩ ∧
      (s.assignVar ⟨1⟩ "x" (.string "t")).seen ⟨1⟩ "y" = s.seen ⟨1⟩ "y" ∧
      (s.assignVar ⟨1⟩ "x" (.string "t")).seenIn ⟨0⟩ 0 = s.seenIn ⟨0⟩ 0) ∧
      let s := (runShared quoteBoxed ⟨9, 9⟩ ss quoteMachine).machine.store
      quoteMachine.store.Holds quoteBoxed ∧ quoteMachine.store.Unbound ⟨0⟩ ∧
      (s.varsOf ⟨1⟩).find? "x" = some ⟨2⟩ ∧ (∀ r x, (s.varsOf r).find? x ≠ some ⟨0⟩) ∧
      (Node.block ss).current quoteBoxed.boxes (s.assignVar ⟨1⟩ "x" (.string "t")) = .block ss := by
  obtain ⟨ss, hparse, hrun⟩ := Parser.exists_parseProgram "a=[1];x=\"s\";a[0]=x;y=x;"
    (fun ss =>
      let s := ((firstEvaluation ss default).outcome 9 9).machine.store
      let s' := (runShared quoteBoxed ⟨9, 9⟩ ss quoteMachine).machine.store
      decide (((s.varsOf ⟨1⟩).find? "x" = some ⟨1⟩ ∧ s.slot ⟨0⟩ 0 = some ⟨2⟩) ∧
        (s'.varsOf ⟨1⟩).find? "x" = some ⟨2⟩)) (by decide +kernel)
  obtain ⟨howned, hliterals⟩ := boxes_owned hparse ⟨9, 9⟩
  obtain ⟨⟨hx, hslot⟩, hx'⟩ := of_decide_eq_true hrun
  have hholds : quoteMachine.store.Holds quoteBoxed := by
    refine ⟨fun v b hb => ?_, nofun, nofun, nofun⟩
    obtain ⟨rfl, rfl⟩ := eq_of_quoteBoxed hb
    exact ⟨Nat.zero_lt_one, rfl⟩
  have hunbound : quoteMachine.store.Unbound ⟨0⟩ := ⟨nofun, nofun⟩
  refine ⟨ss, hparse, ?_, hholds, hunbound, hx', ?_⟩
  · have hs : ComesUp ⟨9, 9⟩ ss default ((firstEvaluation ss default).outcome 9 9).machine.store :=
      .after .first
    dsimp only at hx hslot ⊢
    generalize ((firstEvaluation ss default).outcome 9 9).machine.store = s at hx hslot hs ⊢
    obtain ⟨hname, hfilled, hassign, -⟩ := howned hs
    refine ⟨hx, hslot, fun hy => ?_, (hfilled _ _ _ hslot).2 _ _, (hassign _ _ _).1 _ _ (by decide),
      (hassign _ _ _).2.1 _ _⟩
    exact absurd (hname _ _ _ _ _ hx hy) (by decide)
  · obtain ⟨-, hfree, htrees⟩ := hliterals hholds
      (fun v b hb => (eq_of_quoteBoxed hb).2 ▸ hunbound) .last
    exact ⟨(hfree (.string "s") ⟨0⟩ rfl).1, (htrees _).1 _ _ _⟩

end BoxScript
