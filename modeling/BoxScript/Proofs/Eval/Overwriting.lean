import BoxScript.Proofs.Eval.Asking

/-!
# What changes a box

A box changes only if something is assigned to the name, the field or the slot that has it. Such an
assignment may be evaluated at any depth: in a part, in a part of that, and so on (`Involves`). The
box counts as overwritten also if it gets the value that it had.

Result: **`Evaluation.Fair.read_eq_or_overwritten`**, for every evaluation and every box that is there
when it begins.
-/

namespace BoxScript

open Eval

/-- In the course of the evaluation `c` the evaluation `e` takes place. The numbers are the depths
that are left for them. -/
inductive Involves (limit : Nat) : Nat → Evaluation → Nat → Evaluation → Prop
  | self (depth : Nat) (c : Evaluation) : Involves limit depth c depth c
  | part {depth depth' : Nat} {c d e : Evaluation} :
    Makes limit (evaluate limit depth) c d → Involves limit depth d depth' e →
    Involves limit (depth + 1) c depth' e

/-- The evaluation is an assignment to a name, field or slot that has the box, when the parts of the
assignment have been evaluated with `ev`. -/
inductive Evaluation.Overwrites (limit : Nat) (ev : Evaluator) (c : Evaluation) (b : BoxRef) : Prop
  | name {m : Machine} {x : String} {r : VarsRef} :
    c.AssignsVar (Answered limit ev c) m x r → (m.store.varsOf r).find? x = some b →
    c.Overwrites limit ev b
  | slot {m : Machine} {r : SlotsRef} {j : Nat} :
    c.AssignsSlot (Answered limit ev c) m r j → m.store.slot r j = some b →
    c.Overwrites limit ev b

/-- In the course of the evaluation the box is overwritten. -/
def Overwritten (limit depth : Nat) (c : Evaluation) (b : BoxRef) : Prop :=
  ∃ depth' e, Involves limit depth c (depth' + 1) e ∧ e.Overwrites limit (evaluate limit depth') b

variable {limit depth : Nat} {c d : Evaluation} {b : BoxRef}

/-- What is overwritten in a part is overwritten in the whole. -/
theorem Overwritten.of_part (hmakes : Makes limit (evaluate limit depth) c d)
    (h : Overwritten limit depth d b) : Overwritten limit (depth + 1) c b := by
  obtain ⟨depth', e, hinvolves, hwrites⟩ := h
  exact ⟨depth', e, .part hmakes hinvolves, hwrites⟩

/-- **On its own an evaluation changes a box only if it is an assignment to what has it.** -/
theorem Does.read_eq_or_overwrites {ev : Evaluator} {m m' : Machine}
    (h : Does (Answered limit ev c) c m m') (hm : m.store.Rooted)
    (hb : b.id < m.store.boxes.size) :
    m'.store.read b = m.store.read b ∨ c.Overwrites limit ev b := by
  induction h with
  | andThen h₁ _ ih₁ ih₂ =>
    have hw := h₁.widens hm
    rcases ih₂ hw.rooted (Nat.lt_of_lt_of_le hb hw.boxes_le) with heq | hwrites
    · exact (ih₁ hm hb).imp_left heq.trans
    · exact .inr hwrites
  | assignVar m r x hassign _ _ =>
    rcases m.store.assignVar_cases r x _ with ⟨b', hb', heq⟩ | heq | heq
    · by_cases hbb : b = b'
      · exact .inr (.name hassign (hbb ▸ hb'))
      · exact .inl (heq ▸ Store.read_write_of_ne hbb)
    · exact .inl (heq ▸ Store.read_newBox_of_lt hb)
    · exact .inl (heq ▸ Store.read_newBox_of_lt hb)
  | assignSlot m r j hassign _ _ =>
    rcases m.store.assignSlot_cases r j _ with ⟨b', hb', heq⟩ | heq | heq
    · by_cases hbb : b = b'
      · exact .inr (.slot hassign (hbb ▸ hb'))
      · exact .inl (heq ▸ Store.read_write_of_ne hbb)
    · exact .inl (heq ▸ Store.read_newBox_of_lt hb)
    · exact .inl (heq ▸ Store.read_newBox_of_lt hb)
  | bindNew m r x _ _ => exact .inl (Store.read_newBox_of_lt hb)
  | _ => exact .inl rfl

/-- **A box keeps what it holds unless it is overwritten.** -/
theorem Evaluation.Fair.read_eq_or_overwritten (hc : c.Fair)
    (hb : b.id < c.machine.store.boxes.size) (limit depth : Nat) :
    (c.outcome limit depth).machine.store.read b = c.machine.store.read b ∨
      Overwritten limit depth c b := by
  induction depth generalizing c with
  | zero => exact .inl rfl
  | succ depth ih =>
    have hrun := hc.run (K := fun m m' => Since c m → Since c m' ∧
        (m'.store.read b = m.store.read b ∨ Overwritten limit (depth + 1) c b))
      (fun h₁ h₂ hm => by
        obtain ⟨hm₁, h₁⟩ := h₁ hm
        obtain ⟨hm₂, h₂⟩ := h₂ hm₁
        exact ⟨hm₂, h₂.elim (fun heq => h₁.imp_left heq.trans) .inr⟩)
      (fun hd hm => by
        refine ⟨hm.trans (hd.widens hm.rooted), ?_⟩
        exact (hd.read_eq_or_overwrites hm.rooted (Nat.lt_of_lt_of_le hb hm.boxes_le)).imp_right
          fun hwrites => ⟨depth, c, .self .., hwrites⟩)
      fun d hd hmakes _ _ hm => by
        refine ⟨hm.trans (hd.widens limit depth).1, ?_⟩
        exact (ih hd (Nat.lt_of_lt_of_le hb hm.boxes_le)).imp_right (.of_part hmakes)
    exact (hrun hc.rooted.refl).2

end BoxScript
