import BoxScript.Proofs.Eval.Overwriting
import BoxScript.Proofs.Eval.Trees
import BoxScript.Proofs.Node.Paths

/-!
# Hidden counters

A countdown loop keeps its count in a variable with a name that no program can write. Nothing else in
a program stores to such a variable (`Node.KeepsCounters`), so the box of a counter has no other name
and is in no slot (`Store.BelongsTo`). But a loop may be started again while it runs, in a function
that its body calls, and then both count in one box.

Result: **`Evaluation.Guards.restarted`**: if the box of a counter is overwritten in the course of an
evaluation, a countdown loop with that counter is started in a scope that has the box.
-/

namespace BoxScript

open Eval

/-! ## Trees -/

namespace Node

/-- The node does not store to a hidden counter. -/
def SparesCounters (n : Node) : Prop :=
  ∀ x v, n = .assign x v → ¬ IsCounter x

/-- Of the parts of the node, only those that a countdown loop adds to the text store to a hidden
counter. -/
structure KeepsCounters (n : Node) : Prop where
  counter : ∀ {x e ss}, n = .countdown x e ss → IsCounter x
  statement : ∀ s ∈ n.statements, s.node.SparesCounters
  part : ∀ {x v}, IsCounter x → .assign x v ∈ n.parts → ∃ e ss, n = .countdown x e ss
  field : ∀ {t x v}, n = .fieldSet t x v → ¬ IsCounter x

theorem hereditary_keepsCounters : Hereditary KeepsCounters where
  body {n ss} h hss :=
    { counter := nofun
      statement := fun s hs => h.statement s (mem_statements_of_mem_bodies hss hs)
      part := fun {x v} hx hmem => by
        obtain ⟨s, hs, heq⟩ := List.mem_map.mp hmem
        exact absurd hx (h.statement s (mem_statements_of_mem_bodies hss hs) x v heq)
      field := nofun }
  value {v} hv :=
    { counter := nofun
      statement := nofun
      part := fun {x w} _ hmem => by
        cases v with
        | ret e => exact absurd rfl hv
        | _ => exact absurd hmem List.not_mem_nil
      field := nofun }

/-- The node stores to a name, be it a variable, a field or a counter. -/
def storesByName : Node → Bool
  | .assign _ _ | .fieldSet _ _ _ | .countdown _ _ _ => true
  | _ => false

/-- The node does not store to a hidden counter, and neither does anything in it, countdown loops
apart. -/
structure Countless (n : Node) : Prop where
  spares : n.SparesCounters
  all : n.All KeepsCounters

/-- All nodes of a tree whose parts are so, whether it stores to a counter or not. -/
theorem all_keepsCounters {n : Node} (hparts : ∀ part ∈ n.parts, part.Countless)
    (hcounter : ∀ {x e ss}, n = .countdown x e ss → IsCounter x)
    (hfield : ∀ {t x v}, n = .fieldSet t x v → ¬ IsCounter x) : n.All KeepsCounters := by
  refine all_iff.mpr ⟨⟨hcounter, fun s hs => ?_, fun {x v} hx hmem => ?_, hfield⟩, fun part hpart =>
    (hparts part hpart).all⟩
  · exact (hparts _ (mem_parts_of_mem_statements hs)).spares
  · exact absurd hx ((hparts _ hmem).spares x v rfl)

namespace Countless

variable {n : Node}

/-- A node that is no assignment to a name or field and no countdown loop, and whose parts are so. -/
theorem of_parts (hn : n.storesByName = false) (hparts : ∀ part ∈ n.parts, part.Countless) :
    n.Countless := by
  have hne : ∀ k : Node, k.storesByName = true → n ≠ k := by
    rintro k hk rfl
    exact Bool.false_ne_true (hn.symm.trans hk)
  refine ⟨fun x v heq => absurd heq (hne _ rfl), all_keepsCounters hparts (fun heq => ?_) fun heq => ?_⟩
  · exact absurd heq (hne _ rfl)
  · exact absurd heq (hne _ rfl)

theorem lookup (x : String) : (Node.lookup x).Countless :=
  .of_parts rfl (List.forall_mem_nil _)

theorem unary (op : UnaryOperator) (hn : n.Countless) : (Node.unary op n).Countless :=
  .of_parts rfl (List.forall_mem_singleton.mpr hn)

/-- What is stored to a variable. -/
theorem all_assign (x : String) (hn : n.Countless) : (Node.assign x n).All KeepsCounters :=
  all_keepsCounters (List.forall_mem_singleton.mpr hn) nofun nofun

/-- A countdown loop stores to its own counter only. -/
theorem countdown {x : String} {ss : List Statement} (hx : IsCounter x) (hn : n.Countless)
    (hss : ∀ s ∈ ss, s.node.Countless) : (Node.countdown x n ss).Countless where
  spares _ _ heq := Node.noConfusion heq
  all := by
    have hzero : (literal (.number 0)).Countless := .of_parts rfl (List.forall_mem_nil _)
    have hcondition : (countdownCondition x).Countless :=
      .of_parts rfl
        (List.forall_mem_cons.mpr ⟨.lookup x, List.forall_mem_singleton.mpr hzero⟩)
    have hstatements : ∀ part ∈ ss.map Statement.node, part.Countless := List.forall_mem_map.mpr hss
    have hcounter : ∀ {y e us}, Node.countdown x n ss = .countdown y e us → IsCounter y :=
      fun heq => (Node.countdown.inj heq).1 ▸ hx
    refine all_iff.mpr ⟨⟨hcounter, fun s hs => (hss s hs).spares, fun {y v} hy hmem => ?_,
      Node.noConfusion⟩, ?_⟩
    · simp only [parts, List.mem_cons, countdownInit, countdownIncrement] at hmem
      rcases hmem with heq | heq | heq | heq | hmem
      · exact ⟨n, ss, (Node.assign.inj heq).1 ▸ rfl⟩
      · cases heq
      · exact ⟨n, ss, (Node.assign.inj heq).1 ▸ rfl⟩
      · exact absurd hy (hn.spares y v heq.symm)
      · exact absurd hy ((hstatements _ hmem).spares y v rfl)
    · simp only [parts, List.forall_mem_cons]
      exact ⟨hn.all_assign x, hcondition.all, ((lookup x).unary .dec).all_assign x, hn.all,
        fun part hpart => (hstatements part hpart).all⟩

end Countless

end Node

theorem not_isCounter_of_isIdentifier {x : String} (h : Library.isIdentifier x = true) :
    ¬ IsCounter x :=
  fun hx => absurd h (Bool.eq_false_iff.mp hx.not_isIdentifier)

/-- **No program stores to a hidden counter.** -/
theorem Node.OfProgram.countless {n : Node} (h : n.OfProgram) : n.Countless := by
  induction n using Node.induction with
  | h n ih =>
    have hparts : ∀ part ∈ n.written, part.Countless := fun part hpart =>
      ih part hpart (h.written hpart)
    have hnames : ∀ x ∈ n.names, ¬ IsCounter x := fun x hx =>
      not_isCounter_of_isIdentifier (h.isIdentifier x hx)
    cases n with
    | assign x v =>
      refine ⟨?_, (hparts v List.mem_cons_self).all_assign x⟩
      rintro _ _ ⟨rfl, rfl⟩
      exact hnames _ List.mem_cons_self
    | fieldSet t x v =>
      refine ⟨fun _ _ heq => Node.noConfusion heq, all_keepsCounters hparts Node.noConfusion ?_⟩
      rintro _ _ _ ⟨rfl, rfl, rfl⟩
      exact hnames _ List.mem_cons_self
    | countdown x e ss =>
      obtain ⟨he, hss⟩ := List.forall_mem_cons.mp hparts
      exact .countdown (h.isCounter rfl) he (List.forall_mem_map.mp hss)
    | _ => exact .of_parts rfl hparts

theorem WellFormedBlock.countless {ss : List Statement} (h : WellFormedBlock ss) :
    (Node.block ss).Countless :=
  .of_parts rfl (List.forall_mem_map.mpr fun s hs =>
    Node.OfProgram.countless (.formed (h s hs)))

/-! ## Boxes -/

/-- The box has no other name than `x`, and is in no slot. -/
structure Store.BelongsTo (s : Store) (b : BoxRef) (x : String) : Prop where
  lt : b.id < s.boxes.size
  name : ∀ {y}, s.Binds y b → y = x
  not_slot : ∀ {r i}, s.slot r i ≠ some b

namespace Store

variable {s : Store} {b : BoxRef} {x : String}

theorem Sound.belongsTo {kept : VarsRef → Prop} (h : s.Sound kept) (hb : s.Binds x b) :
    s.BelongsTo b x where
  lt := h.bound hb
  name hy := h.name_eq hy hb
  not_slot hs := h.not_binds hs hb

theorem BelongsTo.newBox (h : s.BelongsTo b x) (v : Value) : (s.newBox v).2.BelongsTo b x :=
  { h with lt := boxes_newBox s v ▸ Nat.lt_succ_of_lt h.lt }

theorem BelongsTo.ne_newBox (h : s.BelongsTo b x) (v : Value) : b ≠ (s.newBox v).1 :=
  fun heq => Nat.lt_irrefl _ (heq ▸ h.lt)

theorem BelongsTo.bindNew (h : s.BelongsTo b x) (r : VarsRef) (y : String) (v : Value) :
    (s.bindNew r y v).BelongsTo b x :=
  { h.newBox v with
    name := fun hz => (binds_putVar hz).elim (h.newBox v).name fun heq =>
      absurd heq.2 (h.ne_newBox v) }

theorem BelongsTo.assignVar (h : s.BelongsTo b x) (r : VarsRef) (y : String) (v : Value) :
    (s.assignVar r y v).BelongsTo b x := by
  rcases s.assignVar_cases r y v with ⟨b', -, heq⟩ | heq | heq
  · exact heq ▸ { h with lt := (s.size_write b' v).symm ▸ h.lt }
  · exact heq ▸ h.bindNew r y v
  · exact heq ▸ h.newBox v

theorem BelongsTo.assignSlot (h : s.BelongsTo b x) (r : SlotsRef) (i : Nat) (v : Value) :
    (s.assignSlot r i v).BelongsTo b x := by
  rcases s.assignSlot_cases r i v with ⟨b', -, heq⟩ | heq | heq
  · exact heq ▸ { h with lt := (s.size_write b' v).symm ▸ h.lt }
  · refine heq ▸ { h.newBox v with not_slot := fun hs => ?_ }
    rcases slot_putSlot hs with hs | ⟨-, -, hb⟩
    · exact h.not_slot hs
    · exact h.ne_newBox v (Option.some.inj hb).symm
  · exact heq ▸ h.newBox v

end Store

section Belongs

variable {limit depth : Nat} {c d : Evaluation} {m m' : Machine} {b : BoxRef} {x : String}
  {Answer : Evaluation → Yield → Machine → Prop}

/-- **What an evaluation does on its own gives no other name to a box.** -/
theorem Does.belongsTo (h : Does Answer c m m') (hb : m.store.BelongsTo b x) :
    m'.store.BelongsTo b x := by
  induction h with
  | nothing m => exact hb
  | andThen _ _ ih₁ ih₂ => exact ih₂ (ih₁ hb)
  | console m _ => exact hb
  | assignVar m r y _ _ _ => exact hb.assignVar r y _
  | assignSlot m r i _ _ _ => exact hb.assignSlot r i _
  | bindNew m r y _ _ => exact hb.bindNew r y _
  | newUnset m n => exact { hb with not_slot := fun hs => hb.not_slot (Store.slot_newUnset hs) }
  | newVars m ht =>
    refine { hb with name := fun hy => hb.name (Store.binds_newVars (fun z e hz => ?_) hy) }
    rcases ht with rfl | ⟨r, rfl⟩
    · exact nomatch hz
    · exact ⟨r, hz⟩
  | newFuns m _ => exact { hb with }
  | newClasses m _ => exact { hb with }
  | putFun m y f _ => exact { hb with }
  | putClass m cl _ _ _ => exact { hb with }

theorem Evaluation.Fair.belongsTo_outcome (hc : c.Fair) (hb : c.machine.store.BelongsTo b x)
    (limit depth : Nat) : (c.outcome limit depth).machine.store.BelongsTo b x := by
  induction depth generalizing c with
  | zero => exact hb
  | succ depth ih =>
    exact hc.run (K := fun m m' => m.store.BelongsTo b x → m'.store.BelongsTo b x)
      (fun h h' hm => h' (h hm)) (fun h => h.belongsTo) (fun d hd _ _ _ hm => ih hd hm) hb

theorem Evaluation.Fair.belongsTo_made (hc : c.Fair) (hb : c.machine.store.BelongsTo b x)
    (hmakes : Makes limit (evaluate limit depth) c d) : d.machine.store.BelongsTo b x :=
  (hc.made (K := fun m m' => m.store.BelongsTo b x → m'.store.BelongsTo b x)
    (fun h h' hm => h' (h hm)) (fun h => h.belongsTo)
    (fun _ hd _ _ _ hm => hd.belongsTo_outcome hm limit depth) hmakes).2.2 hb

end Belongs

/-! ## Loops that are started again -/

/-- If an evaluation takes place in the course of another one, it is the same, or there is one that
makes it. -/
theorem Involves.last {limit depth depth' : Nat} {c e : Evaluation}
    (h : Involves limit depth c depth' e) :
    (depth' = depth ∧ e = c) ∨
      ∃ d, Involves limit depth c (depth' + 1) d ∧ Makes limit (evaluate limit depth') d e := by
  induction h with
  | self depth c => exact .inl ⟨rfl, rfl⟩
  | part hmakes _ ih =>
    rcases ih with ⟨rfl, rfl⟩ | ⟨d, hd, hlast⟩
    · exact .inr ⟨_, .self .., hmakes⟩
    · exact .inr ⟨d, .part hmakes hd, hlast⟩

/-- The evaluation takes place when the box of a hidden counter is there. -/
structure Evaluation.Guards (c : Evaluation) (b : BoxRef) (x : String) : Prop where
  fair : c.Fair
  all : c.All Node.KeepsCounters
  belongs : c.machine.store.BelongsTo b x
  counter : IsCounter x

section Guards

variable {limit depth : Nat} {c d : Evaluation} {m : Machine} {b : BoxRef} {x : String} {y : Yield}

namespace Evaluation.Guards

section

variable (hc : c.Guards b x)
include hc

theorem below : c.AllBelow Node.KeepsCounters :=
  hc.all.below Node.hereditary_keepsCounters

theorem made (hmakes : Makes limit (evaluate limit depth) c d) : d.Guards b x where
  fair := (hc.fair.part hmakes).1
  all := hc.fair.all_made Node.hereditary_keepsCounters hc.below hmakes
  belongs := hc.fair.belongsTo_made hc.belongs hmakes
  counter := hc.counter

theorem answered (h : Answered limit (evaluate limit depth) c d y m) : m.store.BelongsTo b x := by
  obtain ⟨hmakes, hr⟩ := h
  have hd := hc.made hmakes
  have hm := hd.fair.belongsTo_outcome hd.belongs limit depth
  rwa [outcome, machine_of_ok hr] at hm

/-- What is returned stores to no counter. -/
theorem spares_returned (h : Answered limit (evaluate limit depth) c d y m) {e : Node}
    (he : y.now m.store = .ret e) : e.SparesCounters := by
  obtain ⟨hmakes, hr⟩ := h
  have hd := hc.made hmakes
  rintro z v rfl hz
  rcases hd.fair.returned hr he with hn | ⟨w, hw, -⟩
  · have hkeeps := (Node.all_iff.mp hd.all.node).1
    rw [hn] at hkeeps
    obtain ⟨_, _, heq⟩ := hkeeps.part hz (List.mem_singleton_self _)
    exact nomatch heq
  · exact nomatch hw

/-- Only an assignment to the counter overwrites its box. -/
theorem assigns (h : c.Overwrites limit (evaluate limit depth) b) :
    ∃ v, c.node = .assign x v ∧ (c.machine.store.varsOf c.scope.vars).find? x = some b := by
  cases h with
  | name hassign hfind =>
    cases hassign with
    | @name v y hn hanswer =>
      obtain rfl := (hc.answered hanswer).name ⟨_, hfind⟩
      obtain ⟨hmakes, hr⟩ := hanswer
      have hw := ((hc.made hmakes).fair.widens limit depth).1
      rw [outcome, machine_of_ok hr] at hw
      exact ⟨v, hn, hw.rebinds hc.fair.scope.vars_lt hc.belongs.lt hfind⟩
    | field hn _ _ hanswer =>
      obtain rfl := (hc.answered hanswer).name ⟨_, hfind⟩
      exact absurd hc.counter ((Node.all_iff.mp hc.all.node).1.field hn)
  | slot hassign hfind =>
    obtain ⟨-, -, -, -, -, hanswer, -⟩ := hassign
    exact absurd hfind (hc.answered hanswer).not_slot

/-- What makes an assignment to a counter is a countdown loop. -/
theorem countdown (hmakes : Makes limit (evaluate limit depth) c d) {v : Node}
    (hn : d.node = .assign x v) : ∃ n ss, c.node = .countdown x n ss := by
  have hkeeps : ∀ {n : Node}, n.All Node.KeepsCounters → .assign x v ∈ n.parts →
      ∃ e ss, n = .countdown x e ss :=
    fun hall hmem => (Node.all_iff.mp hall).1.part hc.counter hmem
  have horigin := (hc.fair.part hmakes).2.origin
  rw [hn] at horigin
  generalize heq : Node.assign x v = n at horigin
  cases horigin with
  | part hmem => exact hkeeps hc.all.node (heq ▸ Node.mem_parts_of_mem_ownParts hmem)
  | @statement ss s hbody hs =>
    obtain ⟨_, _, hblock⟩ := hkeeps (hc.below.hasBody hbody)
      (heq ▸ List.mem_map_of_mem ((mem_of_leadingClasses ss).2 s hs))
    exact nomatch hblock
  | returned hanswer he => exact absurd hc.counter (hc.spares_returned hanswer he x v heq.symm)
  | _ => exact nomatch heq

/-- A countdown loop sees the box that it stores to. -/
theorem sees (hmakes : Makes limit (evaluate limit depth) c d) {v : Node}
    (hn : d.node = .assign x v) (hfind : (d.machine.store.varsOf d.scope.vars).find? x = some b) :
    (c.machine.store.varsOf c.scope.vars).find? x = some b := by
  obtain ⟨n, ss, hloop⟩ := hc.countdown hmakes hn
  cases (hc.fair.part hmakes).2.standing with
  | operand hscoped _ _ =>
    rw [hloop] at hscoped
    exact nomatch hscoped
  | header hmem _ =>
    rw [hloop] at hmem
    exact absurd hmem List.not_mem_nil
  | returned hanswer he _ => exact absurd hc.counter (hc.spares_returned hanswer he x v hn)
  | body hblock _ _ | function hblock _ _ _ | method hblock _ _ =>
    exact nomatch hn.symm.trans hblock
  | inner hown => exact hown.sees hc.belongs.lt hfind

end

end Evaluation.Guards

theorem Involves.guards {depth' : Nat} (h : Involves limit depth c depth' d) (hc : c.Guards b x) :
    d.Guards b x := by
  induction h with
  | self => exact hc
  | part hmakes _ ih => exact ih (hc.made hmakes)

/-- **The box of a counter is overwritten only if a loop with the counter is started again**, in a
scope that has the box. -/
theorem Evaluation.Guards.restarted (hc : c.Guards b x) (hnode : ∀ v, c.node ≠ .assign x v)
    (h : Overwritten limit depth c b) :
    ∃ depth' e n ss, Involves limit depth c depth' e ∧ e.node = .countdown x n ss ∧
      (e.machine.store.varsOf e.scope.vars).find? x = some b := by
  obtain ⟨depth', d, hinvolves, hwrites⟩ := h
  obtain ⟨v, hn, hfind⟩ := (hinvolves.guards hc).assigns hwrites
  rcases hinvolves.last with ⟨-, rfl⟩ | ⟨e, he, hmakes⟩
  · exact absurd hn (hnode v)
  · have heguards := he.guards hc
    obtain ⟨n, ss, hloop⟩ := heguards.countdown hmakes hn
    exact ⟨_, e, n, ss, he, hloop, heguards.sees hmakes hn hfind⟩

end Guards

end BoxScript
