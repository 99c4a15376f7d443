import BoxScript.Proofs.Node.Statements
import BoxScript.Proofs.Parser.Program

/-!
# Where errors point and statements stand

A construct hands lists of its own tokens to its parts, and takes places from its own tokens only.
So every place that the parser gives, to an error or to a statement, is the place of one of the
tokens that it was given. An error may be without a place as long as no statement around it has
given it one (`PointsInto`). It is about the text itself, never about a library.

`Answers P p x` says of a parser `x` that its errors satisfy `P` and what it accepts satisfies `p`.

Result: **`answers_parseBlock`**, a block is refused at one of its tokens, and if it is accepted its
statements have the places of tokens.
-/

namespace BoxScript

/-- The place is that of one of the tokens. -/
def Token.PlaceOf (all : List Token) (p : Option Position) : Prop :=
  ∃ t ∈ all, p = some t.position

namespace Parser

open Token

variable {α β ι : Type} {P : ParseError → Prop} {p : α → Prop} {q : β → Prop} {all ts : List Token}

/-! ## Answers of parsers -/

/-- The errors of the parser satisfy `P`, and what it accepts satisfies `p`. -/
structure Answers (P : ParseError → Prop) (p : α → Prop) (x : Parse α) : Prop where
  ensures : Ensures p x
  refuses : ∀ k, Refuses P (x k)

namespace Answers

protected theorem pure {a : α} (h : p a) : Answers P p (pure a) :=
  ⟨.pure h, fun _ => .ok _⟩

variable {e : ParseError} {P' : ParseError → Prop}

protected theorem throw (h : P e) : Answers P p (throw e) :=
  ⟨fun _ _ _ hok => (nomatch hok), fun _ => .error h⟩

protected theorem bind {x : Parse α} {f : α → Parse β} (hx : Answers P p x)
    (hf : ∀ a, p a → Answers P q (f a)) : Answers P q (x >>= f) where
  ensures := .bind hx.ensures fun a ha => (hf a ha).ensures
  refuses k := .bind (hx.refuses k) fun r hr => (hf r.1 (hx.ensures _ _ _ hr)).refuses r.2

theorem throw_bind (h : P e) {f : α → Parse β} : Answers P q (throw e >>= f) :=
  .bind (p := fun _ => False) (.throw h) fun _ h => h.elim

theorem lift_bind {x : Except ParseError α} {f : α → Parse β} (hx : Refuses P x)
    (h : ∀ a, x = .ok a → Answers P q (f a)) : Answers P q (liftM x >>= f) := by
  cases x with
  | error e => exact .throw (hx e rfl)
  | ok a => exact h a rfl

theorem ite {c : Prop} [Decidable c] {x y : Parse α} (hx : Answers P p x) (hy : Answers P p y) :
    Answers P p (if c then x else y) := by
  split
  · exact hx
  · exact hy

theorem mono {p' : α → Prop} {x : Parse α} (hx : Answers P p x) (hP : ∀ e, P e → P' e)
    (hp : ∀ a, p a → p' a) : Answers P' p' x :=
  ⟨fun k a k' h => hp a (hx.ensures k a k' h), fun k e h => hP e (hx.refuses k e h)⟩

theorem mapM {f : ι → Parse α} {items : List ι} (h : ∀ i ∈ items, Answers P p (f i)) :
    Answers P (fun as => ∀ a ∈ as, p a) (items.mapM f) := by
  induction items with
  | nil => exact .pure fun a ha => absurd ha List.not_mem_nil
  | cons i items ih =>
    rw [List.mapM_cons]
    refine .bind (h i List.mem_cons_self) fun a ha => ?_
    refine .bind (ih fun j hj => h j (List.mem_cons_of_mem i hj)) fun as has => ?_
    exact .pure (List.forall_mem_cons.mpr ⟨ha, has⟩)

theorem foldlM {f : α → ι → Parse α} {items : List ι}
    (h : ∀ a, ∀ i ∈ items, p a → Answers P p (f a i)) {a : α} (ha : p a) :
    Answers P p (items.foldlM f a) := by
  induction items generalizing a with
  | nil => exact .pure ha
  | cons i items ih =>
    rw [List.foldlM_cons]
    refine .bind (h a i List.mem_cons_self ha) fun b hb => ?_
    exact ih (fun a j hj => h a j (List.mem_cons_of_mem i hj)) hb

theorem mapError {x : Parse α} {f : ParseError → ParseError} (hx : Answers P p x)
    (hf : ∀ e, P e → P' (f e)) : Answers P' p fun k => (x k).mapError f := by
  refine ⟨.mapError hx.ensures, fun k => ?_⟩
  have hk := hx.refuses k
  show Refuses P' ((x k).mapError f)
  generalize x k = r at hk
  cases r with
  | error e => exact .error (hf e (hk e rfl))
  | ok r => exact .ok r

end Answers

/-! ## Errors that point at tokens -/

/-- The error is about the text, at the place of one of the tokens. -/
structure PointsTo (all : List Token) (e : ParseError) : Prop where
  place : PlaceOf all e.position
  kind : e.cause.kind = .parse

/-- The error is about the text; it has no place yet, or that of one of the tokens. -/
structure PointsInto (all : List Token) (e : ParseError) : Prop where
  place : e.position = none ∨ PlaceOf all e.position
  kind : e.cause.kind = .parse

variable {e : ParseError} {cause : ParseError.Cause} {t : Token}

theorem PointsTo.into (h : PointsTo all e) : PointsInto all e :=
  ⟨.inr h.place, h.kind⟩

theorem pointsInto_nowhere (hc : cause.kind = .parse) : PointsInto all { cause } :=
  ⟨.inl rfl, hc⟩

theorem pointsInto_at (ht : t ∈ all) (hc : cause.kind = .parse) :
    PointsInto all { cause, position := some t.position } :=
  ⟨.inr ⟨t, ht, rfl⟩, hc⟩

theorem pointsInto_head (h : ts ⊆ all) (hc : cause.kind = .parse) :
    PointsInto all { cause, position := headPosition ts } := by
  cases ts with
  | nil => exact pointsInto_nowhere hc
  | cons t ts => exact pointsInto_at (h List.mem_cons_self) hc

theorem pointsInto_blame (h : ts ⊆ all) {cause : String → ParseError.Cause}
    (hc : (cause (dense ts)).kind = .parse) : PointsInto all (blame cause ts) :=
  pointsInto_head h hc

theorem PointsInto.placedAt (h : PointsInto all e) (ht : t ∈ all) :
    PointsTo all (e.placedAt t.position) := by
  refine ⟨?_, h.kind⟩
  unfold ParseError.placedAt
  rcases h.place with h | ⟨u, hu, h⟩
  · exact ⟨t, ht, by rw [h]; rfl⟩
  · exact ⟨u, hu, by rw [h]; rfl⟩

theorem admits_pointsTo (h : ts ⊆ all) : Admits (PointsTo all) ts :=
  ⟨fun ht hk _ => ⟨⟨_, h ht, rfl⟩, hk⟩⟩

theorem admits_pointsInto (h : ts ⊆ all) : Admits (PointsInto all) ts :=
  ⟨fun ht hk _ => pointsInto_at (h ht) hk⟩

/-! ## Constructs -/

/-- The statement and all that stand in it have the places of tokens. -/
def Stands (all : List Token) (s : Statement) : Prop :=
  PlaceOf all s.position ∧ s.node.PlacedIn (PlaceOf all)

/-- What is assigned to is made of nodes that have the places of tokens. -/
def Target.Stands (all : List Token) : Target → Prop
  | .name _ => True
  | .index target i => target.PlacedIn (PlaceOf all) ∧ i.PlacedIn (PlaceOf all)
  | .field target _ => target.PlacedIn (PlaceOf all)

variable {place : Target}

theorem Target.Stands.load (h : place.Stands all) : place.load.PlacedIn (PlaceOf all) := by
  cases place with
  | name x => exact Node.placedIn_leaf rfl rfl
  | index target i => exact .two rfl rfl h.1 h.2
  | field target x => exact .one rfl rfl h

theorem Target.Stands.store (h : place.Stands all) {value : Node}
    (hvalue : value.PlacedIn (PlaceOf all)) : (place.store value).PlacedIn (PlaceOf all) := by
  cases place with
  | name x => exact .one rfl rfl hvalue
  | index target i =>
    refine .of_statements_eq_nil rfl (List.forall_mem_cons.mpr ⟨h.1, ?_⟩)
    exact List.forall_mem_cons.mpr ⟨h.2, List.forall_mem_singleton.mpr hvalue⟩
  | field target x => exact .two rfl rfl h hvalue

theorem placedIn_atom {n : Node} (h : atom t = .ok n) : n.PlacedIn (PlaceOf all) := by
  unfold atom at h
  split at h
  case h_4 => cases h
  case h_3 =>
    split at h
    case h_4 =>
      obtain ⟨x, -, rfl⟩ := Except.exists_of_map_eq_ok h
      exact Node.placedIn_leaf rfl rfl
    all_goals exact Except.ok.inj h ▸ Node.placedIn_leaf rfl rfl
  all_goals exact Except.ok.inj h ▸ Node.placedIn_leaf rfl rfl

/-- The parser of a tree takes places from the given tokens only. -/
abbrev Aimed (all : List Token) : Parse Node → Prop :=
  Answers (PointsInto all) (·.PlacedIn (PlaceOf all))

/-- On lists of the given tokens, the parsers take places from these tokens only. -/
structure Aims (all : List Token) (sub : Parsers) : Prop where
  expression : ∀ {ts}, ts ⊆ all → Aimed all (sub.expression ts)
  operand : ∀ {ts}, ts ⊆ all → Aimed all (sub.operand ts)
  block : ∀ {ts}, ts ⊆ all → Answers (PointsInto all) (∀ s ∈ ·, Stands all s) (sub.block ts)
  statement : ∀ {ts}, ts ⊆ all → Answers (PointsInto all) (Stands all) (sub.statement ts)

section Constructs

variable {sub : Parsers} (h : Aims all sub) (hts : ts ⊆ all)
include h hts

/-! ### Calls -/

theorem answers_arguments :
    Answers (PointsInto all) (∀ a ∈ ·, a.PlacedIn (PlaceOf all)) (arguments sub ts) := by
  refine .ite (.pure fun a ha => absurd ha List.not_mem_nil) ?_
  refine .lift_bind (refuses_splitTop (admits_pointsInto hts) ",") fun pieces hpieces => ?_
  refine .ite (.throw_bind (pointsInto_blame hts rfl)) (.mapM fun us hus => ?_)
  exact h.expression (List.Subset.trans (splitTop_inside hpieces us hus).subset hts)

theorem answers_call {head : List Token} (hhead : head ⊆ all) {args : List Node}
    (hargs : ∀ a ∈ args, a.PlacedIn (PlaceOf all)) : Aimed all (call sub ts head args) := by
  unfold call
  split
  · have honly : ∀ {a}, onlyArgument ts args = .ok a → a.PlacedIn (PlaceOf all) := by
      intro a ha
      unfold onlyArgument at ha
      split at ha
      · exact hargs a (Except.ok.inj ha ▸ List.mem_cons_self)
      · cases ha
    refine .ite ?_ (.ite ?_ ?_)
    · refine .lift_bind (refuses_onlyArgument (pointsInto_blame hts rfl) args) fun a ha => .pure ?_
      exact .one rfl rfl (honly ha)
    · refine .lift_bind (refuses_onlyArgument (pointsInto_blame hts rfl) args) fun a ha => .pure ?_
      exact .one rfl rfl (honly ha)
    · refine .lift_bind (refuses_identifier (admits_pointsInto hhead) List.mem_cons_self) fun x _ =>
        .pure ?_
      exact .of_statements_eq_nil rfl hargs
  · refine .ite (.lift_bind (refuses_identifier (admits_pointsInto hhead) (by simp)) fun x _ =>
      .pure ?_)
      (.throw (pointsInto_blame hts rfl))
    exact .of_statements_eq_nil rfl hargs
  · split
    · rename_i object x hmember
      have hobject := List.Subset.trans (memberName?_part hmember).sublist.subset hhead
      refine .bind (h.operand hobject) fun target htarget => .pure ?_
      exact .of_statements_eq_nil rfl (List.forall_mem_cons.mpr ⟨htarget, hargs⟩)
    · exact .throw (pointsInto_blame hts rfl)

/-! ### Assignments -/

theorem answers_indexTarget? :
    Answers (PointsInto all) (∀ place ∈ ·, Target.Stands all place) (indexTarget? sub ts) := by
  have hnone : ∀ place ∈ (none : Option Target), place.Stands all := fun _ hp => nomatch hp
  refine .ite (.lift_bind (refuses_groupStart (admits_pointsInto hts) (pointsInto_blame hts rfl))
    fun start _ => ?_) (.pure hnone)
  refine .ite (.pure hnone) ?_
  refine .bind (h.operand (List.Subset.trans (List.take_subset _ _) hts)) fun target htarget => ?_
  refine .bind (h.expression (List.Subset.trans (extract_isInfix _ _ _).subset hts)) fun i hi => .pure ?_
  rintro place ⟨⟩
  exact ⟨htarget, hi⟩

theorem answers_target : Answers (PointsInto all) (Target.Stands all) (target sub ts) := by
  unfold target
  split
  · exact .throw (pointsInto_nowhere rfl)
  · exact .lift_bind (refuses_identifier (admits_pointsInto hts) List.mem_cons_self) fun x _ =>
      .pure trivial
  · refine .bind (answers_indexTarget? h hts) fun found hfound => ?_
    split
    · exact .pure (hfound _ rfl)
    · split
      · rename_i object x hmember
        have hobject := List.Subset.trans (memberName?_part hmember).sublist.subset hts
        exact .bind (h.operand hobject) fun target htarget => .pure htarget
      · exact .throw (pointsInto_blame hts rfl)

theorem answers_mutation :
    Answers (PointsInto all) (∀ n ∈ ·, n.PlacedIn (PlaceOf all)) (mutation sub ts) := by
  unfold mutation
  split
  · rename_i front op hstep
    obtain ⟨t, rfl, -⟩ := stepped?_eq_some hstep
    have hfront := List.Subset.trans (List.subset_append_left front [t]) hts
    refine .bind (answers_target h hfront) fun place hplace => .pure ?_
    rintro n ⟨⟩
    exact hplace.store (.one rfl rfl hplace.load)
  · split
    · exact .pure fun n hn => nomatch hn
    · rename_i front op rest hcut
      obtain ⟨t, rfl, -⟩ := cutAssignment_eq_some hcut
      have hfront := List.Subset.trans (List.subset_append_left front (t :: rest)) hts
      have hrest := List.subset_of_cons_subset
        (List.Subset.trans (List.subset_append_right front (t :: rest)) hts)
      refine .bind (answers_target h hfront) fun place hplace => ?_
      refine .bind (h.expression hrest) fun value hvalue => ?_
      split
      · refine .pure ?_
        rintro n ⟨⟩
        exact hplace.store hvalue
      · refine .pure ?_
        rintro n ⟨⟩
        exact hplace.store (.two rfl rfl hplace.load hvalue)

/-! ### Forms -/

theorem answers_forLoop {header : List Token} (hheader : header ⊆ all) {body : List Statement}
    (hbody : ∀ s ∈ body, Stands all s) : Aimed all (forLoop sub ts header body) := by
  have hblock : (Node.block body).PlacedIn (PlaceOf all) := Node.placedIn_block.mpr hbody
  have hbad : ∀ {p : Node → Prop}, Answers (PointsInto all) p (throw (blame .illegalFor ts)) :=
    .throw (pointsInto_blame hts rfl)
  refine .lift_bind (refuses_splitTop (admits_pointsInto hheader) ";") fun clauses hclauses => ?_
  have hpiece : ∀ us ∈ clauses, us ⊆ all := fun us hus =>
    List.Subset.trans (splitTop_inside hclauses us hus).subset hheader
  split
  · exact hbad
  · refine .bind (p := fun _ => True) ⟨fun _ _ _ _ => trivial, fun _ => .ok _⟩ fun x _ => ?_
    refine .bind (h.expression (hpiece _ List.mem_cons_self)) fun n hn => .pure ?_
    exact hn.countdown hblock x
  · rename_i first second third
    refine .ite (.throw_bind (pointsInto_blame hts rfl)) ?_
    refine .bind (answers_mutation h (hpiece first (by simp))) fun i hi => ?_
    refine .bind (answers_mutation h (hpiece third (by simp))) fun n hn => ?_
    split
    · refine .bind (h.expression (hpiece second (by simp))) fun c hc => .pure ?_
      exact .of_parts [_, c, _] rfl rfl (by simp [hi _ rfl, hn _ rfl, hc]) hblock
    · exact hbad
  · exact hbad

theorem answers_orelse {rest : List Token} (hrest : rest ⊆ all) :
    Answers (PointsInto all) (∀ ss ∈ ·, ∀ s ∈ ss, Stands all s) (orelse sub ts rest) := by
  unfold orelse
  split
  · exact .pure fun ss hss => nomatch hss
  · rename_i t tail
    have htail : tail ⊆ all := List.subset_of_cons_subset hrest
    refine .ite (.ite ?_ ?_) (.throw_bind (pointsInto_blame hts rfl))
    · refine .bind (h.statement htail) fun s hs => .pure ?_
      rintro ss ⟨⟩ u hu
      exact List.mem_singleton.mp hu ▸ hs
    · refine .lift_bind (refuses_bracedOnly? (admits_pointsInto htail)) fun found hfound => ?_
      split
      · have hinside := List.Subset.trans (bracedOnly?_part hfound).sublist.subset htail
        refine .bind (h.block hinside) fun ss hss => .pure ?_
        rintro us ⟨⟩
        exact hss
      · exact .throw (pointsInto_blame hts rfl)

theorem answers_declaration {make : String → List String → List Statement → Node}
    (hmake : ∀ {x ps ss}, (∀ s ∈ ss, Stands all s) → (make x ps ss).PlacedIn (PlaceOf all)) :
    Aimed all (declaration sub ts make) := by
  unfold declaration
  split
  · rename_i t ht
    have hadmits := admits_pointsInto hts
    refine .lift_bind (refuses_identifier hadmits (List.mem_of_getElem? ht)) fun x _ => ?_
    refine .lift_bind (refuses_headedOnly hadmits (pointsInto_blame hts rfl) 2) fun parts hparts => ?_
    have hwithin := headedOnly_within hparts
    refine .lift_bind (refuses_parameters (admits_pointsInto
      (List.Subset.trans hwithin.header.sublist.subset hts))) fun ps _ => ?_
    refine .bind (h.block (List.Subset.trans hwithin.body.sublist.subset hts)) fun ss hss => ?_
    exact .pure (hmake hss)
  · exact .throw (pointsInto_blame hts rfl)

theorem answers_form : Aimed all (form sub ts) := by
  have hbad : ∀ {p : Node → Prop}, Answers (PointsInto all) p (throw (malformed ts)) :=
    .throw (pointsInto_blame hts rfl)
  have hpart : ∀ {us}, PartOf us ts → us ⊆ all := fun hus => List.Subset.trans hus.sublist.subset hts
  unfold form
  split
  · refine .lift_bind (refuses_bracedOnly? (admits_pointsInto hts)) fun found hfound => ?_
    split
    · refine .bind (h.block (hpart (bracedOnly?_part hfound))) fun ss hss => .pure ?_
      exact Node.placedIn_block.mpr hss
    · exact hbad
  · refine .lift_bind (refuses_headedOnly (admits_pointsInto hts) (pointsInto_blame hts rfl) 1)
      fun parts hparts => ?_
    have hwithin := headedOnly_within hparts
    refine .bind (h.expression (hpart hwithin.header)) fun c hc => ?_
    refine .bind (h.block (hpart hwithin.body)) fun ss hss => .pure ?_
    exact .of_parts [c] rfl rfl (List.forall_mem_singleton.mpr hc) (Node.placedIn_block.mpr hss)
  · refine .lift_bind (refuses_headedOnly (admits_pointsInto hts) (pointsInto_blame hts rfl) 1)
      fun parts hparts => ?_
    have hwithin := headedOnly_within hparts
    refine .bind (h.block (hpart hwithin.body)) fun ss hss => ?_
    exact answers_forLoop h hts (hpart hwithin.header) hss
  · refine .lift_bind (refuses_headed (admits_pointsInto hts) (pointsInto_blame hts rfl) 1)
      fun parts hparts => ?_
    have hwithin := headed_within hparts
    refine .bind (answers_orelse h hts (hpart hwithin.rest)) fun other hother => ?_
    refine .bind (h.expression (hpart hwithin.header)) fun c hc => ?_
    refine .bind (h.block (hpart hwithin.body)) fun ss hss => ?_
    have hheads : ∀ m ∈ [c], m.PlacedIn (PlaceOf all) := List.forall_mem_singleton.mpr hc
    split
    · exact .pure (.of_parts [c] rfl rfl hheads (Node.placedIn_block.mpr hss))
    · refine .pure (.of_parts [c] rfl rfl hheads (Node.placedIn_block.mpr ?_))
      exact List.forall_mem_append.mpr ⟨hss, hother _ rfl⟩
  · exact answers_declaration h hts fun hss => .of_parts [] rfl rfl (by simp)
      (Node.placedIn_block.mpr hss)
  · exact answers_declaration h hts fun hss => .of_parts [] rfl rfl (by simp)
      (Node.placedIn_block.mpr hss)
  · exact hbad

/-! ### Expressions -/

theorem answers_operand : Aimed all (operand sub ts) := by
  unfold operand
  split
  · exact .throw (pointsInto_nowhere rfl)
  · exact ⟨.lift fun _ => placedIn_atom, fun k =>
      .map (refuses_atom (admits_pointsInto hts) List.mem_cons_self)⟩
  · rename_i first rest _
    have hinside : ∀ i j, (first :: rest).extract i j ⊆ all := fun i j =>
      List.Subset.trans (extract_isInfix _ i j).subset hts
    have hfront : ∀ i, (first :: rest).take i ⊆ all := fun i =>
      List.Subset.trans (List.take_subset i _) hts
    refine .ite (answers_form h hts) (.ite ?_ (.ite ?_ ?_))
    · refine .lift_bind (refuses_groupStart (admits_pointsInto hts) (pointsInto_blame hts rfl))
        fun start _ => ?_
      refine .ite (h.expression (hinside _ _)) ?_
      exact .bind (answers_arguments h (hinside _ _)) fun args hargs =>
        answers_call h hts (hfront start) hargs
    · refine .lift_bind (refuses_groupStart (admits_pointsInto hts) (pointsInto_blame hts rfl))
        fun start _ => .ite ?_ ?_
      · refine .bind (h.expression (hinside _ _)) fun n hn => .pure ?_
        exact .one rfl rfl hn
      · refine .bind (h.operand (hfront start)) fun target htarget => ?_
        refine .bind (h.expression (hinside _ _)) fun i hi => .pure ?_
        exact .two rfl rfl htarget hi
    · split
      · rename_i object x hmember
        have hobject := List.Subset.trans (memberName?_part hmember).sublist.subset hts
        refine .bind (h.operand hobject) fun target htarget => .pure ?_
        exact .one rfl rfl htarget
      · exact .throw (pointsInto_blame hts rfl)

theorem answers_unary : Aimed all (unary sub ts) := by
  fun_induction unary sub ts with
  | case1 t u ts op _ ih =>
    refine .bind (ih (List.subset_of_cons_subset hts)) fun n hn => .pure ?_
    exact .one rfl rfl hn
  | case2 => exact answers_operand h hts
  | case3 => exact answers_operand h hts

theorem answers_withLevels (lvls : List (List BinaryOperator)) :
    Aimed all (withLevels sub lvls ts) := by
  induction lvls generalizing ts with
  | nil => exact answers_unary h hts
  | cons level tighter ih =>
    have hsub := @operands_inside ts 0 level none
    unfold withLevels
    generalize operands level 0 none ts = cut at hsub
    rcases cut with ⟨first, _ | ⟨m, more⟩⟩
    · exact ih hts
    · have hpiece : ∀ {us : List Token}, us.Sublist ts → us ⊆ all := fun hus =>
        List.Subset.trans hus.subset hts
      refine .ite (.throw_bind (pointsInto_blame hts rfl)) ?_
      refine .bind (ih (hpiece hsub.1.sublist)) fun left hleft => .foldlM ?_ hleft
      rintro left ⟨op, right⟩ hmem hleft
      refine .bind (ih (hpiece (hsub.2 _ hmem).sublist)) fun n hn => .pure ?_
      exact .two rfl rfl hleft hn

theorem answers_expression : Aimed all (expression sub ts) :=
  .ite (.throw (pointsInto_nowhere rfl)) (answers_withLevels h hts levels)

/-! ### Statements -/

theorem answers_statementNode : Aimed all (statementNode sub ts) := by
  unfold statementNode
  split
  · exact .pure (Node.placedIn_leaf rfl rfl)
  · have hvoid : (Node.literal .void).PlacedIn (PlaceOf all) := Node.placedIn_leaf rfl rfl
    exact .pure (.one rfl rfl hvoid)
  · have htail : ts.tail ⊆ all := List.Subset.trans (List.tail_sublist ts).subset hts
    refine .bind (h.expression htail) fun n hn => .pure ?_
    exact .one rfl rfl hn
  · refine .ite (answers_form h hts) (.bind (answers_mutation h hts) fun found hfound => ?_)
    split
    · exact .pure (hfound _ rfl)
    · exact answers_expression h hts

/-- A statement places the errors inside it that are without a place. -/
theorem answers_statement (hne : ts ≠ []) :
    Answers (PointsTo all) (Stands all) (statement sub ts) := by
  obtain ⟨t, us, rfl⟩ := List.exists_cons_of_ne_nil hne
  have ht : t ∈ all := hts List.mem_cons_self
  have hnode : Answers (PointsTo all) (·.PlacedIn (PlaceOf all))
      (placed t.position (statementNode sub (t :: us))) :=
    .mapError (answers_statementNode h hts) fun _ he => he.placedAt ht
  exact .bind hnode fun n hn => .pure ⟨⟨t, ht, rfl⟩, hn⟩

theorem answers_block :
    Answers (PointsTo all) (∀ s ∈ ·, Stands all s) (block sub ts) := by
  refine .lift_bind (refuses_statements (admits_pointsTo hts)) fun pieces hpieces =>
    .mapM fun us hus => ?_
  obtain ⟨hsub, hne⟩ := statements_inside hpieces us hus
  exact answers_statement h (List.Subset.trans hsub.subset hts) hne

end Constructs

/-! ## The whole parser -/

theorem aims_parsers (all : List Token) (n : Nat) : Aims all (parsers n) := by
  induction n with
  | zero =>
    exact ⟨fun hts => .throw (pointsInto_blame hts rfl), fun hts => .throw (pointsInto_blame hts rfl),
      fun hts => .throw (pointsInto_blame hts rfl), fun hts => .throw (pointsInto_blame hts rfl)⟩
  | succ n ih =>
    refine ⟨answers_expression ih, answers_operand ih, fun hts => ?_, fun {ts} hts => ?_⟩
    · exact (answers_block ih hts).mono (fun _ => PointsTo.into) fun _ => id
    · cases ts with
      | nil => exact .throw (pointsInto_nowhere rfl)
      | cons t ts =>
        exact (answers_statement ih hts (List.cons_ne_nil t ts)).mono (fun _ => PointsTo.into) fun _ => id

/-- **A block is refused at one of its tokens**, and the statements of a block that is accepted have
the places of tokens. -/
theorem answers_parseBlock (ts : List Token) :
    Answers (PointsTo ts) (fun ss => (Node.block ss).PlacedIn (PlaceOf ts))
      (parseBlock ts) :=
  (answers_block (aims_parsers ts ts.length) (List.Subset.refl ts)).mono (fun _ => id)
    fun _ => Node.placedIn_block.mpr

end Parser

end BoxScript
