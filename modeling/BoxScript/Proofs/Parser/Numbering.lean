import BoxScript.Proofs.Parser.Copies
import BoxScript.Proofs.Parser.Imports

/-!
# Numbers of hidden counters

The parser numbers hidden counters as it meets countdown loops: the first in the body of the program,
and those of libraries behind them. What is parsed between two states of the parser takes the numbers
between them (`Numbers`), and two parts of a construct take theirs one behind the other, in whatever
order they stand in the tree. Only a doubled node uses a number twice.

Results:
* `enumerates_parsers`: every parser numbers the loops of what it reads;
* `numbers_parseProgram`: so do programs with their libraries;
* **`counters_distinct`**: so loops with the same counter are copies of each other, no program can
  name a counter, and the names depend on the texts only.
-/

namespace BoxScript.Parser

open Token
open Relation (EqvGen)

/-! ## Numbers -/

/-- The nodes take the numbers of their counters from `k` on and in front of `k'`. -/
structure Numbers (read : List Token → Prop) (k : Nat) (ns : List Node) (k' : Nat) : Prop
    extends Separated read ns where
  le : k ≤ k'
  drawn : ∀ n ∈ ns, ∀ c, n.Uses c → ∃ i, k ≤ i ∧ i < k' ∧ c = counterName i

namespace Numbers

variable {read : List Token → Prop} {ns ms : List Node} {n : Node} {k j k' : Nat}

theorem nil (read : List Token → Prop) (k : Nat) : Numbers read k [] k :=
  ⟨⟨nofun, .nil⟩, Nat.le_refl k, nofun⟩

theorem mono {k₀ k₁ : Nat} (h : Numbers read k ns k') (hk : k₀ ≤ k) (hk' : k' ≤ k₁) :
    Numbers read k₀ ns k₁ := by
  refine ⟨h.toSeparated, Nat.le_trans hk (Nat.le_trans h.le hk'), fun n hn c hc => ?_⟩
  obtain ⟨i, hi, hi', rfl⟩ := h.drawn n hn c hc
  exact ⟨i, Nat.le_trans hk hi, Nat.lt_of_lt_of_le hi' hk', rfl⟩

theorem append (h : Numbers read k ns j) (h' : Numbers read j ms k') :
    Numbers read k (ns ++ ms) k' := by
  have hdrawn := (h.mono (Nat.le_refl k) h'.le).drawn
  have hdrawn' := (h'.mono h.le (Nat.le_refl k')).drawn
  refine ⟨⟨List.forall_mem_append.mpr ⟨h.numbered, h'.numbered⟩, ?_⟩, Nat.le_trans h.le h'.le,
    List.forall_mem_append.mpr ⟨hdrawn, hdrawn'⟩⟩
  refine List.pairwise_append.mpr ⟨h.apart, h'.apart, fun n hn m hm c hc hc' => ?_⟩
  obtain ⟨i, -, hi, rfl⟩ := h.drawn n hn c hc
  obtain ⟨i', hi', -, heq⟩ := h'.drawn m hm _ hc'
  obtain rfl := counterName_injective heq
  omega

theorem perm (h : Numbers read k ns k') (hperm : ns.Perm ms) : Numbers read k ms k' :=
  ⟨⟨fun n hn => h.numbered n (hperm.mem_iff.mpr hn),
    (hperm.pairwise_iff fun hab => Node.Apart.symm hab).mp h.apart⟩, h.le,
    fun n hn => h.drawn n (hperm.mem_iff.mpr hn)⟩

theorem sublist (h : Numbers read k ns k') (hsub : ms.Sublist ns) : Numbers read k ms k' :=
  ⟨⟨fun n hn => h.numbered n (hsub.subset hn), h.apart.sublist hsub⟩, h.le,
    fun n hn => h.drawn n (hsub.subset hn)⟩

/-- One node, by itself. -/
theorem single (hn : Numbered read n) (hle : k ≤ k')
    (hdrawn : ∀ c, n.Uses c → ∃ i, k ≤ i ∧ i < k' ∧ c = counterName i) :
    Numbers read k [n] k' :=
  ⟨⟨List.forall_mem_singleton.mpr hn, List.pairwise_singleton _ _⟩, hle,
    List.forall_mem_singleton.mpr hdrawn⟩

/-- A node that is no countdown loop has the counters of its parts. -/
theorem node (h : Numbers read k n.written k') (hn : n.counter? = none) : Numbers read k [n] k' := by
  refine single (.of_written (fun c hc => ?_) h.toSeparated) h.le fun c hc => ?_
  · rw [hn] at hc
    cases hc
  · rcases Node.uses_iff.mp hc with hown | ⟨part, hpart, hc⟩
    · rw [hn] at hown
      cases hown
    · exact h.drawn part hpart c hc

theorem leaf (hwritten : n.written = []) (hn : n.counter? = none) : Numbers read k [n] k :=
  node (hwritten ▸ nil read k) hn

/-- The number of a countdown loop stands between those of its body and those of its count. -/
theorem countdown {count : Node} {body : List Statement}
    (hbody : Numbers read k (body.map Statement.node) j) (hcount : Numbers read (j + 1) [count] k') :
    Numbers read k [.countdown (counterName j) count body] k' := by
  have hparts : Numbers read k (count :: body.map Statement.node) k' :=
    ((hbody.mono (Nat.le_refl k) (Nat.le_succ j)).append hcount).perm (List.perm_append_singleton ..)
  have hown : ∀ part ∈ count :: body.map Statement.node, ¬ part.Uses (counterName j) := by
    refine List.forall_mem_cons.mpr ⟨fun hc => ?_, fun part hpart hc => ?_⟩
    · obtain ⟨i, hi, -, heq⟩ := hcount.drawn count List.mem_cons_self _ hc
      obtain rfl := counterName_injective heq
      omega
    · obtain ⟨i, -, hi, heq⟩ := hbody.drawn part hpart _ hc
      obtain rfl := counterName_injective heq
      omega
  refine single (.of_written (fun c hc => ?_) hparts.toSeparated) hparts.le fun c hc => ?_
  · exact Option.some.inj hc ▸ hown
  · rcases Node.uses_iff.mp hc with hc | ⟨part, hpart, hc⟩
    · have hle := hbody.le
      have hle' := hcount.le
      exact ⟨j, hle, by omega, (Option.some.inj hc).symm⟩
    · exact hparts.drawn part hpart c hc

theorem doubled {place : Target} {value : Node} {more : List Node}
    (h : Numbers read k (place.load.written ++ more) k')
    (hdoubled : Doubled read place (place.store value)) (hcounter : value.counter? = none)
    (hvalue : value.written = place.load :: more) : Numbers read k [place.store value] k' := by
  refine single (hdoubled.numbered hcounter hvalue h.toSeparated) h.le fun c hc => ?_
  obtain ⟨p, hp⟩ := hc
  obtain ⟨i, f, s, hf, hs, -⟩ := hdoubled.exists_copy hcounter hvalue hp
  exact h.drawn f (List.mem_of_getElem? hf) c ⟨s, hs⟩

end Numbers

variable {read : List Token → Prop}

/-- Items are numbered one behind the other. -/
theorem draws_mapM {α ι : Type} {f : ι → Parse α} (g : α → Node) {items : List ι} {k : Nat}
    (h : ∀ i ∈ items, ∀ k, Draws k (f i) fun a k' => Numbers read k [g a] k') :
    Draws k (items.mapM f) fun as k' => Numbers read k (as.map g) k' := by
  induction items generalizing k with
  | nil => exact .pure (.nil read k)
  | cons i items ih =>
    rw [List.mapM_cons]
    refine .bind (h i List.mem_cons_self k) fun a j ha => ?_
    refine .bind (ih fun i hi => h i (List.mem_cons_of_mem _ hi)) fun as k' has => .pure ?_
    exact ha.append has

/-! ## Constructs -/

/-- All that stands together in the tokens is read. -/
def Covered (read : List Token → Prop) (ts : List Token) : Prop :=
  ∀ us, us <:+: ts → read us

variable {ts : List Token}

theorem Covered.part {us : List Token} (h : Covered read ts) (hus : us <:+: ts) : Covered read us :=
  fun vs hvs => h vs (hvs.trans hus)

theorem Covered.extract (h : Covered read ts) (i j : Nat) : Covered read (ts.extract i j) :=
  h.part (extract_isInfix ts i j)

/-- With that many rounds, the parser numbers the countdown loops of what it reads. -/
structure Enumerates (read : List Token → Prop) (depth : Nat) : Prop where
  expression : ∀ {ts}, Covered read ts → ∀ k,
    Draws k ((parsers depth).expression ts) fun n k' => Numbers read k [n] k'
  operand : ∀ {ts}, Covered read ts → ∀ k,
    Draws k ((parsers depth).operand ts) fun n k' => Numbers read k [n] k'
  block : ∀ {ts}, Covered read ts → ∀ k,
    Draws k ((parsers depth).block ts) fun ss k' => Numbers read k (ss.map Statement.node) k'
  statement : ∀ {ts}, Covered read ts → ∀ k,
    Draws k ((parsers depth).statement ts) fun s k' => Numbers read k [s.node] k'

section Constructs

variable {read : List Token → Prop} {depth : Nat} (h : Enumerates read depth) {ts : List Token}
  (hts : Covered read ts) (k : Nat)

omit h hts in
theorem numbers_atom {t : Token} {n : Node} (hn : atom t = .ok n) : Numbers read k [n] k := by
  unfold atom at hn
  split at hn
  case h_4 => cases hn
  case h_3 =>
    split at hn
    case h_4 =>
      obtain ⟨x, -, rfl⟩ := Except.exists_of_map_eq_ok hn
      exact .leaf rfl rfl
    all_goals exact Except.ok.inj hn ▸ .leaf rfl rfl
  all_goals exact Except.ok.inj hn ▸ .leaf rfl rfl

include h hts

/-! ### Assignments -/

theorem draws_indexTarget? :
    Draws k (indexTarget? (parsers depth) ts) fun found k' =>
      k ≤ k' ∧ ∀ place ∈ found, Numbers read k place.load.written k' := by
  refine .ite (.lift_bind fun start hstart => .ite (.pure ⟨Nat.le_refl k, nofun⟩) ?_)
    (.pure ⟨Nat.le_refl k, nofun⟩)
  refine .bind (h.operand (hts.part (List.take_prefix _ _).isInfix) k) fun t j ht => ?_
  refine .bind (h.expression (hts.extract _ _) j) fun i k' hi => .pure ⟨?_, ?_⟩
  · exact (ht.append hi).le
  · rintro place ⟨⟩
    exact ht.append hi

theorem draws_target :
    Draws k (target (parsers depth) ts) fun place k' => Numbers read k place.load.written k' := by
  unfold target
  split
  · exact .throw _
  · exact .lift_bind fun x _ => .pure (.nil read k)
  · refine .bind (draws_indexTarget? h hts k) fun found j hfound => ?_
    split
    · exact .pure (hfound.2 _ rfl)
    · split
      · rename_i object x hmember
        have hobject := hts.part (memberName?_part hmember).inside
        refine .bind (h.operand hobject j) fun t k' ht => .pure ?_
        exact ht.mono hfound.1 (Nat.le_refl k')
      · exact .throw _

omit h hts in
theorem draws_unassigned (sub : Parsers) (ts : List Token) :
    Draws k (mutation sub ts) fun found k' => found = none → k' = k := by
  unfold mutation
  split
  · exact .bind (fun _ _ _ => trivial) fun place j _ => .pure nofun
  · split
    · exact .pure fun _ => rfl
    · refine .bind (fun _ _ _ => trivial) fun place j _ => ?_
      refine .bind (fun _ _ _ => trivial) fun v j' _ => ?_
      split
      · exact .pure nofun
      · exact .pure nofun

/-- An assignment or a step. Those that are compound are doubled. -/
theorem draws_mutation :
    Draws k (mutation (parsers depth) ts) fun found k' => ∀ n ∈ found, Numbers read k [n] k' := by
  rintro _ k' hread n ⟨⟩
  have hsteps := hread
  unfold mutation at hsteps
  cases hstep : stepped? ts with
  | some step =>
    obtain ⟨front, op⟩ := step
    obtain ⟨t, rfl, -⟩ := stepped?_eq_some hstep
    have hfront := hts.part (List.prefix_append front [t]).isInfix
    rw [hstep] at hsteps
    obtain ⟨place, j, hplace, hpure⟩ := exists_of_bind_eq_ok hsteps
    cases hpure
    have hparts := (draws_target h hfront k place _ hplace).append (.nil read k')
    exact hparts.doubled (.step (hts _ List.infix_rfl) hstep hread) rfl rfl
  | none =>
    rw [hstep] at hsteps
    cases hcut : cutAssignment 0 ts with
    | none =>
      rw [hcut] at hsteps
      cases hsteps
    | some cut =>
      obtain ⟨front, op, rest⟩ := cut
      obtain ⟨t, rfl, -⟩ := cutAssignment_eq_some hcut
      have hfront := hts.part (List.prefix_append front (t :: rest)).isInfix
      have hrest : Covered read rest := hts.part ⟨front ++ [t], [], by simp⟩
      rw [hcut] at hsteps
      obtain ⟨place, j, hplace, hvalue⟩ := exists_of_bind_eq_ok hsteps
      obtain ⟨v, j', hv, hpure⟩ := exists_of_bind_eq_ok hvalue
      have hparts := (draws_target h hfront k place j hplace).append (h.expression hrest j v j' hv)
      cases op with
      | none =>
        cases hpure
        refine .node ?_ (place.counter?_store v)
        rw [place.written_store]
        exact hparts
      | some op =>
        cases hpure
        exact hparts.doubled (.compound (hts _ List.infix_rfl) hstep hcut hread) rfl rfl

/-! ### Forms -/

omit h hts in
theorem draws_freshCounter : Draws k freshCounter fun c k' => c = counterName k ∧ k' = k + 1 := by
  rintro c k' ⟨⟩
  exact ⟨rfl, rfl⟩

variable {k₀ : Nat}

/-- A loop with a body that is read in front of its header. -/
theorem draws_forLoop (all : List Token) {body : List Statement}
    (hbody : Numbers read k₀ (body.map Statement.node) k) :
    Draws k (forLoop (parsers depth) all ts body) fun n k' => Numbers read k₀ [n] k' := by
  refine .lift_bind fun clauses hclauses => ?_
  have hpiece : ∀ us ∈ clauses, Covered read us := fun us hus =>
    hts.part (splitTop_inside hclauses us hus)
  split
  · exact .throw _
  · refine .bind (draws_freshCounter k) ?_
    rintro _ _ ⟨rfl, rfl⟩
    refine .bind (h.expression (hpiece _ (by simp)) (k + 1)) fun count k' hcount => .pure ?_
    exact hbody.countdown hcount
  · rename_i first second third
    refine .ite (.throw_bind _ _) ?_
    refine .bind (draws_mutation h (hpiece first (by simp)) k) fun i j hi => ?_
    refine .bind (draws_mutation h (hpiece third (by simp)) j) fun n j' hn => ?_
    split
    · rename_i init increment
      refine .bind (h.expression (hpiece second (by simp)) j') fun c k' hc => .pure ?_
      have hparts := hbody.append (((hi init rfl).append (hn increment rfl)).append hc)
      refine .node (hparts.perm ?_) rfl
      exact List.perm_append_comm.trans ((List.Perm.swap c increment _).cons init)
    · exact .throw _
  · exact .throw _

theorem draws_orelse (all : List Token) :
    Draws k (orelse (parsers depth) all ts) fun other k' =>
      Numbers read k ((other.getD []).map Statement.node) k' := by
  unfold orelse
  split
  · exact .pure (.nil read k)
  · rename_i t tail
    have htail := hts.part (List.suffix_cons t tail).isInfix
    refine .ite (.ite ?_ ?_) (.throw_bind _ _)
    · exact .bind (h.statement htail k) fun s k' hs => .pure hs
    · refine .lift_bind fun found hfound => ?_
      split
      · have hinside := htail.part (bracedOnly?_part hfound).inside
        exact .bind (h.block hinside k) fun ss k' hss => .pure hss
      · exact .throw _

theorem draws_declaration {make : String → List String → List Statement → Node}
    (hwritten : ∀ x ps ss, (make x ps ss).written = ss.map Statement.node)
    (hmake : ∀ x ps ss, (make x ps ss).counter? = none) :
    Draws k (declaration (parsers depth) ts make) fun n k' => Numbers read k [n] k' := by
  unfold declaration
  split
  · refine .lift_bind fun x _ => .lift_bind fun parts hparts => .lift_bind fun ps _ => ?_
    have hbody := hts.part (headedOnly_within hparts).body.inside
    refine .bind (h.block hbody k) fun ss k' hss => .pure ?_
    exact .node (hwritten x ps ss ▸ hss) (hmake x ps ss)
  · exact .throw _

theorem draws_form :
    Draws k (form (parsers depth) ts) fun n k' => Numbers read k [n] k' := by
  unfold form
  split
  · refine .lift_bind fun found hfound => ?_
    split
    · refine .bind (h.block (hts.part (bracedOnly?_part hfound).inside) k) fun ss k' hss => .pure ?_
      exact .node hss rfl
    · exact .throw _
  · refine .lift_bind fun parts hparts => ?_
    have hwithin := headedOnly_within hparts
    refine .bind (h.expression (hts.part hwithin.header.inside) k) fun c j hc => ?_
    refine .bind (h.block (hts.part hwithin.body.inside) j) fun ss k' hss => .pure ?_
    exact .node (hc.append hss) rfl
  · refine .lift_bind fun parts hparts => ?_
    have hwithin := headedOnly_within hparts
    refine .bind (h.block (hts.part hwithin.body.inside) k) fun ss j hss => ?_
    exact draws_forLoop h (hts.part hwithin.header.inside) j ts hss
  · refine .lift_bind fun parts hparts => ?_
    have hwithin := headed_within hparts
    refine .bind (draws_orelse h (hts.part hwithin.rest.inside) k ts) fun other j hother => ?_
    refine .bind (h.expression (hts.part hwithin.header.inside) j) fun c j' hc => ?_
    refine .bind (h.block (hts.part hwithin.body.inside) j') fun ss k' hss => ?_
    have hparts := hother.append (hc.append hss)
    split
    · exact .pure (.node hparts rfl)
    · rename_i os
      have hwritten : (Node.ifElse c ss os).written =
          (c :: ss.map Statement.node) ++ os.map Statement.node :=
        congrArg (c :: ·) List.map_append
      refine .pure (.node (hparts.perm ?_) rfl)
      rw [hwritten]
      exact List.perm_append_comm
  · exact draws_declaration h hts k (fun _ _ _ => rfl) fun _ _ _ => rfl
  · exact draws_declaration h hts k (fun _ _ _ => rfl) fun _ _ _ => rfl
  · exact .throw _

/-! ### Expressions -/

theorem draws_arguments :
    Draws k (arguments (parsers depth) ts) fun args k' => Numbers read k args k' := by
  refine .ite (.pure (.nil read k)) (.lift_bind fun pieces hpieces => ?_)
  refine .ite (.throw_bind _ _) ?_
  have hargs := draws_mapM (k := k) id fun us hus k =>
    h.expression (hts.part (splitTop_inside hpieces us hus)) k
  simpa using hargs

/-- A call of which the arguments are read first. -/
theorem draws_call (all : List Token) {args : List Node} (hargs : Numbers read k₀ args k) :
    Draws k (call (parsers depth) all ts args) fun n k' => Numbers read k₀ [n] k' := by
  have honly : ∀ {a}, onlyArgument all args = .ok a → Numbers read k₀ [a] k := by
    intro a ha
    unfold onlyArgument at ha
    split at ha
    · cases ha
      exact hargs
    · cases ha
  unfold call
  split
  · refine .ite ?_ (.ite ?_ ?_)
    · exact .lift_bind fun a ha => .pure (.node (honly ha) rfl)
    · exact .lift_bind fun a ha => .pure (.node (honly ha) rfl)
    · exact .lift_bind fun x _ => .pure (.node hargs rfl)
  · exact .ite (.lift_bind fun x _ => .pure (.node hargs rfl)) (.throw _)
  · split
    · rename_i object x hmember
      refine .bind (h.operand (hts.part (memberName?_part hmember).inside) k) fun t k' ht => .pure ?_
      exact .node ((hargs.append ht).perm (List.perm_append_singleton t args)) rfl
    · exact .throw _

theorem draws_operand : Draws k (operand (parsers depth) ts) fun n k' => Numbers read k [n] k' := by
  unfold operand
  split
  · exact .throw _
  · exact .lift fun n hn => numbers_atom k hn
  · refine .ite (draws_form h hts k) (.ite (.lift_bind fun start _ => ?_)
      (.ite (.lift_bind fun start _ => ?_) ?_))
    · refine .ite (h.expression (hts.extract _ _) k) ?_
      refine .bind (draws_arguments h (hts.extract _ _) k) fun args j hargs => ?_
      exact draws_call h (hts.part (List.take_prefix _ _).isInfix) j _ hargs
    · refine .ite ?_ ?_
      · exact .bind (h.expression (hts.extract _ _) k) fun n k' hn => .pure (.node hn rfl)
      · refine .bind (h.operand (hts.part (List.take_prefix _ _).isInfix) k) fun t j ht => ?_
        refine .bind (h.expression (hts.extract _ _) j) fun i k' hi => .pure ?_
        exact .node (ht.append hi) rfl
    · split
      · rename_i object x hmember
        have hobject := hts.part (memberName?_part hmember).inside
        exact .bind (h.operand hobject k) fun t k' ht => .pure (.node ht rfl)
      · exact .throw _

theorem draws_unary : Draws k (unary (parsers depth) ts) fun n k' => Numbers read k [n] k' := by
  induction ts with
  | nil => exact draws_operand h hts k
  | cons t ts ih =>
    cases ts with
    | nil => exact draws_operand h hts k
    | cons u ts =>
      have hrest := hts.part (List.suffix_cons t (u :: ts)).isInfix
      unfold unary
      cases leadingOperator? t with
      | none => exact draws_operand h hts k
      | some op => exact .bind (ih hrest) fun n k' hn => .pure (.node hn rfl)

theorem draws_withLevels (lvls : List (List BinaryOperator)) :
    Draws k (withLevels (parsers depth) lvls ts) fun n k' => Numbers read k [n] k' := by
  induction lvls generalizing ts k with
  | nil => exact draws_unary h hts k
  | cons level tighter ih =>
    have hsub := @operands_inside ts 0 level none
    unfold withLevels
    generalize operands level 0 none ts = cut at hsub
    rcases cut with ⟨first, _ | ⟨m, more⟩⟩
    · exact ih hts k
    · refine .ite (.throw_bind _ _) ?_
      refine .bind (ih (hts.part hsub.1.isInfix) k) fun left j hleft => .foldlM ?_ hleft
      rintro left j ⟨op, right⟩ hmem hleft
      refine .bind (ih (hts.part (hsub.2 _ hmem)) j) fun n k' hn => .pure ?_
      exact .node (hleft.append hn) rfl

theorem draws_expression :
    Draws k (expression (parsers depth) ts) fun n k' => Numbers read k [n] k' :=
  .ite (.throw _) (draws_withLevels h hts k levels)

/-! ### Statements -/

theorem draws_statementNode :
    Draws k (statementNode (parsers depth) ts) fun n k' => Numbers read k [n] k' := by
  unfold statementNode
  split
  · exact .pure (.leaf rfl rfl)
  · exact .pure (.node (.leaf rfl rfl) rfl)
  · have hrest := hts.part (List.tail_suffix ts).isInfix
    exact .bind (h.expression hrest k) fun n k' hn => .pure (.node hn rfl)
  · refine .ite (draws_form h hts k) ?_
    have hmutation := (draws_mutation h hts k).and (draws_unassigned k (parsers depth) ts)
    refine .bind hmutation fun found j hfound => ?_
    split
    · exact .pure (hfound.1 _ rfl)
    · obtain rfl := hfound.2 rfl
      exact draws_expression h hts j

theorem draws_statement :
    Draws k (statement (parsers depth) ts) fun s k' => Numbers read k [s.node] k' := by
  unfold statement
  split
  · exact .throw _
  · exact .bind ((draws_statementNode h hts k).mapError _) fun n k' hn => .pure hn

theorem draws_block :
    Draws k (block (parsers depth) ts) fun ss k' => Numbers read k (ss.map Statement.node) k' :=
  .lift_bind fun _ hpieces => draws_mapM _ fun us hus k =>
    draws_statement h (hts.part (statements_inside hpieces us hus).1) k

end Constructs

theorem enumerates_parsers (read : List Token → Prop) (depth : Nat) : Enumerates read depth := by
  induction depth with
  | zero => exact ⟨fun _ _ => .throw _, fun _ _ => .throw _, fun _ _ => .throw _, fun _ _ => .throw _⟩
  | succ depth ih =>
    exact ⟨draws_expression ih, draws_operand ih, draws_block ih, draws_statement ih⟩

/-! ## Programs -/

/-- The nodes of declarations. -/
def Declarations.nodes (d : Declarations) : List Node :=
  (d.classes ++ d.functions).map Statement.node

section Declarations

variable {read : List Token → Prop} {k j k' : Nat} {d e : Declarations} {body : List Statement}

theorem Numbers.declarations (hd : Numbers read k d.nodes j) (he : Numbers read j e.nodes k') :
    Numbers read k (d.append e).nodes k' := by
  refine (hd.append he).perm ?_
  rw [Declarations.nodes, Declarations.nodes, ← List.map_append]
  refine List.Perm.map _ ?_
  show (d.classes ++ d.functions ++ (e.classes ++ e.functions)).Perm
    (d.classes ++ e.classes ++ (d.functions ++ e.functions))
  rw [List.append_assoc, List.append_assoc]
  exact (List.perm_append_comm_assoc ..).append_left _

/-- No declaration is kept twice. -/
theorem Numbers.ofBlock (h : Numbers read k (body.map Statement.node) k') :
    Numbers read k (Declarations.ofBlock body).nodes k' := by
  have hother : (fun s : Statement => s.isFunctionDef) ≤ fun s => !s.isClassDef := by
    intro s hs
    unfold Statement.isFunctionDef at hs
    dsimp only [Statement.isClassDef] at hs ⊢
    split at hs
    · rename_i hnode
      rw [hnode]
      rfl
    · cases hs
  have hsub : ((body.filter (·.isClassDef)) ++ body.filter (·.isFunctionDef)).Sublist
      (body.filter (·.isClassDef) ++ body.filter fun s => !s.isClassDef) :=
    (List.Sublist.refl _).append (List.monotone_filter_right body hother)
  refine (h.perm ((List.filter_append_perm (·.isClassDef) body).map _).symm).sublist ?_
  exact hsub.map _

variable {loader : Option Loader} {reached : String → Prop}

theorem draws_declarations
    (hreached : ∀ {n library header}, reached n → findLibrary loader n = .ok library →
      Header.ofSource library.content = .ok header →
      Covered read header.body ∧ ∀ m ∈ header.imports, reached m)
    {depth : Nat} {names : List String} (hnames : ∀ n ∈ names, reached n) (seen : List String)
    (k : Nat) :
    Draws k (declarations loader depth names seen) fun r k' => Numbers read k r.1.nodes k' := by
  induction depth generalizing names seen k with
  | zero => exact .pure (.nil read k)
  | succ depth ih =>
    unfold declarations
    refine .foldlM (q := fun (r : Declarations × List String) j => Numbers read k r.1.nodes j) ?_
      (.nil read k)
    rintro ⟨found, seen⟩ j name hname hfound
    refine .ite (.pure hfound) (.lift_bind fun library hlibrary => ?_)
    have hdeclared : Draws j (libraryDeclarations
        (fun names => declarations loader depth names (name :: seen)) library)
        fun r k' => Numbers read j r.1.nodes k' := by
      refine .mapError (.lift_bind fun header hheader => ?_) _
      obtain ⟨hbody, himports⟩ := hreached (hnames name hname) hlibrary hheader
      refine .bind (ih himports (name :: seen) j) fun before j' hbefore => ?_
      refine .bind ((enumerates_parsers read _).block hbody j') fun body k' hbody => .pure ?_
      exact hbefore.declarations hbody.ofBlock
    refine .bind hdeclared fun more k' hmore => .pure ?_
    exact hfound.declarations hmore

end Declarations

/-- The tokens stand together in the text of the program or of a library that it reaches. -/
def Reads (loader : Option Loader) (source : String) (us : List Token) : Prop :=
  ∃ header, Header.ofSource source = .ok header ∧ (us <:+: header.body ∨
    ∃ l ∈ loader, ∃ n, Reaches l.imports header.imports n ∧
      ∃ library, l.header n = .ok library ∧ us <:+: library.body)

variable {loader : Option Loader} {source : String}

/-- The text of a library that is reached is read, and what it imports is reached too. -/
theorem reads_library {n : String} {library : Library} {header inner : Header}
    (hheader : Header.ofSource source = .ok header)
    (hn : ∀ l ∈ loader, Reaches l.imports header.imports n)
    (hlibrary : findLibrary loader n = .ok library)
    (hinner : Header.ofSource library.content = .ok inner) :
    Covered (Reads loader source) inner.body ∧
      ∀ m ∈ inner.imports, ∀ l ∈ loader, Reaches l.imports header.imports m := by
  cases loader with
  | none => cases hlibrary
  | some l =>
    have hfound : l.header n = .ok inner := by
      unfold Loader.header
      rw [hlibrary]
      exact hinner
    obtain ⟨m, hm, hmn⟩ := hn l rfl
    constructor
    · intro us hus
      exact ⟨header, hheader, .inr ⟨l, rfl, n, ⟨m, hm, hmn⟩, inner, hfound, hus⟩⟩
    · rintro x hx _ ⟨⟩
      refine ⟨m, hm, hmn.tail ?_⟩
      rw [Loader.imports, hfound]
      exact hx

/-- **The loops of a program are numbered.** -/
theorem numbers_parseProgram {program : List Statement}
    (h : parseProgram loader source = .ok program) :
    ∃ k, Numbers (Reads loader source) 0 [.block program] k := by
  obtain ⟨header, hheader, hrun⟩ := Except.exists_of_bind_eq_ok h
  have hbody : Covered (Reads loader source) header.body := fun us hus =>
    ⟨header, hheader, .inl hus⟩
  refine Draws.run' (q := fun ss => Numbers (Reads loader source) 0 [.block ss]) ?_ hrun
  refine .bind ((enumerates_parsers _ _).block hbody 0) fun ss k hss => ?_
  have hblock : Numbers (Reads loader source) 0 [.block ss] k := .node hss rfl
  refine .ite (.pure hblock) ?_
  refine .bind (draws_declarations (reads_library hheader) ?_ [] k) fun d k' hd => .pure ?_
  · exact fun n hn l _ => ⟨n, hn, .refl⟩
  · have hall := (hblock.append hd).perm List.perm_append_comm
    refine .node ?_ rfl
    rw [Node.written_block, List.map_append]
    exact hall

/-! ## Counters of a program -/

/-- **Hidden counters do not clash.** Two countdown loops of a program and its libraries have the same
counter just if they are copies of one loop that compound assignments or steps have made. A loop that
stands in another never has its counter. No name token is a counter, and no name that is written in
the program is one. Libraries with the same texts give the same counters. -/
theorem counters_distinct {loader : Option Loader} {source : String} {program : List Statement}
    (h : parseProgram loader source = .ok program) :
    (∀ p q c d, (Node.block program).counterAt? p = some c →
      (Node.block program).counterAt? q = some d →
      (c = d ↔ EqvGen (Copied (Reads loader source) (.block program)) p q)) ∧
    (∀ p q c d, (Node.block program).counterAt? p = some c → q ≠ [] →
      (Node.block program).counterAt? (p ++ q) = some d → c ≠ d) ∧
    (∀ p c, (Node.block program).counterAt? p = some c →
      (∀ text ts, tokenize text = .ok ts → ∀ t ∈ ts, t.kind = .name → t.text ≠ c) ∧
      ∀ q n, (Node.block program).at? q = some n → c ∉ n.names) ∧
    ∀ l l', loader = some l → l.Bounded → l'.Bounded → SameTexts l l' →
      parseProgram (some l') source = .ok program := by
  obtain ⟨k, hnumbers⟩ := numbers_parseProgram h
  obtain ⟨hcopies, hnested⟩ := hnumbers.numbered _ List.mem_cons_self
  have hcounter : ∀ p c, (Node.block program).counterAt? p = some c → IsCounter c := by
    intro p c hp
    obtain ⟨i, -, -, rfl⟩ := hnumbers.drawn _ List.mem_cons_self c ⟨p, hp⟩
    exact isCounter_counterName i
  have hnamed : (Node.block program).Named := (WellFormed.block (wellFormed_parseProgram h)).named
  refine ⟨fun p q c d hp hq => ⟨?_, fun hpq => ?_⟩, ?_, ?_, ?_⟩
  · rintro rfl
    exact hcopies hp hq
  · rw [Node.counterAt?, at?_eq_of_eqvGen hpq] at hp
    exact Option.some.inj (hp.symm.trans hq)
  · rintro p q c _ hp hne hpq rfl
    exact hnested p q c hp hne hpq
  · intro p c hp
    have hnone := (hcounter p c hp).not_isIdentifier
    refine ⟨fun text ts hts t ht hkind heq => ?_, fun q n hn hmem => ?_⟩
    · rw [← heq, proper_tokenize hts t ht hkind] at hnone
      cases hnone
    · rw [hnamed q n hn c hmem] at hnone
      cases hnone
  · rintro l l' rfl hl hl' hsame
    exact parseProgram_of_sameTexts hsame hl hl' h

/-- A library with a loop. -/
def loopLibrary : Loader :=
  .ofTexts [("m", "fun f() \x7b for (z) \x7b \x7d \x7d")]

/-- A loop in a target that is added to, and a loop in a loop. -/
def loopText : String :=
  "import m; a[\x7b for (x) \x7b \x7d \x7d] += y; for (x) \x7b for (y) \x7b \x7d \x7d"

theorem counters_distinct_loops :
    ∃ program, parseProgram (some loopLibrary) loopText = .ok program ∧
      [[0, 0], [1, 0, 1, 0], [1, 0, 2, 0, 1, 0], [1, 1], [1, 1, 1]].map
        (Node.block program).counterAt? = [some "#3", some "#0", some "#0", some "#2", some "#1"] ∧
      EqvGen (Copied (Reads (some loopLibrary) loopText) (.block program))
        [1, 0, 1, 0] [1, 0, 2, 0, 1, 0] ∧
      ¬ EqvGen (Copied (Reads (some loopLibrary) loopText) (.block program)) [0, 0] [1, 1] := by
  obtain ⟨program, hprogram, hcounters⟩ := exists_of_any
    (x := parseProgram (some loopLibrary) loopText) (fun ss =>
      [[0, 0], [1, 0, 1, 0], [1, 0, 2, 0, 1, 0], [1, 1], [1, 1, 1]].map (Node.block ss).counterAt? =
        [some "#3", some "#0", some "#0", some "#2", some "#1"]) (by decide +kernel)
  have hcounters := of_decide_eq_true hcounters
  refine ⟨program, hprogram, hcounters, ?_⟩
  simp only [List.map_cons, List.cons.injEq] at hcounters
  obtain ⟨hlibrary, htarget, hcopy, houter, -⟩ := hcounters
  obtain ⟨hcopies, -⟩ := counters_distinct hprogram
  constructor
  · exact (hcopies _ _ _ _ htarget hcopy).mp rfl
  · intro heq
    exact absurd ((hcopies _ _ _ _ hlibrary houter).mpr heq) (by decide)

end BoxScript.Parser
