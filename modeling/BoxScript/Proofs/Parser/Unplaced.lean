import BoxScript.Parser.Program
import BoxScript.Proofs.Parser.Form
import BoxScript.Proofs.Token.Spacing
import BoxScript.Proofs.Token.Unplaced

/-!
# Parsing does not look at places

The parser puts the places of tokens into its trees and errors and decides nothing by them. So the
places can be forgotten before parsing or after it: `Parse.forget f (p ts) = p (unplacedAll ts)` for
each parser `p`, where `f` forgets the places in its results. `Blind` says so of the parsers that a
construct calls on its parts, and the law of each construct is proved from it.

Results:
* `parseBlock_unplaced`: the law of a whole block.
* `sameParse_parseProgram`: two texts with the same tokens parse alike, with the same libraries.
* **`parseProgram_spaced`**: a text with other gaps between its tokens parses alike.
-/

namespace BoxScript

open Token

/-! ## Trees without places -/

mutual

/-- A value whose tree is without places. -/
def Value.unplaced : Value → Value
  | .ret e => .ret e.unplaced
  | v => v

/-- A tree without the places of its statements. -/
def Node.unplaced : Node → Node
  | .literal v => .literal v.unplaced
  | .arrayInit size => .arrayInit size.unplaced
  | .lookup name => .lookup name
  | .assign name value => .assign name value.unplaced
  | .indexGet target index => .indexGet target.unplaced index.unplaced
  | .indexSet target index value => .indexSet target.unplaced index.unplaced value.unplaced
  | .binary op left right => .binary op left.unplaced right.unplaced
  | .unary op operand => .unary op operand.unplaced
  | .block body => .block (unplacedStatements body)
  | .ifThen condition body => .ifThen condition.unplaced (unplacedStatements body)
  | .ifElse condition body orelse =>
    .ifElse condition.unplaced (unplacedStatements body) (unplacedStatements orelse)
  | .whileLoop condition body => .whileLoop condition.unplaced (unplacedStatements body)
  | .forLoop init condition increment body =>
    .forLoop init.unplaced condition.unplaced increment.unplaced (unplacedStatements body)
  | .countdown counter count body => .countdown counter count.unplaced (unplacedStatements body)
  | .print operand => .print operand.unplaced
  | .read => .read
  | .raise message => .raise message.unplaced
  | .functionDef name params body => .functionDef name params (unplacedStatements body)
  | .functionCall name args => .functionCall name (unplacedNodes args)
  | .classDef name params body => .classDef name params (unplacedStatements body)
  | .new name args => .new name (unplacedNodes args)
  | .fieldGet target name => .fieldGet target.unplaced name
  | .fieldSet target name value => .fieldSet target.unplaced name value.unplaced
  | .methodCall target name args => .methodCall target.unplaced name (unplacedNodes args)

/-- Statements without their places. -/
def unplacedStatements : List Statement → List Statement
  | [] => []
  | .mk p node :: ss => .mk (p.map fun _ => .nowhere) node.unplaced :: unplacedStatements ss

/-- Trees without places. -/
def unplacedNodes : List Node → List Node
  | [] => []
  | a :: as => a.unplaced :: unplacedNodes as

end

/-- A statement without its place. -/
def Statement.unplaced : Statement → Statement
  | .mk p node => .mk (p.map fun _ => .nowhere) node.unplaced

theorem unplacedStatements_eq_map (ss : List Statement) :
    unplacedStatements ss = ss.map Statement.unplaced := by
  induction ss with
  | nil => rfl
  | cons s ss ih =>
    cases s
    rw [unplacedStatements, ih]
    rfl

theorem unplacedNodes_eq_map (as : List Node) : unplacedNodes as = as.map Node.unplaced := by
  induction as with
  | nil => rfl
  | cons a as ih => rw [unplacedNodes, ih, List.map_cons]

/-! ## Forgetting what a parser gives -/

/-- What a parser gives, without its places: `f` takes them out of a result. -/
def Parse.forget {α : Type} (f : α → α) (x : Parse α) : Parse α :=
  fun n => BoxScript.forget (Prod.map f id) (x n)

namespace Parse

variable {α β ι κ : Type} {f : α → α} {g : β → β}

theorem forget_pure {a b : α} (h : f a = b) : forget f (pure a) = pure b := by
  subst h
  rfl

theorem forget_pure_congr {a b : α} (h : f a = f b) : forget f (pure a) = forget f (pure b) :=
  (forget_pure h).trans (forget_pure rfl).symm

theorem forget_throw (e : ParseError) :
    forget f (throw e : Parse α) = (throw e.unplaced : Parse α) := rfl

theorem forget_bind {x x' : Parse α} (hx : forget f x = x') {k k' : α → Parse β}
    (hk : ∀ a, forget g (k a) = k' (f a)) : forget g (x >>= k) = x' >>= k' := by
  subst hx
  funext n
  show BoxScript.forget _ ((x n).bind fun p => k p.1 p.2) =
    (BoxScript.forget _ (x n)).bind fun p => k' p.1 p.2
  cases x n with
  | error e => rfl
  | ok p => exact congrFun (hk p.1) p.2

theorem forget_ite {c c' : Prop} [Decidable c] [Decidable c'] (hc : c ↔ c') {x x' y y' : Parse α}
    (hx : forget f x = x') (hy : forget f y = y') :
    forget f (if c then x else y) = if c' then x' else y' := by
  simp only [apply_ite (forget f), hx, hy, hc]

theorem forget_lift {x x' : Except ParseError α} (hx : BoxScript.forget f x = x') :
    forget f (liftM x) = liftM x' := by
  subst hx
  cases x <;> rfl

theorem forget_bind_congr {x y : Parse α} (hxy : forget f x = forget f y) {k k' : α → Parse β}
    (hk : ∀ a b, f a = f b → forget g (k a) = forget g (k' b)) :
    forget g (x >>= k) = forget g (y >>= k') := by
  funext n
  refine BoxScript.forget_bind_congr (congrFun hxy n) fun ⟨a, m⟩ ⟨b, m'⟩ hab => ?_
  obtain ⟨hfst, rfl⟩ := Prod.mk.inj hab
  exact congrFun (hk a b hfst) m

theorem forget_run' {x y : Parse α} (hxy : forget f x = forget f y) (n : Nat) :
    BoxScript.forget f (x.run' n) = BoxScript.forget f (y.run' n) := by
  have hrun : ∀ z : Parse α, BoxScript.forget f (z.run' n) = (forget f z n).map Prod.fst :=
    fun z => forget_map rfl fun _ => rfl
  rw [hrun, hrun, hxy]

theorem forget_mapM {h : ι → κ} {k : ι → Parse α} {k' : κ → Parse α} (items : List ι)
    (hk : ∀ i ∈ items, forget f (k i) = k' (h i)) :
    forget (List.map f) (items.mapM k) = (items.map h).mapM k' := by
  induction items with
  | nil => rfl
  | cons i items ih =>
    obtain ⟨hi, hitems⟩ := List.forall_mem_cons.mp hk
    rw [List.mapM_cons, List.map_cons, List.mapM_cons]
    exact forget_bind hi fun a => forget_bind (ih hitems) fun as => forget_pure rfl

theorem forget_foldlM {h : ι → κ} {k : α → ι → Parse α} {k' : α → κ → Parse α} (items : List ι)
    (hk : ∀ a, ∀ i ∈ items, forget f (k a i) = k' (f a) (h i)) (a : α) :
    forget f (items.foldlM k a) = (items.map h).foldlM k' (f a) := by
  induction items generalizing a with
  | nil => rfl
  | cons i items ih =>
    rw [List.foldlM_cons, List.map_cons, List.foldlM_cons]
    refine forget_bind (hk a i List.mem_cons_self) fun b => ih (fun a j hj => ?_) b
    exact hk a j (List.mem_cons_of_mem i hj)

theorem forget_placed (p : Position) {x x' : Parse α} (hx : forget f x = x') :
    forget f (Parser.placed p x) = Parser.placed .nowhere x' := by
  subst hx
  funext n
  show BoxScript.forget _ ((x n).mapError _) = (BoxScript.forget _ (x n)).mapError _
  cases x n with
  | ok a => rfl
  | error e =>
    obtain ⟨cause, position⟩ := e
    cases position <;> rfl

end Parse

namespace Parser

/-- What can be assigned to, without places. -/
def Target.unplaced : Target → Target
  | name x => .name x
  | index target i => .index target.unplaced i.unplaced
  | field target x => .field target.unplaced x

theorem Target.store_unplaced (place : Target) (value : Node) :
    (place.store value).unplaced = place.unplaced.store value.unplaced := by
  cases place <;> rfl

theorem Target.load_unplaced (place : Target) : place.load.unplaced = place.unplaced.load := by
  cases place <;> rfl

/-- The parsers see no places. -/
structure Blind (sub : Parsers) : Prop where
  expression : ∀ ts,
    Parse.forget Node.unplaced (sub.expression ts) = sub.expression (unplacedAll ts)
  operand : ∀ ts, Parse.forget Node.unplaced (sub.operand ts) = sub.operand (unplacedAll ts)
  block : ∀ ts, Parse.forget unplacedStatements (sub.block ts) = sub.block (unplacedAll ts)
  statement : ∀ ts,
    Parse.forget Statement.unplaced (sub.statement ts) = sub.statement (unplacedAll ts)

/-! ## Groups -/

section Groups

theorem blame_unplaced (cause : String → ParseError.Cause) (ts : List Token) :
    (blame cause ts).unplaced = blame cause (unplacedAll ts) := by
  rw [blame, blame, dense_unplaced, headPosition_unplaced]
  rfl

variable {α : Type}

theorem forget_refusal (f : α → α) (cause : String → ParseError.Cause) (ts : List Token) :
    forget f (.error (blame cause ts) : Except ParseError α) = .error (blame cause (unplacedAll ts)) :=
  congrArg Except.error (blame_unplaced cause ts)

theorem forget_blame (f : α → α) (cause : String → ParseError.Cause) (ts : List Token) :
    Parse.forget f (throw (blame cause ts) : Parse α) =
      (throw (blame cause (unplacedAll ts)) : Parse α) := by
  rw [Parse.forget_throw, blame_unplaced]

theorem identifier_unplaced (t : Token) : forget id (identifier t) = identifier t.unplaced :=
  BoxScript.forget_ite Iff.rfl rfl rfl

theorem lastOpener_unplaced (found : Option Nat) (i : Nat) (depth : Int) (ts : List Token) :
    lastOpener found i depth (unplacedAll ts) = lastOpener found i depth ts := by
  induction ts generalizing found i depth with
  | nil => rfl
  | cons t ts ih => exact ih _ _ _

theorem groupStart_unplaced (ts : List Token) :
    forget id (groupStart ts) = groupStart (unplacedAll ts) := by
  rw [groupStart, groupStart, lastOpener_unplaced]
  cases lastOpener none 0 0 ts with
  | none => exact forget_refusal _ .malformed ts
  | some start =>
    refine BoxScript.forget_bind (matching_unplaced ts start) fun stop => ?_
    refine BoxScript.forget_ite ?_ rfl (forget_refusal _ .malformed ts)
    rw [unplacedAll, List.length_map]
    rfl

theorem memberName?_unplaced (ts : List Token) :
    memberName? (unplacedAll ts) = (memberName? ts).map (Prod.map unplacedAll id) := by
  rw [memberName?, memberName?, unplacedAll, ← List.map_reverse]
  rcases ts.reverse with _ | ⟨name, _ | ⟨point, rest⟩⟩
  · rfl
  · rfl
  · have hrest : (rest.map unplaced).reverse = unplacedAll rest.reverse := List.map_reverse.symm
    simp only [List.map_cons, List.isEmpty_map, hrest, apply_ite (Option.map _)]
    rfl

theorem endsWith_unplaced (ts : List Token) (s : String) :
    endsWith (unplacedAll ts) s = endsWith ts s := by
  rw [endsWith, endsWith, unplacedAll, List.getLast?_map]
  cases ts.getLast? <;> rfl

theorem take_unplaced (ts : List Token) (n : Nat) :
    (unplacedAll ts).take n = unplacedAll (ts.take n) := List.map_take.symm

theorem extract_unplaced (ts : List Token) (start stop : Nat) :
    (unplacedAll ts).extract start stop = unplacedAll (ts.extract start stop) := by
  rw [List.extract_eq_take_drop, List.extract_eq_take_drop, unplacedAll, unplacedAll, List.map_take,
    List.map_drop]

theorem inside_unplaced (ts : List Token) (start : Nat) :
    (unplacedAll ts).extract (start + 1) ((unplacedAll ts).length - 1) =
      unplacedAll (ts.extract (start + 1) (ts.length - 1)) := by
  rw [extract_unplaced, unplacedAll, List.length_map]

end Groups

/-! ## Calls -/

section Calls

variable {sub : Parsers}

theorem arguments_unplaced (h : Blind sub) (ts : List Token) :
    Parse.forget (List.map Node.unplaced) (arguments sub ts) = arguments sub (unplacedAll ts) := by
  rw [arguments, arguments]
  refine Parse.forget_ite (by rw [unplacedAll, List.isEmpty_map]) rfl ?_
  refine Parse.forget_bind (Parse.forget_lift (splitTop_unplaced ts ",")) fun pieces => ?_
  have hempty : (unplacedPieces pieces).any (·.isEmpty) = pieces.any (·.isEmpty) := by
    rw [unplacedPieces, List.any_map]
    congr 1
    funext piece
    exact List.isEmpty_map
  have hmap := Parse.forget_mapM pieces fun piece _ => h.expression piece
  refine Parse.forget_ite (by rw [hempty]) ?_ hmap
  exact Parse.forget_bind (forget_blame id .invalidArguments ts) fun _ => hmap

theorem onlyArgument_unplaced (ts : List Token) (args : List Node) :
    forget Node.unplaced (onlyArgument ts args) =
      onlyArgument (unplacedAll ts) (args.map Node.unplaced) := by
  rcases args with _ | ⟨a, _ | ⟨b, bs⟩⟩
  · exact forget_refusal _ .notOneArgument ts
  · rfl
  · exact forget_refusal _ .notOneArgument ts

theorem call_unplaced (h : Blind sub) (ts head : List Token) (args : List Node) :
    Parse.forget Node.unplaced (call sub ts head args) =
      call sub (unplacedAll ts) (unplacedAll head) (args.map Node.unplaced) := by
  have hargs := unplacedNodes_eq_map args
  rcases head with _ | ⟨t, _ | ⟨u, _ | ⟨w, ws⟩⟩⟩
  · exact forget_blame _ .malformed ts
  · have honly := Parse.forget_lift (onlyArgument_unplaced ts args)
    refine Parse.forget_ite Iff.rfl ?_ (Parse.forget_ite Iff.rfl ?_ ?_)
    · exact Parse.forget_bind honly fun a => rfl
    · exact Parse.forget_bind honly fun a => rfl
    · refine Parse.forget_bind (Parse.forget_lift (identifier_unplaced t)) fun x => ?_
      rw [← hargs]
      rfl
  · refine Parse.forget_ite Iff.rfl ?_ (forget_blame _ .malformed ts)
    refine Parse.forget_bind (Parse.forget_lift (identifier_unplaced u)) fun x => ?_
    rw [← hargs]
    rfl
  · have hmember := memberName?_unplaced (t :: u :: w :: ws)
    simp only [unplacedAll_cons] at hmember
    unfold call
    simp only [unplacedAll_cons, hmember]
    rcases memberName? (t :: u :: w :: ws) with _ | ⟨object, x⟩
    · exact forget_blame _ .malformed ts
    · refine Parse.forget_bind (h.operand object) fun target => ?_
      rw [← hargs]
      rfl

end Calls

/-! ## Assignments -/

section Assignments

variable {sub : Parsers}

theorem getLast?_any_unplaced (ts : List Token) (s : String) :
    (unplacedAll ts).getLast?.any (·.isWord s) = ts.getLast?.any (·.isWord s) :=
  endsWith_unplaced ts s

theorem indexTarget?_unplaced (h : Blind sub) (ts : List Token) :
    Parse.forget (Option.map Target.unplaced) (indexTarget? sub ts) =
      indexTarget? sub (unplacedAll ts) := by
  rw [indexTarget?, indexTarget?]
  refine Parse.forget_ite (by rw [getLast?_any_unplaced]) ?_ rfl
  refine Parse.forget_bind (Parse.forget_lift (groupStart_unplaced ts)) fun start => ?_
  refine Parse.forget_ite Iff.rfl rfl ?_
  rw [id, take_unplaced, inside_unplaced]
  refine Parse.forget_bind (h.operand _) fun target => ?_
  exact Parse.forget_bind (h.expression _) fun index => rfl

theorem target_unplaced (h : Blind sub) (ts : List Token) :
    Parse.forget Target.unplaced (target sub ts) = target sub (unplacedAll ts) := by
  rcases ts with _ | ⟨t, _ | ⟨u, us⟩⟩
  · rfl
  · exact Parse.forget_bind (Parse.forget_lift (identifier_unplaced t)) fun x => rfl
  · refine Parse.forget_bind (indexTarget?_unplaced h (t :: u :: us)) fun found => ?_
    cases found with
    | some place => rfl
    | none =>
      have hmember := memberName?_unplaced (t :: u :: us)
      simp only [Option.map_none, hmember]
      rcases memberName? (t :: u :: us) with _ | ⟨object, x⟩
      · exact forget_blame _ .invalidTarget (t :: u :: us)
      · exact Parse.forget_bind (h.operand object) fun target => rfl

theorem cutAssignment_unplaced (depth : Int) (ts : List Token) :
    cutAssignment depth (unplacedAll ts) =
      (cutAssignment depth ts).map (Prod.map unplacedAll (Prod.map id unplacedAll)) := by
  induction ts generalizing depth with
  | nil => rfl
  | cons t ts ih =>
    have hop : assignment? t.unplaced = assignment? t := rfl
    have hdepth : depthAfter depth t.unplaced = depthAfter depth t := rfl
    rw [unplacedAll_cons, cutAssignment, cutAssignment, hop, hdepth, ih]
    rcases (if depth = 0 then assignment? t else none) with _ | op
    · show Option.map _ (Option.map _ _) = Option.map _ (Option.map _ _)
      rw [Option.map_map, Option.map_map]
      rfl
    · rfl

theorem stepped?_unplaced (ts : List Token) :
    stepped? (unplacedAll ts) = (stepped? ts).map (Prod.map unplacedAll id) := by
  rw [stepped?, stepped?, unplacedAll, ← List.map_reverse]
  rcases ts.reverse with _ | ⟨t, _ | ⟨u, rest⟩⟩
  · rfl
  · rfl
  · show (step? t).map _ = ((step? t).map _).map _
    rw [Option.map_map]
    congr 1
    funext op
    show ((u :: rest).map unplaced |>.reverse, op) = (unplacedAll (u :: rest).reverse, op)
    rw [← List.map_reverse]

theorem mutation_unplaced (h : Blind sub) (ts : List Token) :
    Parse.forget (Option.map Node.unplaced) (mutation sub ts) = mutation sub (unplacedAll ts) := by
  rw [mutation, mutation, stepped?_unplaced]
  rcases stepped? ts with _ | ⟨front, op⟩
  · rw [Option.map_none, cutAssignment_unplaced]
    rcases cutAssignment 0 ts with _ | ⟨front, op, rest⟩
    · rfl
    · refine Parse.forget_bind (target_unplaced h front) fun place => ?_
      refine Parse.forget_bind (h.expression rest) fun value => ?_
      cases op with
      | none => exact Parse.forget_pure (congrArg some (place.store_unplaced value))
      | some op =>
        refine Parse.forget_pure (congrArg some ?_)
        rw [Target.store_unplaced, Node.unplaced, Target.load_unplaced]
  · refine Parse.forget_bind (target_unplaced h front) fun place => ?_
    refine Parse.forget_pure (congrArg some ?_)
    rw [Target.store_unplaced, Node.unplaced, Target.load_unplaced]
    rfl

end Assignments

/-! ## Forms -/

section Forms

variable {sub : Parsers}

/-- The parts of a form without the places in them. -/
def Headed.unplaced (parts : Headed) : Headed :=
  { header := unplacedAll parts.header, body := unplacedAll parts.body
    rest := unplacedAll parts.rest }

theorem head?_any_unplaced (ts : List Token) (s : String) :
    (unplacedAll ts).head?.any (·.isWord s) = ts.head?.any (·.isWord s) := by
  cases ts <;> rfl

theorem getElem?_any_unplaced (ts : List Token) (i : Nat) (s : String) :
    (unplacedAll ts)[i]?.any (·.isWord s) = ts[i]?.any (·.isWord s) := by
  rw [unplacedAll, List.getElem?_map]
  cases ts[i]? <;> rfl

theorem headed_unplaced (ts : List Token) (start : Nat) :
    forget Headed.unplaced (headed ts start) = headed (unplacedAll ts) start := by
  have hmalformed := forget_refusal Headed.unplaced .malformed ts
  rw [headed, headed, getElem?_any_unplaced]
  refine BoxScript.forget_ite Iff.rfl ?_ hmalformed
  refine BoxScript.forget_bind (matching_unplaced ts start) fun close => ?_
  rw [id, getElem?_any_unplaced]
  refine BoxScript.forget_ite Iff.rfl ?_ hmalformed
  refine BoxScript.forget_bind (matching_unplaced ts (close + 1)) fun stop => ?_
  rw [id, extract_unplaced, extract_unplaced, unplacedAll, ← List.map_drop]
  rfl

theorem headedOnly_unplaced (ts : List Token) (start : Nat) :
    forget Headed.unplaced (headedOnly ts start) = headedOnly (unplacedAll ts) start := by
  refine BoxScript.forget_bind (headed_unplaced ts start) fun parts => ?_
  refine BoxScript.forget_ite ?_ rfl (forget_refusal _ .malformed ts)
  rw [Headed.unplaced, unplacedAll, List.isEmpty_map]

theorem bracedOnly?_unplaced (ts : List Token) :
    forget (Option.map unplacedAll) (bracedOnly? ts) = bracedOnly? (unplacedAll ts) := by
  refine BoxScript.forget_ite (by rw [head?_any_unplaced]) ?_ rfl
  refine BoxScript.forget_bind (matching_unplaced ts 0) fun stop => ?_
  rw [id, extract_unplaced, unplacedAll, List.length_map]
  show Except.ok _ = Except.ok _
  rw [apply_ite (Option.map unplacedAll)]
  rfl

theorem parameterNames_unplaced (all : List Token) (known : List String)
    (pieces : List (List Token)) :
    forget id (parameterNames all known pieces) =
      parameterNames (unplacedAll all) known (unplacedPieces pieces) := by
  induction pieces generalizing known with
  | nil => rfl
  | cons piece pieces ih =>
    rcases piece with _ | ⟨t, _ | ⟨u, us⟩⟩
    · exact forget_refusal _ .invalidParameters all
    · refine BoxScript.forget_bind (identifier_unplaced t) fun name => ?_
      exact BoxScript.forget_ite Iff.rfl rfl (ih (known ++ [name]))
    · exact forget_refusal _ .invalidParameters all

theorem parameters_unplaced (ts : List Token) :
    forget id (parameters ts) = parameters (unplacedAll ts) := by
  refine BoxScript.forget_ite (by rw [unplacedAll, List.isEmpty_map]) rfl ?_
  exact BoxScript.forget_bind (splitTop_unplaced ts ",") fun pieces =>
    parameterNames_unplaced ts [] pieces

theorem forLoop_unplaced (h : Blind sub) (ts header : List Token) (body : List Statement) :
    Parse.forget Node.unplaced (forLoop sub ts header body) =
      forLoop sub (unplacedAll ts) (unplacedAll header) (unplacedStatements body) := by
  have hillegal := forget_blame Node.unplaced .illegalFor ts
  refine Parse.forget_bind (Parse.forget_lift (splitTop_unplaced header ";")) fun clauses => ?_
  rcases clauses with _ | ⟨first, _ | ⟨second, _ | ⟨third, _ | ⟨fourth, more⟩⟩⟩⟩
  · exact hillegal
  · rcases first with _ | ⟨t, count⟩
    · exact hillegal
    · refine Parse.forget_bind (f := id) rfl fun counter => ?_
      exact Parse.forget_bind (h.expression (t :: count)) fun count => rfl
  · rcases first with _ | _ <;> exact hillegal
  · rcases first with _ | ⟨t, first⟩
    · exact hillegal
    · refine Parse.forget_ite (by simp only [unplacedAll, List.isEmpty_map]) hillegal ?_
      refine Parse.forget_bind (mutation_unplaced h (t :: first)) fun init => ?_
      refine Parse.forget_bind (mutation_unplaced h third) fun increment => ?_
      rcases init with _ | init
      · exact hillegal
      · rcases increment with _ | increment
        · exact hillegal
        · exact Parse.forget_bind (h.expression second) fun condition => rfl
  · rcases first with _ | _ <;> exact hillegal

theorem orelse_unplaced (h : Blind sub) (ts rest : List Token) :
    Parse.forget (Option.map unplacedStatements) (orelse sub ts rest) =
      orelse sub (unplacedAll ts) (unplacedAll rest) := by
  have hmalformed := forget_blame (Option.map unplacedStatements) .malformed ts
  rcases rest with _ | ⟨t, tail⟩
  · rfl
  · refine Parse.forget_ite Iff.rfl (Parse.forget_ite ?_ ?_ ?_) hmalformed
    · exact iff_of_eq (congrArg (· = true) (head?_any_unplaced tail "if").symm)
    · refine Parse.forget_bind (h.statement tail) fun s => Parse.forget_pure ?_
      exact congrArg some (unplacedStatements_eq_map [s])
    · refine Parse.forget_bind (Parse.forget_lift (bracedOnly?_unplaced tail)) fun inside => ?_
      cases inside with
      | none => exact hmalformed
      | some inside => exact Parse.forget_bind (h.block inside) fun body => rfl

theorem declaration_unplaced (h : Blind sub) (ts : List Token)
    {make : String → List String → List Statement → Node}
    (hmake : ∀ x ps ss, (make x ps ss).unplaced = make x ps (unplacedStatements ss)) :
    Parse.forget Node.unplaced (declaration sub ts make) = declaration sub (unplacedAll ts) make := by
  have hsecond : (unplacedAll ts)[1]? = ts[1]?.map unplaced := List.getElem?_map
  rw [declaration, declaration, hsecond]
  cases ts[1]? with
  | none => exact forget_blame _ .malformed ts
  | some t =>
    refine Parse.forget_bind (Parse.forget_lift (identifier_unplaced t)) fun name => ?_
    refine Parse.forget_bind (Parse.forget_lift (headedOnly_unplaced ts 2)) fun parts => ?_
    refine Parse.forget_bind (Parse.forget_lift (parameters_unplaced parts.header)) fun params => ?_
    refine Parse.forget_bind (h.block parts.body) fun body => ?_
    exact Parse.forget_pure (hmake name params body)

theorem form_unplaced (h : Blind sub) (ts : List Token) :
    Parse.forget Node.unplaced (form sub ts) = form sub (unplacedAll ts) := by
  have hmalformed := forget_blame Node.unplaced .malformed ts
  have hleading : (unplacedAll ts).head?.bind word? = ts.head?.bind word? := leading_unplaced ts
  unfold form
  rw [hleading]
  split
  · refine Parse.forget_bind (Parse.forget_lift (bracedOnly?_unplaced ts)) fun inside => ?_
    cases inside with
    | none => exact hmalformed
    | some inside => exact Parse.forget_bind (h.block inside) fun body => rfl
  · refine Parse.forget_bind (Parse.forget_lift (headedOnly_unplaced ts 1)) fun parts => ?_
    refine Parse.forget_bind (h.expression parts.header) fun condition => ?_
    exact Parse.forget_bind (h.block parts.body) fun body => rfl
  · refine Parse.forget_bind (Parse.forget_lift (headedOnly_unplaced ts 1)) fun parts => ?_
    refine Parse.forget_bind (h.block parts.body) fun body => ?_
    exact forLoop_unplaced h ts parts.header body
  · refine Parse.forget_bind (Parse.forget_lift (headed_unplaced ts 1)) fun parts => ?_
    refine Parse.forget_bind (orelse_unplaced h ts parts.rest) fun alternative => ?_
    refine Parse.forget_bind (h.expression parts.header) fun condition => ?_
    refine Parse.forget_bind (h.block parts.body) fun body => ?_
    cases alternative <;> rfl
  · exact declaration_unplaced h ts fun _ _ _ => rfl
  · exact declaration_unplaced h ts fun _ _ _ => rfl
  · exact hmalformed

end Forms

/-! ## Expressions -/

section Expressions

variable {sub : Parsers}

theorem atom_unplaced (t : Token) : forget Node.unplaced (atom t) = atom t.unplaced := by
  have hkind : t.unplaced.kind = t.kind := rfl
  have htext : t.unplaced.text = t.text := rfl
  rw [atom, atom, hkind, htext]
  cases t.kind with
  | name =>
    dsimp only
    split
    · rfl
    · rfl
    · rfl
    · exact BoxScript.forget_map (identifier_unplaced t) fun x => rfl
  | string | number | operator | punctuation => rfl

theorem operand_unplaced (h : Blind sub) (ts : List Token) :
    Parse.forget Node.unplaced (operand sub ts) = operand sub (unplacedAll ts) := by
  rcases ts with _ | ⟨t, _ | ⟨u, us⟩⟩
  · rfl
  · exact Parse.forget_lift (atom_unplaced t)
  · have hends : ∀ w, endsWith (t :: u :: us) w = true ↔ endsWith (unplacedAll (t :: u :: us)) w = true :=
      fun w => by rw [endsWith_unplaced]
    have hstart := Parse.forget_lift (groupStart_unplaced (t :: u :: us))
    have htake := take_unplaced (t :: u :: us)
    have hinside : ∀ start, Parse.forget Node.unplaced
        (sub.expression ((t :: u :: us).extract (start + 1) ((t :: u :: us).length - 1))) =
        sub.expression ((unplacedAll (t :: u :: us)).extract (start + 1)
          ((unplacedAll (t :: u :: us)).length - 1)) :=
      fun start => by rw [inside_unplaced, h.expression]
    refine Parse.forget_ite ?_ (form_unplaced h (t :: u :: us)) ?_
    · rw [endsWith_unplaced]
      rfl
    refine Parse.forget_ite (hends ")") ?_ (Parse.forget_ite (hends "]") ?_ ?_)
    · refine Parse.forget_bind hstart fun start => Parse.forget_ite Iff.rfl (hinside start) ?_
      rw [id, inside_unplaced, htake]
      refine Parse.forget_bind (arguments_unplaced h _) fun args => ?_
      exact call_unplaced h (t :: u :: us) _ args
    · refine Parse.forget_bind hstart fun start => Parse.forget_ite Iff.rfl ?_ ?_
      · exact Parse.forget_bind (hinside start) fun size => rfl
      · rw [id, htake]
        refine Parse.forget_bind (h.operand _) fun target => ?_
        exact Parse.forget_bind (hinside start) fun index => rfl
    · rw [memberName?_unplaced]
      rcases memberName? (t :: u :: us) with _ | ⟨object, x⟩
      · exact forget_blame _ .malformed (t :: u :: us)
      · exact Parse.forget_bind (h.operand object) fun target => rfl

theorem unary_unplaced (h : Blind sub) (ts : List Token) :
    Parse.forget Node.unplaced (unary sub ts) = unary sub (unplacedAll ts) := by
  rcases ts with _ | ⟨t, ts⟩
  · exact operand_unplaced h []
  · induction ts generalizing t with
    | nil => exact operand_unplaced h [t]
    | cons u ts ih =>
      have hop : leadingOperator? t.unplaced = leadingOperator? t := rfl
      rw [unplacedAll_cons, unplacedAll_cons, unary, unary, hop]
      cases leadingOperator? t with
      | none => exact operand_unplaced h (t :: u :: ts)
      | some op => exact Parse.forget_bind (ih u) fun e => rfl

theorem operands_unplaced (level : List BinaryOperator) (depth : Int) (before : Option Token)
    (ts : List Token) :
    operands level depth (before.map unplaced) (unplacedAll ts) =
      Prod.map unplacedAll (List.map (Prod.map id unplacedAll))
        (operands level depth before ts) := by
  induction ts generalizing depth before with
  | nil => rfl
  | cons t ts ih =>
    have hop : levelOperator? level (before.map unplaced) t.unplaced =
        levelOperator? level before t := by
      cases before <;> rfl
    have hdepth : depthAfter depth t.unplaced = depthAfter depth t := rfl
    have hrest := ih (depthAfter depth t) (some t)
    rw [Option.map_some] at hrest
    rw [unplacedAll_cons, operands, operands, hop, hdepth, hrest]
    rcases (if depth = 0 then levelOperator? level before t else none) with _ | op <;> rfl

theorem withLevels_unplaced (h : Blind sub) (levels : List (List BinaryOperator))
    (ts : List Token) :
    Parse.forget Node.unplaced (withLevels sub levels ts) =
      withLevels sub levels (unplacedAll ts) := by
  induction levels generalizing ts with
  | nil => exact unary_unplaced h ts
  | cons level tighter ih =>
    have hcut := operands_unplaced level 0 none ts
    rw [Option.map_none] at hcut
    rw [withLevels, withLevels, hcut]
    rcases operands level 0 none ts with ⟨first, _ | ⟨cut, cuts⟩⟩
    · exact ih ts
    · have hmalformed := forget_blame Node.unplaced .malformed ts
      have hempty : ((cut :: cuts).map (Prod.map id unplacedAll)).any (·.2.isEmpty) =
          (cut :: cuts).any (·.2.isEmpty) := by
        rw [List.any_map]
        congr 1
        funext c
        exact List.isEmpty_map
      refine Parse.forget_ite (by rw [hempty, List.isEmpty_map]) hmalformed ?_
      refine Parse.forget_bind (ih first) fun left => ?_
      refine Parse.forget_foldlM (cut :: cuts) (fun left next _ => ?_) left
      exact Parse.forget_bind (ih next.2) fun right => rfl

theorem expression_unplaced (h : Blind sub) (ts : List Token) :
    Parse.forget Node.unplaced (expression sub ts) = expression sub (unplacedAll ts) :=
  Parse.forget_ite (by rw [unplacedAll, List.isEmpty_map]) rfl (withLevels_unplaced h levels ts)

end Expressions

/-! ## Statements -/

section Statements

variable {sub : Parsers}

theorem statementNode_unplaced (h : Blind sub) (ts : List Token) :
    Parse.forget Node.unplaced (statementNode sub ts) = statementNode sub (unplacedAll ts) := by
  cases ts with
  | nil => exact Parse.forget_bind (mutation_unplaced h []) fun found => by cases found <;> rfl
  | cons t ts =>
    have hword : t.unplaced.word? = t.word? := rfl
    by_cases hreturn : t.word? = some "return"
    · unfold statementNode
      rw [unplacedAll_cons, List.head?_cons, List.head?_cons, Option.bind_some, Option.bind_some,
        hword, hreturn]
      cases ts with
      | nil => rfl
      | cons u us => exact Parse.forget_bind (h.expression (u :: us)) fun e => rfl
    · by_cases hbreak : t.word? = some "break" → ts ≠ []
      · have hreturn' : t.unplaced.word? ≠ some "return" := hreturn
        have hbreak' : t.unplaced.word? = some "break" → unplacedAll ts ≠ [] :=
          fun hw hnil => hbreak hw (List.map_eq_nil_iff.mp hnil)
        rw [unplacedAll_cons, statementNode_of_ne hbreak hreturn, statementNode_of_ne hbreak' hreturn']
        refine Parse.forget_ite Iff.rfl (form_unplaced h (t :: ts)) ?_
        refine Parse.forget_bind (mutation_unplaced h (t :: ts)) fun found => ?_
        cases found with
        | none => exact expression_unplaced h (t :: ts)
        | some node => rfl
      · obtain ⟨hword', hnil⟩ := Classical.not_imp.mp hbreak
        obtain rfl := not_not.mp hnil
        unfold statementNode
        rw [unplacedAll_cons, List.head?_cons, List.head?_cons, Option.bind_some, Option.bind_some,
          hword, hword']
        rfl

theorem statement_unplaced (h : Blind sub) (ts : List Token) :
    Parse.forget Statement.unplaced (statement sub ts) = statement sub (unplacedAll ts) := by
  rw [statement, statement, headPosition_unplaced]
  cases headPosition ts with
  | none => rfl
  | some p => exact Parse.forget_bind (Parse.forget_placed p (statementNode_unplaced h ts)) fun n => rfl

theorem block_unplaced (h : Blind sub) (ts : List Token) :
    Parse.forget unplacedStatements (block sub ts) = block sub (unplacedAll ts) := by
  rw [show unplacedStatements = List.map Statement.unplaced from funext unplacedStatements_eq_map]
  refine Parse.forget_bind (Parse.forget_lift (statements_unplaced ts)) fun pieces => ?_
  exact Parse.forget_mapM pieces fun piece _ => statement_unplaced h piece

theorem blind_parsers (n : Nat) : Blind (parsers n) := by
  induction n with
  | zero =>
    exact ⟨forget_blame _ .malformed, forget_blame _ .malformed, forget_blame _ .malformed,
      forget_blame _ .malformed⟩
  | succ n ih =>
    exact ⟨expression_unplaced ih, operand_unplaced ih, block_unplaced ih, statement_unplaced ih⟩

theorem parseBlock_unplaced (ts : List Token) :
    Parse.forget unplacedStatements (parseBlock ts) = parseBlock (unplacedAll ts) := by
  rw [parseBlock, parseBlock, unplacedAll, List.length_map]
  exact (blind_parsers _).block ts

end Statements

/-! ## Programs -/

section Programs

/-- Two results of parsing that differ in places only. A text that is refused is refused for the same
reason, and so with the same message. -/
inductive SameParse : Except ParseError (List Statement) → Except ParseError (List Statement) → Prop
  | accepted {ss us : List Statement} : unplacedStatements ss = unplacedStatements us →
      SameParse (.ok ss) (.ok us)
  | refused {e e' : ParseError} : e.cause = e'.cause → SameParse (.error e) (.error e')

theorem sameParse_of_forget {x y : Except ParseError (List Statement)}
    (h : forget unplacedStatements x = forget unplacedStatements y) : SameParse x y := by
  cases x with
  | error e =>
    cases y with
    | error e' =>
      have hunplaced : e.unplaced = e'.unplaced := Except.error.inj h
      exact .refused (congrArg ParseError.cause hunplaced :)
    | ok us => exact nomatch h
  | ok ss =>
    cases y with
    | error e' => exact nomatch h
    | ok us => exact .accepted (Except.ok.inj h)

variable {source source' : String} {ts us : List Token}

theorem forget_ofSource (h : tokenize source = .ok ts) (h' : tokenize source' = .ok us)
    (hts : unplacedAll us = unplacedAll ts) :
    forget Header.unplaced (Header.ofSource source) =
      forget Header.unplaced (Header.ofSource source') := by
  rw [Header.ofSource, Header.ofSource, h, h']
  show forget Header.unplaced (Header.read ts) = forget Header.unplaced (Header.read us)
  rw [Header.read_unplaced, Header.read_unplaced, hts]

/-- Texts with the same tokens parse alike. -/
theorem sameParse_parseProgram (h : tokenize source = .ok ts) (h' : tokenize source' = .ok us)
    (hts : unplacedAll us = unplacedAll ts) (loader : Option Loader) :
    SameParse (parseProgram loader source) (parseProgram loader source') := by
  refine sameParse_of_forget (forget_bind_congr (forget_ofSource h h' hts) fun header header' heq => ?_)
  obtain ⟨himports, hbody⟩ := Header.mk.inj heq
  have hblock : Parse.forget unplacedStatements (parseBlock header.body) =
      Parse.forget unplacedStatements (parseBlock header'.body) := by
    rw [parseBlock_unplaced, parseBlock_unplaced, hbody]
  rw [himports]
  refine Parse.forget_run' (Parse.forget_bind_congr hblock fun program program' hprogram => ?_) 0
  split
  · exact Parse.forget_pure_congr hprogram
  · -- the libraries are the same on both sides
    refine Parse.forget_bind_congr (f := id) rfl fun found found' hfound => ?_
    obtain rfl : found = found' := hfound
    refine Parse.forget_pure_congr ?_
    have hblock : Node.unplaced (.block program) = Node.unplaced (.block program') :=
      congrArg Node.block hprogram
    simp only [unplacedStatements_eq_map, List.map_append, List.map_singleton, Statement.unplaced,
      hblock]

/-- **Formatting does not matter.** -/
theorem parseProgram_spaced {source : String} {ts : List Token} (h : tokenize source = .ok ts)
    {first : List Char} (hfirst : Filler first) {gaps : List (List Char)} (hgaps : Separates gaps)
    (hlen : gaps.length = ts.length) :
    (∃ us, tokenize (String.ofList (first ++ spaced ts gaps)) = .ok us ∧
      us.map (fun t => (t.kind, t.text)) = ts.map fun t => (t.kind, t.text)) ∧
    ∀ loader, SameParse (parseProgram loader source)
      (parseProgram loader (String.ofList (first ++ spaced ts gaps))) := by
  obtain ⟨us, hus, hts⟩ := tokenize_spaced h hfirst hgaps hlen
  refine ⟨⟨us, hus, ?_⟩, fun loader => sameParse_parseProgram h hus hts loader⟩
  have hpairs := congrArg (List.map fun t => (t.kind, t.text)) hts
  rwa [List.map_map, List.map_map] at hpairs

/-- The words and marks of `f(1)` stand apart, with comments between them. -/
theorem parseProgram_spaced_comments :
    Filler "/* call */".toList ∧ Separates [" ".toList, "\t// once\n".toList, "\n".toList, []] ∧
    (∃ us, tokenize "/* call */f (\t// once\n1\n)" = .ok us ∧ us.map (fun t => (t.kind, t.text)) =
      [(.name, "f"), (.punctuation, "("), (.number, "1"), (.punctuation, ")")]) ∧
    ∀ loader, SameParse (parseProgram loader "f(1)")
      (parseProgram loader "/* call */f (\t// once\n1\n)") := by
  have htokens : tokenize "f(1)" = .ok [⟨.name, "f", ⟨1, 1⟩, ⟨1, 2⟩⟩,
      ⟨.punctuation, "(", ⟨1, 2⟩, ⟨1, 3⟩⟩, ⟨.number, "1", ⟨1, 3⟩, ⟨1, 4⟩⟩,
      ⟨.punctuation, ")", ⟨1, 4⟩, ⟨1, 5⟩⟩] := by decide +kernel
  have hfirst : Filler "/* call */".toList :=
    @Filler.block " call ".toList [] (by decide) .nil
  have hline : Filler "\t// once\n".toList :=
    .blank rfl (@Filler.line " once".toList [] (by decide) .nil)
  have hgaps : Separates [" ".toList, "\t// once\n".toList, "\n".toList, []] :=
    .cons (.blank rfl .nil) rfl (.cons hline rfl (.cons (.blank rfl .nil) rfl
      (.last .nil (.inl rfl))))
  have hall := parseProgram_spaced htokens hfirst hgaps rfl
  rw [show String.ofList _ = "/* call */f (\t// once\n1\n)" by rfl] at hall
  exact ⟨hfirst, hgaps, hall⟩

end Programs

end Parser

end BoxScript
