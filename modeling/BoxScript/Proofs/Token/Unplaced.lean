import BoxScript.Library.Directive
import BoxScript.Proofs.Token.Lexeme
import BoxScript.Token.Statement

/-!
# Tokens are taken apart without regard to their places

The functions that look for brackets, separators and statements in a token list carry places into
their results and errors, and look at none of them. So forgetting all places before or after is the
same: `forget f (p ts) = p (ts.map unplaced)`, where `f` forgets the places in the result of `p`.

There is one such law for each of these functions: `matching_unplaced`, `splitTop_unplaced`,
`statements_unplaced`, `read_unplaced`.
-/

namespace BoxScript

/-- The place of a token that stands nowhere in particular. -/
def Position.nowhere : Position := .ofSpan .origin .origin

/-- The error without its place, if it has one. -/
def ParseError.unplaced (e : ParseError) : ParseError :=
  { e with position := e.position.map fun _ => .nowhere }

/-- What was read, without its places: `f` takes them out of a result. -/
def forget {α : Type} (f : α → α) : Except ParseError α → Except ParseError α
  | .ok a => .ok (f a)
  | .error e => .error e.unplaced

section Forget

variable {α β : Type} {f : α → α} {g : β → β}

theorem forget_map {x x' : Except ParseError α} (hx : forget f x = x') {h h' : α → β}
    (hh : ∀ a, g (h a) = h' (f a)) : forget g (x.map h) = x'.map h' := by
  subst hx
  cases x with
  | error e => rfl
  | ok a => exact congrArg Except.ok (hh a)

theorem forget_bind {x x' : Except ParseError α} (hx : forget f x = x')
    {k k' : α → Except ParseError β} (hk : ∀ a, forget g (k a) = k' (f a)) :
    forget g (x >>= k) = x' >>= k' := by
  subst hx
  cases x with
  | error e => rfl
  | ok a => exact hk a

theorem forget_ite {c c' : Prop} [Decidable c] [Decidable c'] (hc : c ↔ c')
    {x x' y y' : Except ParseError α} (hx : forget f x = x') (hy : forget f y = y') :
    forget f (if c then x else y) = if c' then x' else y' := by
  simp only [apply_ite (forget f), hx, hy, hc]

/-- Results that differ in places only are used alike. -/
theorem forget_bind_congr {x y : Except ParseError α} (hxy : forget f x = forget f y)
    {k k' : α → Except ParseError β} (hk : ∀ a b, f a = f b → forget g (k a) = forget g (k' b)) :
    forget g (x >>= k) = forget g (y >>= k') := by
  cases x with
  | error e =>
    cases y with
    | error e' => exact congrArg Except.error (Except.error.inj hxy)
    | ok b => exact nomatch hxy
  | ok a =>
    cases y with
    | error e' => exact nomatch hxy
    | ok b => exact hk a b (Except.ok.inj hxy)

end Forget

namespace Token

/-- The tokens without their places. -/
abbrev unplacedAll (ts : List Token) : List Token := ts.map unplaced

theorem unplacedAll_cons (t : Token) (ts : List Token) :
    unplacedAll (t :: ts) = t.unplaced :: unplacedAll ts := rfl

/-! ## Texts -/

theorem denseAfter_unplaced (before : Kind) (ts : List Token) :
    denseAfter before (unplacedAll ts) = denseAfter before ts := by
  induction ts generalizing before with
  | nil => rfl
  | cons t ts ih =>
    show _ ++ denseAfter t.kind (unplacedAll ts) = _
    rw [ih]
    rfl

theorem dense_unplaced (ts : List Token) : dense (unplacedAll ts) = dense ts := by
  cases ts with
  | nil => rfl
  | cons t ts => exact congrArg (t.text ++ ·) (denseAfter_unplaced t.kind ts)

theorem headPosition_unplaced (ts : List Token) :
    headPosition (unplacedAll ts) = (headPosition ts).map fun _ => .nowhere := by
  cases ts <;> rfl

/-! ## Brackets -/

theorem unexpectedCloser_unplaced (ts : List Token) (t : Token) :
    (unexpectedCloser ts t).unplaced = unexpectedCloser (unplacedAll ts) t.unplaced := by
  rw [unexpectedCloser, unexpectedCloser, dense_unplaced]
  rfl

theorem missingCloser_unplaced (ts : List Token) (start : Nat) :
    (missingCloser ts start).unplaced = missingCloser (unplacedAll ts) start := by
  have hdrop : (unplacedAll ts).drop start = unplacedAll (ts.drop start) := List.map_drop.symm
  rw [missingCloser, missingCloser, hdrop, dense_unplaced, headPosition_unplaced]
  cases ts.drop start <;> rfl

theorem matchFrom_unplaced (all : List Token) (waiting : List Bracket) (i : Nat)
    (ts : List Token) :
    forget id (matchFrom all waiting i ts) =
      matchFrom (unplacedAll all) waiting i (unplacedAll ts) := by
  induction ts generalizing waiting i with
  | nil => rfl
  | cons t ts ih =>
    have hopens : t.unplaced.opens? = t.opens? := rfl
    have hcloses : t.unplaced.closes? = t.closes? := rfl
    have hstray := unexpectedCloser_unplaced all t
    rw [unplacedAll_cons, matchFrom, matchFrom, hopens, hcloses]
    rcases t.opens? with _ | b
    · rcases t.closes? with _ | b
      · exact ih waiting (i + 1)
      · rcases waiting with _ | ⟨w, rest⟩
        · exact congrArg Except.error hstray
        · refine forget_ite Iff.rfl ?_ (congrArg Except.error hstray)
          exact forget_ite Iff.rfl rfl (ih rest (i + 1))
    · exact ih (b :: waiting) (i + 1)

theorem matching_unplaced (ts : List Token) (start : Nat) :
    forget id (matching ts start) = matching (unplacedAll ts) start := by
  have hdrop : (unplacedAll ts).drop start = unplacedAll (ts.drop start) := List.map_drop.symm
  rw [matching, matching, hdrop]
  refine forget_bind (matchFrom_unplaced ts [] start _) fun found => ?_
  cases found with
  | none => exact congrArg Except.error (missingCloser_unplaced ts start)
  | some i => rfl

/-! ## Pieces -/

/-- Pieces of a list without the places in them. -/
abbrev unplacedPieces (pieces : List (List Token)) : List (List Token) := pieces.map unplacedAll

theorem consPiece_unplaced (t : Token) (pieces : List (List Token)) :
    unplacedPieces (consPiece t pieces) = consPiece t.unplaced (unplacedPieces pieces) := by
  cases pieces <;> rfl

theorem unbalanced_unplaced (ts : List Token) :
    ParseError.unplaced { cause := .unbalanced (dense ts), position := headPosition ts } =
      { cause := .unbalanced (dense (unplacedAll ts)), position := headPosition (unplacedAll ts) } := by
  rw [dense_unplaced, headPosition_unplaced]
  rfl

theorem splitTopFrom_unplaced (all : List Token) (sep : String) (depth : Nat) (ts : List Token) :
    forget unplacedPieces (splitTopFrom all sep depth ts) =
      splitTopFrom (unplacedAll all) sep depth (unplacedAll ts) := by
  induction ts generalizing depth with
  | nil =>
    cases depth with
    | zero => rfl
    | succ _ => exact congrArg Except.error (unbalanced_unplaced all)
  | cons t ts ih =>
    have hopens : t.unplaced.opens? = t.opens? := rfl
    have hcloses : t.unplaced.closes? = t.closes? := rfl
    have hcons : ∀ depth, forget unplacedPieces ((splitTopFrom all sep depth ts).map (consPiece t)) =
        (splitTopFrom (unplacedAll all) sep depth (unplacedAll ts)).map (consPiece t.unplaced) :=
      fun depth => forget_map (ih depth) (consPiece_unplaced t)
    cases depth with
    | zero =>
      rw [unplacedAll_cons, splitTopFrom, splitTopFrom, hopens, hcloses]
      rcases t.opens? with _ | b
      · rcases t.closes? with _ | b
        · exact forget_ite Iff.rfl (forget_map (ih 0) fun _ => rfl) (hcons 0)
        · exact congrArg Except.error (unexpectedCloser_unplaced all t)
      · exact hcons 1
    | succ outer =>
      rw [unplacedAll_cons, splitTopFrom, splitTopFrom, hopens, hcloses]
      rcases t.opens? with _ | b
      · rcases t.closes? with _ | b
        · exact forget_ite Iff.rfl (forget_map (ih 0) fun _ => rfl) (hcons (outer + 1))
        · exact hcons outer
      · exact hcons (outer + 2)

theorem splitTop_unplaced (ts : List Token) (sep : String) :
    forget unplacedPieces (splitTop ts sep) = splitTop (unplacedAll ts) sep :=
  splitTopFrom_unplaced ts sep 0 ts

/-! ## Statements -/

theorem endsAtBrace_unplaced (first next : Option Token) :
    endsAtBrace (first.map unplaced) (next.map unplaced) = endsAtBrace first next := by
  cases first <;> cases next <;> rfl

theorem piecesFrom_unplaced (all here : List Token) (depth : Nat) (ts : List Token) :
    forget unplacedPieces (piecesFrom all here depth ts) =
      piecesFrom (unplacedAll all) (unplacedAll here) depth (unplacedAll ts) := by
  induction ts generalizing here depth with
  | nil =>
    cases depth with
    | zero => rfl
    | succ _ => exact congrArg Except.error (unbalanced_unplaced here)
  | cons t ts ih =>
    have hopens : t.unplaced.opens? = t.opens? := rfl
    have hcloses : t.unplaced.closes? = t.closes? := rfl
    have hcons : ∀ depth, forget unplacedPieces ((piecesFrom all here depth ts).map (consPiece t)) =
        (piecesFrom (unplacedAll all) (unplacedAll here) depth (unplacedAll ts)).map
          (consPiece t.unplaced) :=
      fun depth => forget_map (ih here depth) (consPiece_unplaced t)
    rw [unplacedAll_cons, piecesFrom, piecesFrom, hopens, hcloses]
    rcases t.opens? with _ | b
    · rcases t.closes? with _ | b
      · exact forget_ite Iff.rfl (forget_map (ih ts 0) fun _ => rfl) (hcons depth)
      · cases depth with
        | zero => exact congrArg Except.error (unexpectedCloser_unplaced all t)
        | succ outer =>
          refine forget_ite ?_ (forget_map (ih ts 0) fun ps => ?_) (hcons outer)
          · rw [List.head?_map, List.head?_map, endsAtBrace_unplaced]
          · exact consPiece_unplaced t ([] :: ps)
    · exact hcons (depth + 1)

theorem filter_unplaced {p : List Token → Bool} (hp : ∀ ts, p (unplacedAll ts) = p ts)
    (pieces : List (List Token)) :
    unplacedPieces (pieces.filter p) = (unplacedPieces pieces).filter p := by
  rw [unplacedPieces, unplacedPieces, List.filter_map, show p ∘ unplacedAll = p from funext hp]

theorem leading_unplaced (ts : List Token) : leading (unplacedAll ts) = leading ts := by
  cases ts <;> rfl

theorem declarationsFirst_unplaced (pieces : List (List Token)) :
    unplacedPieces (declarationsFirst pieces) = declarationsFirst (unplacedPieces pieces) := by
  have hleading : ∀ p : Option String → Bool,
      unplacedPieces (pieces.filter fun ts => p (leading ts)) =
        (unplacedPieces pieces).filter fun ts => p (leading ts) :=
    fun p => filter_unplaced (fun ts => congrArg p (leading_unplaced ts)) pieces
  rw [declarationsFirst, declarationsFirst, unplacedPieces, List.map_append, List.map_append]
  congr 1
  · congr 1
    · exact hleading (· == some "class")
    · exact hleading (· == some "fun")
  · exact hleading fun w => w != some "class" && w != some "fun"

theorem statements_unplaced (ts : List Token) :
    forget unplacedPieces (statements ts) = statements (unplacedAll ts) := by
  refine forget_map (forget_map (piecesFrom_unplaced ts ts 0 ts) fun pieces => ?_)
    declarationsFirst_unplaced
  exact filter_unplaced (fun ts => by rw [unplacedAll, List.isEmpty_map]) pieces

end Token

/-! ## Import directives -/

namespace Header

open Token

/-- The header without the places of the tokens behind it. -/
def unplaced (h : Header) : Header := { h with body := unplacedAll h.body }

/-- The stage without the places of the tokens read. -/
def Stage.unplaced : Stage → Stage
  | .outside => .outside
  | .wantName read path => .wantName (unplacedAll read) path
  | .haveName read path => .haveName (unplacedAll read) path

theorem invalid_unplaced (read : List Token) :
    (invalid read).unplaced = invalid (unplacedAll read) := by
  rw [invalid, invalid, dense_unplaced, unplacedAll, List.getLast?_map, Option.map_map]
  show ParseError.mk _ ((read.getLast?.map position).map _) = _
  rw [Option.map_map]
  rfl

theorem readFrom_unplaced (imports : List String) (stage : Stage) (ts : List Token) :
    forget unplaced (readFrom imports stage ts) =
      readFrom imports stage.unplaced (unplacedAll ts) := by
  induction ts generalizing imports stage with
  | nil =>
    cases stage with
    | outside => rfl
    | wantName read path => exact congrArg Except.error (invalid_unplaced read)
    | haveName read path => exact congrArg Except.error (invalid_unplaced read)
  | cons t ts ih =>
    have happend : ∀ read : List Token,
        unplacedAll (read ++ [t]) = unplacedAll read ++ [t.unplaced] :=
      fun read => List.map_append
    have hinvalid : ∀ read : List Token,
        (invalid (read ++ [t])).unplaced = invalid (unplacedAll read ++ [t.unplaced]) :=
      fun read => (invalid_unplaced _).trans (congrArg invalid (happend read))
    cases stage with
    | outside => exact forget_ite Iff.rfl (ih imports (.wantName [t] [])) rfl
    | wantName read path =>
      have hnext := ih imports (.haveName (read ++ [t]) (path ++ [t.text]))
      rw [Stage.unplaced, happend] at hnext
      exact forget_ite Iff.rfl hnext (congrArg Except.error (hinvalid read))
    | haveName read path =>
      have hnext := ih imports (.wantName (read ++ [t]) path)
      rw [Stage.unplaced, happend] at hnext
      refine forget_ite Iff.rfl hnext (forget_ite Iff.rfl ?_ (congrArg Except.error (hinvalid read)))
      exact ih _ .outside

theorem read_unplaced (ts : List Token) :
    forget unplaced (read ts) = read (unplacedAll ts) :=
  readFrom_unplaced [] .outside ts

end Header

end BoxScript
