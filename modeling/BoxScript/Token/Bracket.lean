import BoxScript.ParseError
import BoxScript.Token.Basic

/-!
# Brackets in a token list

`matching` finds the bracket that closes a group and minds the kinds of brackets. `splitTop` cuts
a list at the separators that stand outside of all brackets; like every function that looks for
the top level of a list, it counts depth and leaves the kinds to `matching`.
-/

namespace BoxScript

/-- The three kinds of brackets. -/
inductive Bracket where
  | round
  | square
  | curly
  deriving DecidableEq, Repr, Inhabited

namespace Bracket

/-- The opening bracket. -/
def opener : Bracket → String
  | round => "("
  | square => "["
  | curly => "\x7b"

/-- The closing bracket. -/
def closer : Bracket → String
  | round => ")"
  | square => "]"
  | curly => "\x7d"

/-- The kind of an opening bracket. -/
def ofOpener? (s : String) : Option Bracket :=
  [round, square, curly].find? (·.opener == s)

/-- The kind of a closing bracket. -/
def ofCloser? (s : String) : Option Bracket :=
  [round, square, curly].find? (·.closer == s)

end Bracket

namespace Token

/-- The kind of bracket that the token opens. -/
def opens? (t : Token) : Option Bracket :=
  t.mark?.bind Bracket.ofOpener?

/-- The kind of bracket that the token closes. -/
def closes? (t : Token) : Option Bracket :=
  t.mark?.bind Bracket.ofCloser?

/-- The closing bracket `t` stands in `ts` where nothing waits for it. -/
def unexpectedCloser (ts : List Token) (t : Token) : ParseError :=
  { cause := .unexpectedCloser t.text (dense ts), position := some t.position }

/-! ## The closing bracket of a group -/

/-- Reads on at index `i` of `all` with the brackets of `waiting` open, innermost first, to the
bracket that closes the last of them; `none` if the list ends first. -/
def matchFrom (all : List Token) : List Bracket → Nat → List Token →
    Except ParseError (Option Nat)
  | _, _, [] => .ok none
  | waiting, i, t :: ts =>
    match t.opens?, t.closes? with
    | some b, _ => matchFrom all (b :: waiting) (i + 1) ts
    | none, some b =>
      match waiting with
      | [] => .error (unexpectedCloser all t)
      | w :: rest =>
        if w = b then
          if rest.isEmpty then .ok (some i) else matchFrom all rest (i + 1) ts
        else .error (unexpectedCloser all t)
    | none, none => matchFrom all waiting (i + 1) ts

/-- The closing bracket of the group that starts at index `start` was not found. -/
def missingCloser (ts : List Token) (start : Nat) : ParseError :=
  let rest := ts.drop start
  let closer := (rest.head?.bind opens?).map Bracket.closer
  { cause := .missingCloser (closer.getD "") (dense rest), position := headPosition rest }

/-- The index of the bracket that closes the first group at or behind index `start`. -/
def matching (ts : List Token) (start : Nat) : Except ParseError Nat := do
  match ← matchFrom ts [] start (ts.drop start) with
  | some i => return i
  | none => throw (missingCloser ts start)

/-! ## Cutting at the top level -/

/-- Puts a token in front of the first piece. -/
def consPiece (t : Token) : List (List Token) → List (List Token)
  | [] => [[t]]
  | piece :: pieces => (t :: piece) :: pieces

/-- The pieces of a list that is read at the given depth. -/
def splitTopFrom (all : List Token) (sep : String) : Nat → List Token →
    Except ParseError (List (List Token))
  | 0, [] => .ok [[]]
  | _ + 1, [] => .error { cause := .unbalanced (dense all), position := headPosition all }
  | depth, t :: ts =>
    match t.opens?, t.closes? with
    | some _, _ => (splitTopFrom all sep (depth + 1) ts).map (consPiece t)
    | none, some _ =>
      match depth with
      | 0 => .error (unexpectedCloser all t)
      | outer + 1 => (splitTopFrom all sep outer ts).map (consPiece t)
    | none, none =>
      if depth = 0 ∧ t.mark? = some sep then (splitTopFrom all sep 0 ts).map ([] :: ·)
      else (splitTopFrom all sep depth ts).map (consPiece t)

/-- The pieces between the separators outside of all brackets. There is one more piece than there
are such separators, so the empty list has one piece, the empty one. -/
def splitTop (ts : List Token) (sep : String) : Except ParseError (List (List Token)) :=
  splitTopFrom ts sep 0 ts

end Token

end BoxScript
