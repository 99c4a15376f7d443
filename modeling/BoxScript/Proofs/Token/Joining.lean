import BoxScript.Proofs.Token.Nesting
import BoxScript.Proofs.Token.Unplaced

/-!
# Cutting at separators and putting together again

`splitTop` cuts a list at the separators that stand outside of all brackets. `JoinedBy` puts pieces
together again: it says that a list consists of the pieces with a separator between any two of them.
The two are inverse to each other on pieces that are level and have no separator of their own outside
of all brackets.

Reading goes from left to right and may be inside of brackets, so a piece is described from any depth
on (`Unparted`); at depth zero this says that the piece is level and free of separators.

Results:
* `unparted_iff`: what `Unparted` says about a piece;
* `splitTop_eq_ok_iff`: what is cut off is such a piece, and each such piece is cut off;
* **`splitTop_joined`**: cutting and joining are inverse, and only lists that are not level are refused.
-/

namespace BoxScript.Token

variable {t : Token} {ts all : List Token} {pieces : List (List Token)} {sep : String}
  {b : Bracket} {depth : Nat}

/-! ## Pieces -/

/-- No separator stands outside of all brackets. -/
def FreeOf (sep : String) (ts : List Token) : Prop :=
  ∀ front t rest, ts = front ++ t :: rest → Level front → t.mark? ≠ some sep

theorem Unparted.of_depthBehind (hdepth : depthBehind depth ts = some 0)
    (hfree : ∀ front t rest, ts = front ++ t :: rest → depthBehind depth front = some 0 →
      t.mark? ≠ some sep) : Unparted sep depth ts := by
  induction ts generalizing depth with
  | nil => exact Option.some.inj hdepth ▸ .nil
  | cons t ts ih =>
    -- a separator in the rest is one in the whole
    have hrest : ∀ {depth'}, (∀ us, depthBehind depth (t :: us) = depthBehind depth' us) →
        ∀ front u rest, ts = front ++ u :: rest → depthBehind depth' front = some 0 →
          u.mark? ≠ some sep := by
      intro depth' hstep front u rest heq hfront
      exact hfree (t :: front) u rest (heq ▸ rfl) ((hstep front).trans hfront)
    rcases bracket_cases t with ⟨b, ho⟩ | ⟨b, hc⟩ | ht
    · rw [depthBehind_opens _ _ ho] at hdepth
      exact .opens ho (ih hdepth (hrest fun us => depthBehind_opens _ _ ho))
    · cases depth with
      | zero => rw [depthBehind_closes_zero _ hc] at hdepth; cases hdepth
      | succ depth =>
        rw [depthBehind_closes _ _ hc] at hdepth
        exact .closes hc (ih hdepth (hrest fun us => depthBehind_closes _ _ hc))
    · rw [depthBehind_plain _ _ ht] at hdepth
      refine .plain ht ?_ (ih hdepth (hrest fun us => depthBehind_plain _ _ ht))
      rintro rfl
      exact hfree [] t ts rfl rfl

/-- **A piece is level and free of separators.** -/
theorem unparted_iff (hsep : NoBracket sep) : Unparted sep 0 ts ↔ Level ts ∧ FreeOf sep ts :=
  ⟨fun h => ⟨h.depthBehind_eq, fun _ _ _ heq hfront => h.mark?_ne hsep heq hfront⟩,
    fun h => .of_depthBehind h.1 h.2⟩

/-! ## Joining -/

/-- Pieces may be joined with the same separator everywhere. -/
theorem joinedBy_intercalate {s : Token} (hs : s.mark? = some sep) (hne : pieces ≠ []) :
    JoinedBy sep pieces ([s].intercalate pieces) := by
  induction pieces with
  | nil => exact absurd rfl hne
  | cons p ps ih =>
    cases ps with
    | nil =>
      rw [List.intercalate_singleton]
      exact .last
    | cons q qs =>
      rw [List.intercalate_cons_cons, List.append_assoc, List.singleton_append]
      exact .cons hs (ih (List.cons_ne_nil q qs))

theorem unplaced_of_mark? {s : Token} (hs : s.mark? = some sep) :
    s.unplaced = written .punctuation sep := by
  unfold mark? at hs
  split at hs
  · rename_i hk
    rw [unplaced, hk, Option.some.inj hs]
  · cases hs

/-- Separators differ in their places only, so the joined list is the only one but for places. -/
theorem JoinedBy.unplaced {s : Token} (hs : s.mark? = some sep) (h : JoinedBy sep pieces ts) :
    unplacedAll ([s].intercalate pieces) = unplacedAll ts := by
  induction h with
  | last => rw [List.intercalate_singleton]
  | @cons p ps u ts hu hrest ih =>
    obtain ⟨q, qs, rfl⟩ : ∃ q qs, ps = q :: qs := by cases hrest <;> exact ⟨_, _, rfl⟩
    have hsame : s.unplaced = u.unplaced :=
      (unplaced_of_mark? hs).trans (unplaced_of_mark? hu).symm
    simp only [List.intercalate_cons_cons, List.append_assoc, List.singleton_append, List.map_append,
      List.map_cons, ih, hsame]

/-! ## Cutting -/

/-- Joined pieces are cut apart again. -/
theorem splitTopFrom_joined (hsep : NoBracket sep) (h : JoinedBy sep pieces ts)
    (hpieces : ∀ p ∈ pieces, Unparted sep 0 p) : splitTopFrom all sep 0 ts = .ok pieces := by
  induction h with
  | last => exact splitTopFrom_last (hpieces _ List.mem_cons_self)
  | @cons p ps s ts hs _ ih =>
    obtain ⟨hp, hps⟩ := List.forall_mem_cons.mp hpieces
    have hplain : s.Plain := by
      constructor
      · rw [opens?, hs, Option.bind_some, hsep.1]
      · rw [closes?, hs, Option.bind_some, hsep.2]
    rw [splitTopFrom_piece hp hplain hs, ih hps]
    rfl

/-- **What `splitTop` returns.** -/
theorem splitTop_eq_ok_iff (hsep : NoBracket sep) : splitTop ts sep = .ok pieces ↔
    JoinedBy sep pieces ts ∧ ∀ p ∈ pieces, Level p ∧ FreeOf sep p := by
  constructor
  · intro h
    obtain ⟨hjoin, q, qs, rfl, hq, hqs⟩ := unparted_splitTopFrom h
    exact ⟨hjoin, fun p hp => (unparted_iff hsep).mp (List.forall_mem_cons.mpr ⟨hq, hqs⟩ p hp)⟩
  · rintro ⟨hjoin, hpieces⟩
    exact splitTopFrom_joined hsep hjoin fun p hp => (unparted_iff hsep).mpr (hpieces p hp)

/-- **Cutting at the top level is the inverse of joining.** Let `s` be a punctuation mark that is no
bracket. If a list is cut at marks like `s`, it consists of the pieces with such a mark between any two
of them, so joining the pieces with `s` gives the list back but for the places of these marks; each
piece is level, and outside of all brackets it has no such mark. Any pieces of this sort, and at least
one, are what a list is cut into that is joined from them. A list is refused exactly if it is not
level. -/
theorem splitTop_joined {s : Token} (hs : s.kind = .punctuation) (hplain : s.Plain) :
    (∀ ts pieces, splitTop ts s.text = .ok pieces →
      JoinedBy s.text pieces ts ∧ unplacedAll ([s].intercalate pieces) = unplacedAll ts ∧
        ∀ p ∈ pieces, Level p ∧ FreeOf s.text p) ∧
    (∀ pieces, pieces ≠ [] → (∀ p ∈ pieces, Level p ∧ FreeOf s.text p) →
      splitTop ([s].intercalate pieces) s.text = .ok pieces ∧
        ∀ ts, JoinedBy s.text pieces ts → splitTop ts s.text = .ok pieces) ∧
    ∀ ts, (∃ e, splitTop ts s.text = .error e) ↔ ¬ Level ts := by
  have hmark : s.mark? = some s.text := by rw [mark?, hs]
  have hsep : NoBracket s.text := by
    have hopens := hplain.opens
    have hcloses := hplain.closes
    rw [opens?, hmark, Option.bind_some] at hopens
    rw [closes?, hmark, Option.bind_some] at hcloses
    exact ⟨hopens, hcloses⟩
  refine ⟨fun ts pieces h => ?_, fun pieces hne hpieces => ?_, fun ts => ?_⟩
  · obtain ⟨hjoin, hpieces⟩ := (splitTop_eq_ok_iff hsep).mp h
    exact ⟨hjoin, hjoin.unplaced hmark, hpieces⟩
  · have hcut : ∀ ts, JoinedBy s.text pieces ts → splitTop ts s.text = .ok pieces := fun ts hjoin =>
      (splitTop_eq_ok_iff hsep).mpr ⟨hjoin, hpieces⟩
    exact ⟨hcut _ (joinedBy_intercalate hmark hne), hcut⟩
  · have hok : (∃ pieces, splitTop ts s.text = .ok pieces) ↔ Level ts := exists_splitTopFrom_iff
    rw [← hok, Except.exists_error_iff]

/-- A comma that stands nowhere in particular. -/
def comma : Token := written .punctuation ","

/-- Pieces of which two are empty, and one has a comma between brackets of two kinds. -/
def unevenPieces : List (List Token) :=
  [[], [written .punctuation "(", comma, written .punctuation "]"], []]

/-- Empty pieces at either end are kept, and a bracket alone is refused. -/
theorem splitTop_joined_uneven :
    comma.kind = .punctuation ∧ comma.Plain ∧
      (∀ p ∈ unevenPieces, Level p ∧ FreeOf "," p) ∧
      splitTop ([comma].intercalate unevenPieces) "," = .ok unevenPieces ∧
      ∃ e, splitTop [written .punctuation "]"] "," = .error e := by
  have hplain : comma.Plain := ⟨rfl, rfl⟩
  obtain ⟨hcut, hjoin, hrefused⟩ := splitTop_joined (s := comma) rfl hplain
  have hpieces : ∀ p ∈ unevenPieces, Level p ∧ FreeOf "," p :=
    (hcut ([comma].intercalate unevenPieces) unevenPieces (by rfl)).2.2
  refine ⟨rfl, hplain, hpieces, ?_, ?_⟩
  · exact (hjoin unevenPieces (List.cons_ne_nil _ _) hpieces).1
  · exact (hrefused _).mpr (by decide)

end BoxScript.Token
