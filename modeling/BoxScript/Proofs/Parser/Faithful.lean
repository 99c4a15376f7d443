import BoxScript.Node.Outline
import BoxScript.Proofs.Node.Ambiguous
import BoxScript.Proofs.Parser.Program
import BoxScript.Proofs.Parser.RoundTrip

/-!
# Accepted texts are printed faithfully

What a text was read as is printed as a text that is read as the same tree, up to places, hidden
counters and steps that are written out, unless a node of the tree is ambiguous
(`parseStatement_source_unambiguous`). Texts with such nodes are accepted too, and printing loses
what they say (`parseStatement_source_ambiguous`).
-/

namespace BoxScript

open Token BoxScript.Parser

/-- **Unambiguous trees are printed faithfully.** If a text is accepted, and what was read stands
alone and has no ambiguous node in it, its text is accepted, and read as the same tree up to places,
hidden counters and steps that are written out. -/
theorem parseStatement_source_unambiguous {source : String} {s : Statement}
    (h : parseStatement source = .ok s) (ha : s.node.StandsAlone) (hu : Unambiguous s.node)
    (shown : Value → String) :
    ∃ s', parseStatement (s.node.source shown) = .ok s' ∧ s'.node.bare = s.node.expanded.bare := by
  have hlegible : Legible .statement s.node.expanded := (wellFormed_parseStatement h).legible hu ha
  rw [← Node.source_expanded]
  exact hlegible.exists_parseStatement shown

/-- The tree of `y=(for(n){x++;}).f`, whatever the names are. -/
def isFieldOfCountdown : Node → Bool
  | .assign _ (.fieldGet (.countdown _ (.lookup _)
      [.mk _ (.assign _ (.unary .inc (.lookup _)))]) _) => true
  | _ => false

theorem unambiguous_fieldOfCountdown {n : Node} (h : isFieldOfCountdown n = true) :
    n.StandsAlone ∧ Unambiguous n := by
  unfold isFieldOfCountdown at h
  split at h
  next y counter n position x z f =>
    have hloop : Unambiguous (.countdown counter (.lookup n)
        [.mk position (.assign x (.unary .inc (.lookup z)))]) :=
      .countdown counter (.lookup n) (List.pairwise_singleton _ _)
        (List.forall_mem_singleton.mpr (.inr rfl))
        (List.forall_mem_singleton.mpr (.assign x (.step .inc z)))
    exact ⟨.inr rfl, .assign y (hloop.fieldGet rfl f)⟩
  next => exact absurd h Bool.false_ne_true

/-- A field of a loop with a hidden counter and a step in it. -/
theorem parseStatement_source_unambiguous_countdown :
    ∃ s, parseStatement "y=(for(n)\x7bx++;\x7d).f" = .ok s ∧
      ∃ s', parseStatement (s.node.source fun _ => "") = .ok s' ∧
        s'.node.bare = s.node.expanded.bare := by
  obtain ⟨s, hs, htree⟩ : ∃ s, parseStatement "y=(for(n)\x7bx++;\x7d).f" = .ok s ∧
      isFieldOfCountdown s.node = true :=
    exists_of_any (fun s : Statement => isFieldOfCountdown s.node) (by decide +kernel)
  obtain ⟨ha, hu⟩ := unambiguous_fieldOfCountdown htree
  exact ⟨s, hs, parseStatement_source_unambiguous hs ha hu _⟩

/-- The text is accepted, and its tree is printed as a text that is refused or read as another
tree. -/
def PrintedOtherwise (source : String) : Prop :=
  ∃ s, parseStatement source = .ok s ∧
    ¬ ∃ s', parseStatement (s.node.source fun _ => "") = .ok s' ∧
      s'.node.bare = s.node.expanded.bare

/-- A test for it that compares outlines. -/
def outlineDiffers (source : String) : Bool :=
  match parseStatement source with
  | .error _ => false
  | .ok s =>
    match parseStatement (s.node.source fun _ => "") with
    | .error _ => true
    | .ok s' => s'.node.bare.outline (fun _ => "") != s.node.expanded.bare.outline fun _ => ""

theorem printedOtherwise_of_outline {source : String} (h : outlineDiffers source = true) :
    PrintedOtherwise source := by
  unfold outlineDiffers at h
  split at h
  next => exact absurd h Bool.false_ne_true
  next s hs =>
    refine ⟨s, hs, ?_⟩
    rintro ⟨s', hs', hbare⟩
    rw [hs'] at h
    dsimp only at h
    rw [hbare, bne_self_eq_false] at h
    exact Bool.false_ne_true h

/-- **Printing is not always faithful**: a bare `return`, a number that is printed with an exponent,
a field of a root, a sum with a block on the left, a step of a field that has the name of a keyword,
a declaration in parentheses behind another statement, and a field of a block, in a block and
alone. -/
theorem parseStatement_source_ambiguous :
    PrintedOtherwise "return" ∧ PrintedOtherwise "0.0000001" ∧ PrintedOtherwise "(sqrt x).y" ∧
      PrintedOtherwise "(\x7bx;\x7d)+y" ∧ PrintedOtherwise "x.print++" ∧
      PrintedOtherwise "\x7bx=y;(fun f()\x7b\x7d);\x7d" ∧
      PrintedOtherwise "\x7b(\x7bx;\x7d).y;\x7d" ∧ PrintedOtherwise "(\x7bx;\x7d).y" := by
  refine ⟨?_, ?_, ?_, ?_, ?_, ?_, ?_, ?_⟩ <;>
    exact printedOtherwise_of_outline (by decide +kernel)

end BoxScript
