import BoxScript.Parser.Program
import BoxScript.Proofs.Node.Printable
import BoxScript.Proofs.Token.Statement
import Mathlib.Data.List.Nodup

/-!
# Parts of token lists

What a construct hands on is a part of its own tokens, and a shorter one. This file says so of every
function that cuts a list: its results stand together in the list (`<:+:`), with the lengths that
matter.

The tokens of a text are `Proper`: a token that counts as a name is spelled like one. Every part of a
proper list is proper.

An error is placed (`ParseError.isPlaced`) if the token that it is to be placed at was there, and if a
bracket that it misses was there to be closed. What holds of all errors at the tokens of a list
(`Admits`) holds of all errors of the functions that cut it.
-/

namespace BoxScript

variable {ε α β : Type}

theorem Except.exists_of_map_eq_ok {x : Except ε α} {f : α → β} {b : β} (h : x.map f = .ok b) :
    ∃ a, x = .ok a ∧ f a = b := by
  cases x with
  | error e => cases h
  | ok a => exact ⟨a, rfl, Except.ok.inj h⟩

theorem Except.exists_error_iff {x : Except ε α} : (∃ e, x = .error e) ↔ ¬ ∃ a, x = .ok a := by
  cases x with
  | error e => exact ⟨fun _ ⟨_, h⟩ => (nomatch h), fun _ => ⟨e, rfl⟩⟩
  | ok a => exact ⟨fun ⟨_, h⟩ => (nomatch h), fun h => absurd ⟨a, rfl⟩ h⟩

theorem Except.exists_of_bind_eq_ok {x : Except ε α} {f : α → Except ε β} {b : β}
    (h : x >>= f = .ok b) : ∃ a, x = .ok a ∧ f a = .ok b := by
  cases x with
  | error e => cases h
  | ok a => exact ⟨a, rfl, h⟩

namespace Token

/-! ## Tokens of a text -/

/-- Each token that counts as a name is spelled like one. -/
def Proper (ts : List Token) : Prop :=
  ∀ t ∈ ts, t.kind = .name → Library.isIdentifier t.text = true

variable {ts us : List Token} {c : Char} {cs : List Char} {n : Nat}

theorem Proper.sublist (h : Proper ts) (hs : us.Sublist ts) : Proper us :=
  fun t ht => h t (hs.subset ht)

/-- A part of a list that leaves something out. -/
structure PartOf (us ts : List Token) : Prop where
  inside : us <:+: ts
  length_lt : us.length < ts.length

theorem PartOf.sublist (h : PartOf us ts) : us.Sublist ts :=
  h.inside.sublist

theorem Proper.part (h : Proper ts) (hs : PartOf us ts) : Proper us :=
  h.sublist hs.sublist

theorem lexeme?_name (h : lexeme? c cs = some (some .name, n)) :
    isNameStart c = true ∧ n = runLength isNameRest cs := by
  unfold lexeme? at h
  split at h
  · cases h
  split at h
  · obtain ⟨m, -, hm⟩ := Option.map_eq_some_iff.mp h
    cases hm
  split at h
  · cases h
  split at h
  · rename_i hname
    cases h
    exact ⟨hname, rfl⟩
  split at h
  · cases h
  split at h
  · cases h
  · cases h
  · split_ifs at h <;> cases h
  · split_ifs at h
    cases h

theorem isIdentifier_lexeme (h : lexeme? c cs = some (some .name, n)) :
    Library.isIdentifier (String.ofList (c :: cs.take n)) = true := by
  obtain ⟨hc, rfl⟩ := lexeme?_name h
  have hrest : (cs.take (runLength isNameRest cs)).all isNameRest = true := by
    unfold runLength
    rw [← List.prefix_iff_eq_take.mp (List.takeWhile_prefix isNameRest)]
    exact List.all_takeWhile
  rw [Library.isIdentifier, String.toList_ofList]
  show (isNameStart c && (cs.take _).all isNameRest) = true
  rw [hc, hrest]
  rfl

theorem proper_tokensFrom {skip : Nat} {l : Location} (h : tokensFrom skip l cs = .ok ts) :
    Proper ts := by
  induction cs generalizing skip l ts with
  | nil =>
    obtain rfl : [] = ts := by
      cases skip <;> exact Except.ok.inj h
    exact fun t ht => absurd ht List.not_mem_nil
  | cons c cs ih =>
    cases skip with
    | succ skip => exact ih h
    | zero =>
      rw [tokensFrom] at h
      split at h
      · cases h
      · exact ih h
      · rename_i kind n hl
        obtain ⟨us, hu, rfl⟩ := Except.exists_of_map_eq_ok h
        intro t ht hk
        rcases List.mem_cons.mp ht with rfl | ht
        · obtain rfl : kind = .name := hk
          exact isIdentifier_lexeme hl
        · exact ih hu t ht hk

/-- **The tokens of a text are proper.** -/
theorem proper_tokenize {source : String} (h : tokenize source = .ok ts) : Proper ts :=
  proper_tokensFrom h

/-! ## Cutting at separators -/

section Pieces

variable {all ts us piece : List Token} {t : Token} {pieces : List (List Token)} {sep : String}
  {depth : Nat}

/-- The list consists of the pieces, with a separator between any two of them. -/
inductive JoinedBy (sep : String) : List (List Token) → List Token → Prop
  | last {p : List Token} : JoinedBy sep [p] p
  | cons {p : List Token} {ps : List (List Token)} {s : Token} {ts : List Token} :
    s.mark? = some sep → JoinedBy sep ps ts → JoinedBy sep (p :: ps) (p ++ s :: ts)

theorem JoinedBy.consPiece (h : JoinedBy sep pieces ts) (t : Token) :
    JoinedBy sep (consPiece t pieces) (t :: ts) := by
  cases h with
  | last => exact .last
  | cons hs hrest => exact .cons hs hrest

theorem JoinedBy.inside (h : JoinedBy sep pieces ts) : ∀ p ∈ pieces, p <:+: ts := by
  induction h with
  | last => exact List.forall_mem_singleton.mpr List.infix_rfl
  | cons _ _ ih =>
    refine List.forall_mem_cons.mpr ⟨(List.prefix_append ..).isInfix, fun p hp => ?_⟩
    exact (List.infix_cons (ih p hp)).trans (List.suffix_append ..).isInfix

/-- What is cut into pieces is put together from them, and the first one belongs to the piece that is
being read. -/
theorem unparted_splitTopFrom (h : splitTopFrom all sep depth ts = .ok pieces) :
    JoinedBy sep pieces ts ∧
      ∃ q qs, pieces = q :: qs ∧ Unparted sep depth q ∧ ∀ p ∈ qs, Unparted sep 0 p := by
  fun_induction splitTopFrom all sep depth ts generalizing pieces with
  | case1 =>
    obtain rfl := Except.ok.inj h
    exact ⟨.last, [], [], rfl, .nil, List.forall_mem_nil _⟩
  | case2 => cases h
  | case3 depth t ts b ho ih =>
    obtain ⟨rs, hrs, rfl⟩ := Except.exists_of_map_eq_ok h
    obtain ⟨hjoin, q, qs, rfl, hq, hqs⟩ := ih hrs
    exact ⟨hjoin.consPiece t, t :: q, qs, rfl, .opens ho hq, hqs⟩
  | case4 => cases h
  | case5 t ts b hc _ outer ih =>
    obtain ⟨rs, hrs, rfl⟩ := Except.exists_of_map_eq_ok h
    obtain ⟨hjoin, q, qs, rfl, hq, hqs⟩ := ih hrs
    exact ⟨hjoin.consPiece t, t :: q, qs, rfl, .closes hc hq, hqs⟩
  | case6 depth t ts hc ho hsep ih =>
    obtain ⟨rs, hrs, rfl⟩ := Except.exists_of_map_eq_ok h
    obtain ⟨hjoin, q, qs, rfl, hq, hqs⟩ := ih hrs
    obtain ⟨rfl, hmark⟩ := hsep
    exact ⟨.cons hmark hjoin, [], q :: qs, rfl, .nil, List.forall_mem_cons.mpr ⟨hq, hqs⟩⟩
  | case7 depth t ts hc ho hsep ih =>
    obtain ⟨rs, hrs, rfl⟩ := Except.exists_of_map_eq_ok h
    obtain ⟨hjoin, q, qs, rfl, hq, hqs⟩ := ih hrs
    exact ⟨hjoin.consPiece t, t :: q, qs, rfl, .plain ⟨ho, hc⟩ (fun hd hs => hsep ⟨hd, hs⟩) hq, hqs⟩

/-- The pieces between separators are parts of the list. -/
theorem splitTop_inside (h : splitTop ts sep = .ok pieces) : ∀ p ∈ pieces, p <:+: ts :=
  (unparted_splitTopFrom h).1.inside

/-- There is always a first piece. -/
theorem splitTop_ne_nil (h : splitTop ts sep = .ok pieces) : pieces ≠ [] := by
  obtain ⟨-, q, qs, rfl, -⟩ := unparted_splitTopFrom h
  exact List.cons_ne_nil q qs

/-- The list consists of the pieces, and behind each of them but the last there may be a semicolon. -/
inductive MadeOf : List (List Token) → List Token → Prop
  | last {p : List Token} : MadeOf [p] p
  | next {p ts : List Token} {ps : List (List Token)} : MadeOf ps ts → MadeOf (p :: ps) (p ++ ts)
  | semicolon {p ts : List Token} {ps : List (List Token)} {s : Token} : s.IsSemicolon →
    MadeOf ps ts → MadeOf (p :: ps) (p ++ s :: ts)

theorem MadeOf.consPiece (h : MadeOf pieces ts) (t : Token) :
    MadeOf (consPiece t pieces) (t :: ts) := by
  cases h with
  | last => exact .last
  | next hrest => exact .next hrest
  | semicolon hs hrest => exact .semicolon hs hrest

theorem MadeOf.inside (h : MadeOf pieces ts) : ∀ p ∈ pieces, p <:+: ts := by
  induction h with
  | last => exact List.forall_mem_singleton.mpr List.infix_rfl
  | next _ ih =>
    refine List.forall_mem_cons.mpr ⟨(List.prefix_append ..).isInfix, fun p hp => ?_⟩
    exact (ih p hp).trans (List.suffix_append ..).isInfix
  | semicolon _ _ ih =>
    refine List.forall_mem_cons.mpr ⟨(List.prefix_append ..).isInfix, fun p hp => ?_⟩
    exact (List.infix_cons (ih p hp)).trans (List.suffix_append ..).isInfix

theorem piecesFrom_madeOf {here : List Token} (h : piecesFrom all here depth ts = .ok pieces) :
    MadeOf pieces ts := by
  fun_induction piecesFrom all here depth ts generalizing pieces with
  | case1 => exact Except.ok.inj h ▸ .last
  | case2 | case4 => cases h
  | case3 | case6 | case8 =>
    rename_i ih
    obtain ⟨qs, hq, rfl⟩ := Except.exists_of_map_eq_ok h
    exact (ih hq).consPiece _
  | case5 here t ts b _ _ outer _ ih =>
    obtain ⟨qs, hq, rfl⟩ := Except.exists_of_map_eq_ok h
    exact .next (p := [t]) (ih hq)
  | case7 here depth t ts _ _ hend ih =>
    obtain ⟨qs, hq, rfl⟩ := Except.exists_of_map_eq_ok h
    exact .semicolon (p := []) hend.2 (ih hq)

theorem mem_declarationsFirst {ss : List (List Token)} (h : piece ∈ declarationsFirst ss) :
    piece ∈ ss := by
  unfold declarationsFirst at h
  simp only [List.mem_append, List.mem_filter] at h
  rcases h with (h | h) | h
  · exact h.1
  · exact h.1
  · exact h.1

/-- The statements of a block are parts of it, and none is empty. -/
theorem statements_inside (h : statements ts = .ok pieces) :
    ∀ p ∈ pieces, p <:+: ts ∧ p ≠ [] := by
  intro p hp
  obtain ⟨qs, hq, rfl⟩ := Except.exists_of_map_eq_ok h
  obtain ⟨rs, hr, rfl⟩ := Except.exists_of_map_eq_ok hq
  have hmem := List.mem_filter.mp (mem_declarationsFirst hp)
  exact ⟨(piecesFrom_madeOf hr).inside p hmem.1, by simpa using hmem.2⟩

end Pieces

end Token

namespace Parser

open Token

variable {ts : List Token}

/-! ## Cutting at operators -/

variable {depth : Int} {front object : List Token} {x : String}

/-- The operands of a level are parts of the list, and the first stands at its start. -/
theorem operands_inside {level : List BinaryOperator} {before : Option Token} :
    (operands level depth before ts).1 <+: ts ∧
      ∀ m ∈ (operands level depth before ts).2, m.2 <:+: ts := by
  induction ts generalizing depth before with
  | nil => exact ⟨List.nil_prefix, fun m hm => absurd hm List.not_mem_nil⟩
  | cons t ts ih =>
    obtain ⟨hfirst, hmore⟩ := @ih (depthAfter depth t) (some t)
    rw [operands]
    split
    rename_i first more hcut
    rw [hcut] at hfirst hmore
    split
    · refine ⟨List.nil_prefix, fun m hm => ?_⟩
      rcases List.mem_cons.mp hm with rfl | hm
      · exact List.infix_cons hfirst.isInfix
      · exact List.infix_cons (hmore m hm)
    · exact ⟨List.cons_prefix_cons.mpr ⟨rfl, hfirst⟩, fun m hm => List.infix_cons (hmore m hm)⟩

theorem cutAssignment_eq_some {rest : List Token} {op : Option BinaryOperator}
    (h : cutAssignment depth ts = some (front, op, rest)) :
    ∃ t, ts = front ++ t :: rest ∧ assignment? t = some op := by
  induction ts generalizing depth front with
  | nil => cases h
  | cons t ts ih =>
    rw [cutAssignment] at h
    split at h
    · rename_i op' hop
      cases h
      split at hop
      · exact ⟨t, rfl, hop⟩
      · cases hop
    · obtain ⟨⟨found, tail⟩, hfound, heq⟩ := Option.map_eq_some_iff.mp h
      cases heq
      obtain ⟨u, rfl, hop⟩ := ih hfound
      exact ⟨u, rfl, hop⟩

theorem stepped?_eq_some {op : UnaryOperator} (h : stepped? ts = some (front, op)) :
    ∃ t, ts = front ++ [t] ∧ step? t = some op := by
  unfold stepped? at h
  split at h
  · rename_i t u rest hrev
    obtain ⟨op', hop, heq⟩ := Option.map_eq_some_iff.mp h
    cases heq
    refine ⟨t, ?_, hop⟩
    rw [← List.reverse_reverse ts, hrev, List.reverse_cons]
  · cases h

theorem memberName?_eq_some (h : memberName? ts = some (object, x)) :
    ∃ point name : Token, ts = object ++ [point, name] ∧ point.isWord "." = true ∧
      name.kind = .name ∧ name.text = x := by
  unfold memberName? at h
  split at h
  · rename_i name point rest hrev
    split at h
    · rename_i hc
      cases h
      simp only [Bool.and_eq_true, decide_eq_true_eq] at hc
      refine ⟨point, name, ?_, hc.1.2, hc.2, rfl⟩
      rw [← List.reverse_reverse ts, hrev, List.reverse_cons, List.reverse_cons,
        List.append_assoc]
      rfl
    · cases h
  · cases h

theorem memberName?_part (h : memberName? ts = some (object, x)) : PartOf object ts := by
  obtain ⟨point, name, rfl, -, -, -⟩ := memberName?_eq_some h
  refine ⟨(List.prefix_append ..).isInfix, ?_⟩
  rw [List.length_append, List.length_cons]
  omega

/-! ## Cutting out groups -/

theorem extract_isInfix (ts : List Token) (i j : Nat) : ts.extract i j <:+: ts := by
  rw [List.extract_eq_take_drop]
  exact (List.take_prefix _ _).isInfix.trans (List.drop_suffix _ _).isInfix

theorem part_extract (hne : ts ≠ []) (i j : Nat) : PartOf (ts.extract (i + 1) j) ts := by
  have hpos := List.length_pos_iff.mpr hne
  refine ⟨extract_isInfix ts _ _, ?_⟩
  rw [List.extract_eq_take_drop, List.length_take, List.length_drop]
  omega

variable {i start : Nat} {parts : Headed}

theorem part_take (h : i < ts.length) : PartOf (ts.take i) ts := by
  refine ⟨(List.take_prefix _ _).isInfix, ?_⟩
  rw [List.length_take]
  omega

theorem part_drop (hne : ts ≠ []) (i : Nat) : PartOf (ts.drop (i + 1)) ts := by
  have hpos := List.length_pos_iff.mpr hne
  refine ⟨(List.drop_suffix _ _).isInfix, ?_⟩
  rw [List.length_drop]
  omega

/-- A bracket that is found stands in the list, unless it was found before. -/
theorem lastOpener_eq_some {found : Option Nat} (h : lastOpener found i depth ts = some start) :
    found = some start ∨ ∃ t, ts[start - i]? = some t ∧ i ≤ start ∧ t.opens?.isSome = true := by
  induction ts generalizing found i depth with
  | nil => exact Or.inl h
  | cons t ts ih =>
    rw [lastOpener] at h
    rcases ih h with hfound | ⟨u, hu, hle, hopen⟩
    · split at hfound
      · rename_i hc
        cases hfound
        exact Or.inr ⟨t, by rw [Nat.sub_self]; rfl, Nat.le_refl _, hc.1⟩
      · exact Or.inl hfound
    · refine Or.inr ⟨u, ?_, by omega, hopen⟩
      rw [show start - i = start - (i + 1) + 1 by omega, List.getElem?_cons_succ]
      exact hu

/-- A group at the end of a list starts with its bracket. -/
theorem opens?_of_groupStart (h : groupStart ts = .ok start) :
    ∃ t, ts[start]? = some t ∧ t.opens?.isSome = true := by
  unfold groupStart at h
  split at h
  · cases h
  · rename_i found hfound
    obtain ⟨stop, -, h⟩ := Except.exists_of_bind_eq_ok h
    split at h
    · obtain rfl := Except.ok.inj h
      rcases lastOpener_eq_some hfound with hnone | ⟨t, ht, -, hopens⟩
      · cases hnone
      · exact ⟨t, ht, hopens⟩
    · cases h

theorem groupStart_lt (h : groupStart ts = .ok start) : start < ts.length := by
  obtain ⟨t, ht, -⟩ := opens?_of_groupStart h
  exact (List.getElem?_eq_some_iff.mp ht).1

/-- The parts of a form are parts of its tokens. -/
structure Headed.Within (parts : Headed) (ts : List Token) : Prop where
  header : PartOf parts.header ts
  body : PartOf parts.body ts
  rest : PartOf parts.rest ts

theorem headed_within (h : headed ts start = .ok parts) : parts.Within ts := by
  unfold headed at h
  dsimp only at h
  split at h
  · rename_i hopen
    have hne : ts ≠ [] := by
      rintro rfl
      cases hopen
    obtain ⟨close, -, h⟩ := Except.exists_of_bind_eq_ok h
    split at h
    · obtain ⟨stop, -, h⟩ := Except.exists_of_bind_eq_ok h
      cases h
      exact ⟨part_extract hne _ _, part_extract hne _ _, part_drop hne _⟩
    · cases h
  · cases h

theorem headedOnly_within (h : headedOnly ts start = .ok parts) : parts.Within ts := by
  obtain ⟨found, hfound, h⟩ := Except.exists_of_bind_eq_ok h
  split at h
  · cases h
    exact headed_within hfound
  · cases h

theorem bracedOnly?_part {inside : List Token} (h : bracedOnly? ts = .ok (some inside)) :
    PartOf inside ts := by
  unfold bracedOnly? at h
  split at h
  · rename_i hopen
    obtain ⟨stop, -, h⟩ := Except.exists_of_bind_eq_ok h
    have hne : ts ≠ [] := by
      rintro rfl
      cases hopen
    split at h
    · cases h
      exact part_extract hne _ _
    · cases h
  · cases h

end Parser

/-! ## Places of errors -/

/-- The cause does not miss a bracket that closes nothing. -/
def ParseError.Cause.namesCloser : ParseError.Cause → Bool
  | .missingCloser closer _ => closer != ""
  | _ => true

/-- The error has a place, and a bracket that it misses was there to be closed. -/
def ParseError.isPlaced (e : ParseError) : Bool :=
  e.position.isSome && e.cause.namesCloser

namespace Parser

open Token

/-- The error of a refusal satisfies `P`. -/
def Refuses {α : Type} (P : ParseError → Prop) (x : Except ParseError α) : Prop :=
  ∀ e, x = .error e → P e

namespace Refuses

variable {α β : Type} {P : ParseError → Prop}

theorem ok (a : α) : Refuses P (.ok a) :=
  fun _ h => nomatch h

theorem error {e : ParseError} (h : P e) : Refuses P (.error e : Except ParseError α) := by
  intro e' he
  cases he
  exact h

theorem bind {x : Except ParseError α} {f : α → Except ParseError β} (hx : Refuses P x)
    (hf : ∀ a, x = .ok a → Refuses P (f a)) : Refuses P (x >>= f) := by
  cases x with
  | error e => exact .error (hx e rfl)
  | ok a => exact hf a rfl

theorem map {x : Except ParseError α} {f : α → β} (hx : Refuses P x) : Refuses P (x.map f) := by
  cases x with
  | error e => exact .error (hx e rfl)
  | ok a => exact .ok _

theorem ite {c : Prop} [Decidable c] {x y : Except ParseError α} (hx : Refuses P x)
    (hy : Refuses P y) : Refuses P (if c then x else y) := by
  split
  · exact hx
  · exact hy

end Refuses

variable {P : ParseError → Prop} {all ts : List Token}

theorem isPlaced_blame (cause : String → ParseError.Cause) (hne : ts ≠ [])
    (hc : (cause (dense ts)).namesCloser = true) : (blame cause ts).isPlaced = true := by
  obtain ⟨t, us, rfl⟩ := List.exists_cons_of_ne_nil hne
  show (cause _).namesCloser = true
  exact hc

theorem isPlaced_malformed (hne : ts ≠ []) : (malformed ts).isPlaced = true :=
  isPlaced_blame _ hne rfl

/-! ### Errors at tokens -/

/-- `P` holds of errors about the text at each of the tokens. A bracket that they miss was there to be
closed, unless a name is spelled like a bracket. -/
structure Admits (P : ParseError → Prop) (ts : List Token) : Prop where
  error : ∀ {t : Token} {cause : ParseError.Cause}, t ∈ ts → cause.kind = .parse →
    (Proper ts → cause.namesCloser = true) → P { cause, position := some t.position }

theorem admits_isPlaced (hp : Proper ts) : Admits (·.isPlaced = true) ts :=
  ⟨fun _ _ hcloser => hcloser hp⟩

theorem Admits.blame (h : Admits P all) (hts : ts ⊆ all) (hne : ts ≠ [])
    (cause : String → ParseError.Cause) (hk : (cause (dense ts)).kind = .parse)
    (hc : (cause (dense ts)).namesCloser = true) : P (Parser.blame cause ts) := by
  obtain ⟨t, us, rfl⟩ := List.exists_cons_of_ne_nil hne
  exact h.error (hts List.mem_cons_self) hk fun _ => hc

theorem refuses_matchFrom (h : Admits P all) (us : List Token) (waiting : List Bracket) (i : Nat)
    (hts : ts ⊆ all) : Refuses P (matchFrom us waiting i ts) := by
  fun_induction matchFrom us waiting i ts with
  | case1 => exact .ok _
  | case3 | case6 => exact .error (h.error (hts List.mem_cons_self) rfl fun _ => rfl)
  | case4 => exact .ok _
  | case2 | case5 | case7 => exact ‹_ → _› (List.subset_of_cons_subset hts)

variable {t : Token} {pieces : List (List Token)} {i : Nat} {imports : List String}
  {stage : Header.Stage} {header : Header}

/-- A bracket that is never closed was there to be closed. -/
theorem refuses_matching (h : Admits P ts) {start : Nat} (ht : ts[start]? = some t)
    (ho : Proper ts → t.opens?.isSome = true) : Refuses P (matching ts start) := by
  refine .bind (refuses_matchFrom h ts [] start (List.drop_subset _ _)) fun found _ => ?_
  cases found with
  | some i => exact .ok i
  | none =>
    have hhead : (ts.drop start).head? = some t := by rw [List.head?_drop, ht]
    refine .error (?_ : P (missingCloser ts start))
    simp only [missingCloser, headPosition, hhead, Option.bind_some, Option.map_some]
    refine h.error (List.mem_of_getElem? ht) rfl fun hp => ?_
    obtain ⟨b, hb⟩ := Option.isSome_iff_exists.mp (ho hp)
    rw [hb]
    cases b <;> rfl

theorem refuses_groupStart (h : Admits P ts) (hm : P (malformed ts)) :
    Refuses P (groupStart ts) := by
  unfold groupStart
  split
  · exact .error hm
  · rename_i start hstart
    rcases lastOpener_eq_some hstart with hnone | ⟨t, ht, -, ho⟩
    · cases hnone
    · exact .bind (refuses_matching h ht fun _ => ho) fun stop _ => .ite (.ok _) (.error hm)

theorem refuses_splitTopFrom (h : Admits P all) (hne : all ≠ []) (sep : String) (depth : Nat)
    (hts : ts ⊆ all) : Refuses P (splitTopFrom all sep depth ts) := by
  fun_induction splitTopFrom all sep depth ts with
  | case1 => exact .ok _
  | case2 => exact .error (h.blame (List.Subset.refl _) hne .unbalanced rfl rfl)
  | case4 => exact .error (h.error (hts List.mem_cons_self) rfl fun _ => rfl)
  | case3 | case5 | case6 | case7 => exact .map (‹_ → _› (List.subset_of_cons_subset hts))

theorem refuses_splitTop (h : Admits P ts) (sep : String) : Refuses P (splitTop ts sep) := by
  cases ts with
  | nil => exact .ok _
  | cons t ts => exact refuses_splitTopFrom h (List.cons_ne_nil t ts) sep 0 (List.Subset.refl _)

/-- A block that ends inside of a group has a first token: the statement that is read starts with
it. -/
theorem refuses_piecesFrom (h : Admits P all) (us : List Token) {here : List Token} {depth : Nat}
    (hts : ts.Sublist here) (hhere : here ⊆ all) (hd : depth = 0 ∨ here ≠ []) :
    Refuses P (piecesFrom us here depth ts) := by
  have ne_nil : ∀ {t : Token} {ts here : List Token}, (t :: ts).Sublist here → here ≠ [] := by
    rintro t ts here hs rfl
    cases hs
  have tail : ∀ {t : Token} {ts here : List Token}, (t :: ts).Sublist here → ts.Sublist here :=
    fun hs => (List.sublist_cons_self _ _).trans hs
  fun_induction piecesFrom us here depth ts with
  | case1 => exact .ok _
  | case2 here depth =>
    exact .error (h.blame hhere (hd.resolve_left (Nat.succ_ne_zero _)) .unbalanced rfl rfl)
  | case4 => exact .error (h.error (hhere (hts.subset List.mem_cons_self)) rfl fun _ => rfl)
  | case5 | case7 =>
    rename_i ih
    exact .map (ih (List.Sublist.refl _) (List.Subset.trans (tail hts).subset hhere) (.inl rfl))
  | case3 | case6 | case8 =>
    rename_i ih
    exact .map (ih (tail hts) hhere (.inr (ne_nil hts)))

theorem refuses_statements (h : Admits P ts) : Refuses P (statements ts) :=
  .map (.map (refuses_piecesFrom h ts (List.Sublist.refl ts) (List.Subset.refl ts) (.inl rfl)))

theorem refuses_identifier (h : Admits P ts) (ht : t ∈ ts) : Refuses P (identifier t) :=
  .ite (.ok _) (.error (h.error ht rfl fun _ => rfl))

theorem refuses_parameterNames (h : Admits P all) (hne : all ≠ []) (known : List String)
    (hpieces : ∀ p ∈ pieces, p ⊆ all) : Refuses P (parameterNames all known pieces) := by
  fun_induction parameterNames all known pieces with
  | case1 => exact .ok _
  | case2 known t pieces ih =>
    have ht : t ∈ all := hpieces [t] List.mem_cons_self List.mem_cons_self
    refine .bind (refuses_identifier h ht) fun name _ =>
      .ite (.error (h.error ht rfl fun _ => rfl)) ?_
    exact ih name fun p hp => hpieces p (List.mem_cons_of_mem _ hp)
  | case3 => exact .error (h.blame (List.Subset.refl _) hne _ rfl rfl)

theorem refuses_parameters (h : Admits P ts) : Refuses P (parameters ts) := by
  cases ts with
  | nil => exact .ok _
  | cons t ts =>
    exact .bind (refuses_splitTop h _) fun pieces hpieces => refuses_parameterNames h
      (List.cons_ne_nil t ts) [] fun p hp => (splitTop_inside hpieces p hp).subset

theorem refuses_atom (h : Admits P ts) (ht : t ∈ ts) : Refuses P (atom t) := by
  unfold atom
  split
  case h_4 => exact .error (h.error ht rfl fun _ => rfl)
  case h_3 =>
    split
    case h_4 => exact .map (refuses_identifier h ht)
    all_goals exact .ok _
  all_goals exact .ok _

theorem refuses_onlyArgument (h : P (blame .notOneArgument ts)) (args : List Node) :
    Refuses P (onlyArgument ts args) := by
  unfold onlyArgument
  split
  · exact .ok _
  · exact .error h

/-- In a proper list only a bracket is spelled like one. -/
theorem opens?_of_isWord (hp : Proper ts) {b : Bracket}
    (h : ts[i]?.any (·.isWord b.opener) = true) :
    ∃ t, ts[i]? = some t ∧ t.opens?.isSome = true := by
  obtain ⟨t, ht, hword⟩ := (Option.any_eq_true _ _).mp h
  refine ⟨t, ht, ?_⟩
  have hw : t.word? = some b.opener := beq_iff_eq.mp hword
  have hname := hp t (List.mem_of_getElem? ht)
  have hbad : Library.isIdentifier b.opener = false := by cases b <;> decide
  have hmark : t.mark? = some b.opener := by
    unfold word? at hw
    unfold mark?
    cases hk : t.kind with
    | name =>
      rw [hk] at hw
      rw [← Option.some.inj hw, hname hk] at hbad
      cases hbad
    | punctuation => rwa [hk] at hw
    | _ => rw [hk] at hw; cases hw
  rw [opens?_eq_some.mpr hmark]
  rfl

theorem refuses_matching_of_isWord (h : Admits P ts) (b : Bracket)
    (hopen : ts[i]?.any (·.isWord b.opener) = true) : Refuses P (matching ts i) := by
  obtain ⟨t, ht, -⟩ := (Option.any_eq_true _ _).mp hopen
  refine refuses_matching h ht fun hp => ?_
  obtain ⟨u, hu, ho⟩ := opens?_of_isWord hp hopen
  rwa [← Option.some.inj (hu.symm.trans ht)]

theorem refuses_headed (h : Admits P ts) (hm : P (malformed ts)) (start : Nat) :
    Refuses P (headed ts start) := by
  have hbad : ∀ {f : PUnit → Except ParseError Headed}, Refuses P (throw (malformed ts) >>= f) :=
    .error hm
  unfold headed
  dsimp only
  split
  · refine .bind (refuses_matching_of_isWord h .round ‹_›) fun close _ => ?_
    split
    · exact .bind (refuses_matching_of_isWord h .curly ‹_›) fun stop _ => .ok _
    · exact hbad
  · exact hbad

theorem refuses_headedOnly (h : Admits P ts) (hm : P (malformed ts)) (start : Nat) :
    Refuses P (headedOnly ts start) :=
  .bind (refuses_headed h hm start) fun _ _ => .ite (.ok _) (.error hm)

theorem refuses_bracedOnly? (h : Admits P ts) : Refuses P (bracedOnly? ts) := by
  unfold bracedOnly?
  split
  · rename_i hcurly
    rw [List.head?_eq_getElem?] at hcurly
    exact .bind (refuses_matching_of_isWord h .curly hcurly) fun stop _ => .ok _
  · exact .ok _

theorem isPlaced_tokensFrom (skip : Nat) (l : Location) (cs : List Char) :
    Refuses (·.isPlaced = true) (tokensFrom skip l cs) := by
  induction cs generalizing skip l with
  | nil => cases skip <;> exact .ok _
  | cons c cs ih =>
    cases skip with
    | succ skip => exact ih skip _
    | zero =>
      rw [tokensFrom]
      split
      · exact .error rfl
      · exact ih _ _
      · exact .map (ih _ _)

theorem Admits.invalid (h : Admits P all) (hne : ts ≠ []) (hts : ts ⊆ all) :
    P (Header.invalid ts) := by
  unfold Header.invalid
  rw [List.getLast?_eq_getLast_of_ne_nil hne]
  exact h.error (hts (List.getLast_mem hne)) rfl fun _ => rfl

/-- What was read of a directive is some of the tokens. -/
def Started (all : List Token) : Header.Stage → Prop
  | .outside => True
  | .wantName read _ | .haveName read _ => read ≠ [] ∧ read ⊆ all

theorem refuses_readFrom (h : Admits P all) (hread : Started all stage) (hts : ts ⊆ all) :
    Refuses P (Header.readFrom imports stage ts) := by
  have snoc : ∀ {read : List Token} {t : Token} {ts : List Token}, read ⊆ all → t :: ts ⊆ all →
      read ++ [t] ≠ [] ∧ read ++ [t] ⊆ all := fun hread hts => ⟨by simp,
    List.append_subset.mpr ⟨hread, List.cons_subset.mpr ⟨hts List.mem_cons_self, List.nil_subset _⟩⟩⟩
  fun_induction Header.readFrom imports stage ts with
  | case1 | case3 => exact .ok _
  | case2 _ _ _ _ ih => exact ih (snoc (List.nil_subset _) hts) (List.subset_of_cons_subset hts)
  | case4 | case7 => exact .error (h.invalid hread.1 hread.2)
  | case5 _ _ _ _ _ _ ih | case8 _ _ _ _ _ _ ih =>
    exact ih (snoc hread.2 hts) (List.subset_of_cons_subset hts)
  | case6 | case10 => exact .error (h.invalid (snoc hread.2 hts).1 (snoc hread.2 hts).2)
  | case9 _ _ _ _ _ _ _ ih => exact ih trivial (List.subset_of_cons_subset hts)

/-- Every error of a text in front of its program is placed. -/
theorem isPlaced_ofSource (source : String) : Refuses (·.isPlaced = true) (Header.ofSource source) :=
  .bind (isPlaced_tokensFrom _ _ _) fun _ hts =>
    refuses_readFrom (admits_isPlaced (proper_tokenize hts)) trivial (List.Subset.refl _)

theorem readFrom_sublist (h : Header.readFrom imports stage ts = .ok header) :
    header.body.Sublist ts := by
  fun_induction Header.readFrom imports stage ts with
  | case1 => cases h; exact List.Sublist.refl _
  | case3 => cases h; exact List.Sublist.refl _
  | case4 | case6 | case7 | case10 => cases h
  | case2 | case5 | case8 | case9 =>
    rename_i ih
    exact (ih h).cons _

theorem proper_ofSource {source : String} (h : Header.ofSource source = .ok header) :
    Proper header.body := by
  obtain ⟨ts, hts, h⟩ := Except.exists_of_bind_eq_ok h
  exact (proper_tokenize hts).sublist (readFrom_sublist h)

/-! ## Names -/

variable {x : String} {names : List String}

theorem isName_identifier (hp : Proper ts) (ht : t ∈ ts) (h : identifier t = .ok x) : IsName x := by
  unfold identifier at h
  split at h
  · rename_i hc
    cases h
    exact ⟨hp t ht hc.1, Bool.eq_false_iff.mpr hc.2⟩
  · cases h

theorem isIdentifier_memberName? (hp : Proper ts) {object : List Token}
    (h : memberName? ts = some (object, x)) : Library.isIdentifier x = true := by
  obtain ⟨point, name, rfl, -, hk, rfl⟩ := memberName?_eq_some h
  exact hp name (by simp) hk

theorem parameterNames_eq_ok {known : List String} (hp : ∀ p ∈ pieces, Proper p)
    (hk : (∀ x ∈ known, IsName x) ∧ known.Nodup) (h : parameterNames all known pieces = .ok names) :
    (∀ x ∈ names, IsName x) ∧ names.Nodup := by
  induction pieces generalizing known with
  | nil =>
    cases h
    exact hk
  | cons piece pieces ih =>
    rcases piece with _ | ⟨t, _ | ⟨u, us⟩⟩
    · cases h
    · rw [parameterNames] at h
      obtain ⟨x, hx, h⟩ := Except.exists_of_bind_eq_ok h
      have hname := isName_identifier (hp [t] List.mem_cons_self) List.mem_cons_self hx
      split at h
      · cases h
      · rename_i hnew
        refine ih (fun p h => hp p (List.mem_cons_of_mem _ h)) ⟨fun y hy => ?_, ?_⟩ h
        · rcases List.mem_append.mp hy with hy | hy
          · exact hk.1 y hy
          · rwa [List.mem_singleton.mp hy]
        · rw [← List.concat_eq_append, List.nodup_concat]
          exact ⟨by simpa using hnew, hk.2⟩
    · cases h

/-- Parameters are different names. -/
theorem parameters_eq_ok (hp : Proper ts) (h : parameters ts = .ok names) :
    (∀ x ∈ names, IsName x) ∧ names.Nodup := by
  have hnone : (∀ x ∈ ([] : List String), IsName x) ∧ ([] : List String).Nodup :=
    ⟨fun x hx => absurd hx List.not_mem_nil, List.nodup_nil⟩
  unfold parameters at h
  split at h
  · cases h
    exact hnone
  · obtain ⟨pieces, hpieces, h⟩ := Except.exists_of_bind_eq_ok h
    refine parameterNames_eq_ok (fun p hmem => ?_) hnone h
    exact hp.sublist (splitTop_inside hpieces p hmem).sublist

end Parser

end BoxScript
