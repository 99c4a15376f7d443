import BoxScript.Parser.Program
import BoxScript.Proofs.Parser.Unfailing

/-!
# Parsed programs are well-formed

Every block of a program is a block of the parser, and the blocks of libraries only lose statements.
`Ensures p x` says that whatever the parser `x` accepts satisfies `p`; `Draws` also minds the numbers
of hidden counters.

Results:
* `wellFormed_parseStatement`: parsed statements are well-formed.
* `wellFormed_parseProgram`: so are parsed programs, with the declarations of imported libraries.
* `tidyBlock_parseProgram`: so parsed programs are tidy.
-/

namespace BoxScript.Parser

/-! ## What a parser accepts -/

section Steps

variable {α β : Type} {x : Parse α} {f : α → Parse β} {k : Nat} {r : β × Nat}

theorem bind_eq_of_eq_ok {a : α} {j : Nat} (h : x k = .ok (a, j)) : (x >>= f) k = f a j := by
  simp [Bind.bind, StateT.bind, Except.bind, h]

/-- What is accepted was accepted in two steps. -/
theorem exists_of_bind_eq_ok (h : (x >>= f) k = .ok r) :
    ∃ a j, x k = .ok (a, j) ∧ f a j = .ok r := by
  cases hx : x k with
  | error e =>
    have hbind : (x >>= f) k = .error e := by simp [Bind.bind, StateT.bind, Except.bind, hx]
    exact nomatch hbind.symm.trans h
  | ok p => exact ⟨p.1, p.2, rfl, (bind_eq_of_eq_ok hx).symm.trans h⟩

theorem lift_bind_eq_of_eq_ok {x : Except ParseError α} {a : α} (h : x = .ok a) :
    (liftM x >>= f) k = f a k := by
  rw [h]
  rfl

theorem exists_of_lift_bind_eq_ok {x : Except ParseError α} (h : (liftM x >>= f) k = .ok r) :
    ∃ a, x = .ok a ∧ f a k = .ok r := by
  cases x with
  | error e => cases h
  | ok a => exact ⟨a, rfl, h⟩

end Steps

/-- Whatever the parser accepts when it starts with the number `k`, and the number that it goes on
with, are as `q` says. -/
def Draws {α : Type} (k : Nat) (x : Parse α) (q : α → Nat → Prop) : Prop :=
  ∀ a k', x k = .ok (a, k') → q a k'

namespace Draws

variable {α β ι : Type} {k : Nat} {p q : α → Nat → Prop} {r : β → Nat → Prop}

protected theorem pure {a : α} (h : q a k) : Draws k (pure a) q := by
  intro b k' hb
  obtain ⟨rfl, rfl⟩ := Prod.mk.inj (Except.ok.inj hb)
  exact h

protected theorem throw (e : ParseError) : Draws k (throw e) q :=
  fun _ _ h => nomatch h

protected theorem bind {x : Parse α} {f : α → Parse β} (hx : Draws k x q)
    (hf : ∀ a j, q a j → Draws j (f a) r) : Draws k (x >>= f) r := by
  intro b k' hb
  obtain ⟨a, j, ha, hb⟩ := exists_of_bind_eq_ok hb
  exact hf a j (hx a j ha) b k' hb

theorem lift_bind {x : Except ParseError α} {f : α → Parse β}
    (h : ∀ a, x = .ok a → Draws k (f a) r) : Draws k (liftM x >>= f) r := by
  intro b k' hb
  obtain ⟨a, ha, hb⟩ := exists_of_lift_bind_eq_ok hb
  exact h a ha b k' hb

theorem lift {x : Except ParseError α} (h : ∀ a, x = .ok a → q a k) : Draws k (liftM x) q := by
  cases x with
  | error e => exact fun _ _ ha => nomatch ha
  | ok a => exact .pure (h a rfl)

theorem throw_bind (e : ParseError) (f : α → Parse β) : Draws k (throw e >>= f) r :=
  fun _ _ h => nomatch h

theorem ite {c : Prop} [Decidable c] {x y : Parse α} (hx : Draws k x q) (hy : Draws k y q) :
    Draws k (if c then x else y) q := by
  split
  · exact hx
  · exact hy

theorem and {x : Parse α} (hp : Draws k x p) (hq : Draws k x q) :
    Draws k x fun a k' => p a k' ∧ q a k' :=
  fun a k' ha => ⟨hp a k' ha, hq a k' ha⟩

theorem mapError {x : Parse α} (h : Draws k x q) (f : ParseError → ParseError) :
    Draws k (fun n => (x n).mapError f) q := by
  intro a k' ha
  dsimp only at ha
  cases hx : x k with
  | error e => rw [hx] at ha; cases ha
  | ok b => rw [hx] at ha; exact h a k' (hx.trans ha)

theorem run' {x : Parse α} (h : Draws k x q) {a : α} (ha : x.run' k = .ok a) : ∃ k', q a k' := by
  obtain ⟨⟨b, k'⟩, hb, rfl⟩ := Except.exists_of_map_eq_ok (x := x k) ha
  exact ⟨k', h b k' hb⟩

theorem foldlM {f : α → ι → Parse α} {items : List ι}
    (h : ∀ a j, ∀ i ∈ items, q a j → Draws j (f a i) q) {a : α} (ha : q a k) :
    Draws k (items.foldlM f a) q := by
  induction items generalizing a k with
  | nil => exact .pure ha
  | cons i items ih =>
    rw [List.foldlM_cons]
    refine .bind (h a k i List.mem_cons_self ha) fun b j hb => ih (fun a j i hi => ?_) hb
    exact h a j i (List.mem_cons_of_mem _ hi)

end Draws

/-- Whatever the parser accepts satisfies `p`. -/
def Ensures {α : Type} (p : α → Prop) (x : Parse α) : Prop :=
  ∀ k a k', x k = .ok (a, k') → p a

namespace Ensures

variable {α β : Type} {p : α → Prop} {q : β → Prop}

theorem pure {a : α} (h : p a) : Ensures p (Pure.pure a) :=
  fun _ => Draws.pure h

theorem bind {x : Parse α} {f : α → Parse β} (hx : Ensures p x) (hf : ∀ a, p a → Ensures q (f a)) :
    Ensures q (x >>= f) :=
  fun k => Draws.bind (hx k) fun a j ha => hf a ha j

/-- What stands in front need not be looked at. -/
theorem after {x : Parse α} {f : α → Parse β} (hf : ∀ a, Ensures q (f a)) :
    Ensures q (x >>= f) :=
  .bind (p := fun _ => True) (fun _ _ _ _ => trivial) fun a _ => hf a

theorem ite {c : Prop} [Decidable c] {x y : Parse α} (hx : Ensures p x) (hy : Ensures p y) :
    Ensures p (if c then x else y) :=
  fun k => Draws.ite (hx k) (hy k)

theorem foldlM {f : α → β → Parse α} {items : List β} (h : ∀ a b, p a → Ensures p (f a b)) {a : α}
    (ha : p a) : Ensures p (items.foldlM f a) :=
  fun _ => Draws.foldlM (fun a j b _ ha => h a b ha j) ha

/-- A change of the error does not change what is accepted. -/
theorem mapError {x : Parse α} {f : ParseError → ParseError} (hx : Ensures p x) :
    Ensures p fun k => (x k).mapError f :=
  fun k => Draws.mapError (hx k) f

theorem run' {x : Parse α} (hx : Ensures p x) {k : Nat} {a : α} (ha : x.run' k = .ok a) : p a := by
  obtain ⟨_, h⟩ := Draws.run' (hx k) ha
  exact h

/-- A result that is there already. -/
theorem lift {x : Except ParseError α} (h : ∀ a, x = .ok a → p a) :
    Ensures p (liftM x : Parse α) :=
  fun _ => Draws.lift h

end Ensures

/-! ## Programs -/

variable {ts : List Token} {source : String} {ss : List Statement} {loader : Option Loader}
  {α : Type}

theorem ensures_parseBlock (hp : Token.Proper ts) : Ensures WellFormedBlock (parseBlock ts) :=
  fun _ _ _ => wellFormed_parseBlock hp

theorem ensures_statement (hp : Token.Proper ts) :
    Ensures (fun s => WellFormed .statement s.node) ((parsers (ts.length + 1)).statement ts) := by
  intro k s k' h
  have hk := (tracks_depths True (Nat.le_refl _) (Nat.le_refl _)).statement ts hp
    (Nat.lt_succ_self _) k k fun _ => rfl
  rw [h] at hk
  cases hk with
  | ok hab _ => exact hab.right

/-- **Parsed statements are well-formed.** -/
theorem wellFormed_parseStatement {s : Statement} (h : parseStatement source = .ok s) :
    WellFormed .statement s.node := by
  obtain ⟨ts, hts, h⟩ := Except.exists_of_bind_eq_ok h
  exact Ensures.run' (ensures_statement (Token.proper_tokenize hts)) h

theorem ensures_ofSource (source : String) :
    Ensures (Token.Proper ·.body) (liftM (Header.ofSource source) : Parse Header) :=
  .lift fun _ => proper_ofSource

/-- The declarations are well-formed. -/
def Declarations.WellFormed (d : Declarations) : Prop :=
  WellFormedBlock d.classes ∧ WellFormedBlock d.functions

theorem Declarations.WellFormed.append {d e : Declarations} (hd : d.WellFormed)
    (he : e.WellFormed) : (d.append e).WellFormed :=
  ⟨WellFormedBlock.append hd.1 he.1, WellFormedBlock.append hd.2 he.2⟩

theorem wellFormed_ofBlock (h : WellFormedBlock ss) : (Declarations.ofBlock ss).WellFormed :=
  ⟨fun s hs => h s (List.mem_filter.mp hs).1, fun s hs => h s (List.mem_filter.mp hs).1⟩

theorem wellFormed_noDeclarations : ({} : Declarations).WellFormed :=
  ⟨fun _ hs => absurd hs List.not_mem_nil, fun _ hs => absurd hs List.not_mem_nil⟩

theorem ensures_libraryDeclarations {imported : List String → Parse (Declarations × List String)}
    (h : ∀ names, Ensures (·.1.WellFormed) (imported names)) (library : Library) :
    Ensures (·.1.WellFormed) (libraryDeclarations imported library) := by
  refine .mapError (.bind (ensures_ofSource _) fun header hheader => ?_)
  refine .bind (h _) fun before hbefore => .bind (ensures_parseBlock hheader) fun body hbody => ?_
  exact .pure (hbefore.append (wellFormed_ofBlock hbody))

theorem ensures_declarations (loader : Option Loader) (depth : Nat) (names seen : List String) :
    Ensures (·.1.WellFormed) (declarations loader depth names seen) := by
  induction depth generalizing names seen with
  | zero => exact .pure wellFormed_noDeclarations
  | succ depth ih =>
    refine .foldlM (p := fun d : Declarations × List String => d.1.WellFormed)
      (fun d name hd => ?_) wellFormed_noDeclarations
    refine .ite (.pure hd) (.after fun library => ?_)
    refine .bind (ensures_libraryDeclarations (fun names => ih names _) library) fun more hmore => ?_
    exact .pure (hd.append hmore)

/-- **Parsed programs are well-formed**, with the declarations of imported libraries. -/
theorem wellFormed_parseProgram (h : parseProgram loader source = .ok ss) : WellFormedBlock ss := by
  obtain ⟨header, hheader, h⟩ := Except.exists_of_bind_eq_ok h
  have hproper := proper_ofSource hheader
  refine Ensures.run' (.bind (ensures_parseBlock hproper) fun program hprogram => ?_) h
  refine .ite (.pure hprogram) (.bind (ensures_declarations loader _ _ _) fun found hfound => ?_)
  refine .pure ((hfound.1.append hfound.2).append fun s hs => ?_)
  exact List.mem_singleton.mp hs ▸ .ofValue (.block hprogram)

theorem tidyBlock_parseProgram (h : parseProgram loader source = .ok ss) : TidyBlock ss :=
  (wellFormed_parseProgram h).tidy

/-- What passes a test was accepted. -/
theorem exists_of_any {x : Except ParseError α} (p : α → Bool) (h : x.toOption.any p = true) :
    ∃ a, x = .ok a ∧ p a = true := by
  cases x with
  | error e => exact nomatch h
  | ok a => exact ⟨a, rfl, h⟩

theorem exists_of_refused (x : Except ParseError α) (test : ParseError → Bool)
    (h : (match x with | .error e => test e | .ok _ => false) = true) :
    ∃ e, x = .error e ∧ test e = true := by
  cases x with
  | error e => exact ⟨e, rfl, h⟩
  | ok a => exact absurd h Bool.false_ne_true

/-- A program text that passes a test is parsed to a program that passes it. -/
theorem exists_parseProgram (source : String) (p : List Statement → Bool)
    (h : (match parseProgram none source with
      | .ok ss => p ss
      | .error _ => false) = true) :
    ∃ ss, parseProgram none source = .ok ss ∧ p ss = true := by
  cases hparse : parseProgram none source with
  | error e => rw [hparse] at h; exact nomatch h
  | ok ss => rw [hparse] at h; exact ⟨ss, rfl, h⟩

end BoxScript.Parser
