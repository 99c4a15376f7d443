import BoxScript.Proofs.Store.Behind
import Mathlib.Logic.Relation

/-!
# What arrays and objects are shown as

`containerText` is told how many levels it may go down. `Renders` says what it is meant to write, with no
such bound: the containers that are being written are on a path, a container on the path is cut short, and
any other one is written in full. So a derivation of `Renders` is a run of this recursion to its end.

Every level puts a container of the store on the path that was not there before; this is why a finite
number of levels is enough. A container leads to everything that is written inside it, so one that
is met again while it is on the path leads to itself. A container that is only shared is never cut short.

Results:
* `Renders.unique`: there is only one text;
* **`renders_text`**: the levels that the store allows are enough for it;
* **`text_renders`**: each value has its text, in which the dots stand for containers that are inside
  themselves, and handles to the same container have the same text.
-/

namespace BoxScript

/-- What the value shares with its copies, if it is an array or an object. -/
def Value.container? : Value → Option Container
  | .array r => some (.slots r)
  | .object o => some (.fields o.vars)
  | _ => none

/-- What is written in front of the parts of the value: the name of the class, for an object. -/
def Value.label : Value → String
  | .object o => o.className
  | _ => ""

namespace Store

/-- What stands in a container, each with what is written in front of it. An unset slot is void. -/
def parts (s : Store) : Container → List (String × Value)
  | .slots r => (s.slotsOf r).toList.map fun b => ("", (b.map s.read).getD .void)
  | .fields r => (s.varsOf r).entries.map fun e => (e.1 ++ "=", s.read e.2)

/-- The second container stands in the first one. -/
def Contains (s : Store) (c d : Container) : Prop :=
  ∃ p ∈ s.parts c, p.2.container? = some d

/-- No pending `return` stands in the container of the value or in one inside it. -/
def NoReturns (s : Store) (v : Value) : Prop :=
  ∀ c, v.container? = some c → ∀ d, Relation.ReflTransGen s.Contains c d →
    ∀ p ∈ s.parts d, p.2.variant ≠ .ret

/-- The container is inside itself. -/
def Cyclic (s : Store) (c : Container) : Prop :=
  Relation.TransGen s.Contains c c

mutual

/-- Inside of the containers of a path, a value is shown as a text. A container is cut short where `Cut`
says so, and nowhere else. -/
inductive Renders (s : Store) (Cut : List Container → Container → Prop) :
    List Container → Value → String → Prop
  | plain {path : List Container} {v : Value} : v.container? = none → v.variant ≠ .ret →
    Renders s Cut path v (v.text fun _ => "")
  | cut {path : List Container} {v : Value} {c : Container} : v.container? = some c → Cut path c →
    Renders s Cut path v "..."
  | full {path : List Container} {v : Value} {c : Container} {texts : List String} :
    v.container? = some c → ¬ Cut path c → RendersParts s Cut (c :: path) (s.parts c) texts →
    Renders s Cut path v (v.label ++ "(" ++ ", ".intercalate texts ++ ")")

/-- The parts of a container are shown as texts. -/
inductive RendersParts (s : Store) (Cut : List Container → Container → Prop) :
    List Container → List (String × Value) → List String → Prop
  | nil {path : List Container} : RendersParts s Cut path [] []
  | cons {path : List Container} {label text : String} {v : Value} {parts : List (String × Value)}
      {texts : List String} : Renders s Cut path v text → RendersParts s Cut path parts texts →
    RendersParts s Cut path ((label, v) :: parts) ((label ++ text) :: texts)

end

variable {s : Store} {Cut : List Container → Container → Prop} {path : List Container} {v : Value}

/-! ## Uniqueness -/

mutual

/-- **There is only one text.** -/
theorem Renders.unique : ∀ {path : List Container} {v : Value} {text text' : String},
    Renders s Cut path v text → Renders s Cut path v text' → text = text'
  | _, _, _, _, .plain _ _, .plain _ _ => rfl
  | _, _, _, _, .plain hnone _, .cut hsome _ => nomatch hnone.symm.trans hsome
  | _, _, _, _, .plain hnone _, .full hsome _ _ => nomatch hnone.symm.trans hsome
  | _, _, _, _, .cut hsome _, .plain hnone _ => nomatch hnone.symm.trans hsome
  | _, _, _, _, .cut _ _, .cut _ _ => rfl
  | _, _, _, _, .cut hc hcut, .full hc' hnot _ => by
    obtain rfl := Option.some.inj (hc.symm.trans hc')
    exact absurd hcut hnot
  | _, _, _, _, .full hsome _ _, .plain hnone _ => nomatch hnone.symm.trans hsome
  | _, _, _, _, .full hc hnot _, .cut hc' hcut => by
    obtain rfl := Option.some.inj (hc.symm.trans hc')
    exact absurd hcut hnot
  | _, _, _, _, .full hc _ hparts, .full hc' _ hparts' => by
    obtain rfl := Option.some.inj (hc.symm.trans hc')
    rw [RendersParts.unique hparts hparts']

theorem RendersParts.unique :
    ∀ {path : List Container} {parts : List (String × Value)} {texts texts' : List String},
    RendersParts s Cut path parts texts → RendersParts s Cut path parts texts' → texts = texts'
  | _, _, _, _, .nil, .nil => rfl
  | _, _, _, _, .cons hv hparts, .cons hv' hparts' => by
    rw [Renders.unique hv hv', RendersParts.unique hparts hparts']

end

/-! ## The bound on the levels -/

variable {c : Container} {p : String × Value}

/-- One level of a text, for arrays and objects alike. -/
theorem containerText_container (hc : v.container? = some c) (depth : Nat) :
    s.containerText (depth + 1) path v = if c ∈ path then "..." else
      v.label ++ "(" ++ ", ".intercalate ((s.parts c).map fun p =>
        p.1 ++ p.2.text (s.containerText depth (c :: path))) ++ ")" := by
  cases v with
  | array r =>
    obtain rfl := Option.some.inj hc
    simp only [containerText, List.contains_iff_mem, parts, List.map_map]
    split
    · rfl
    · congr 4
      funext b
      cases b with
      | none => rfl
      | some b => exact String.empty_append.symm
  | object o =>
    obtain rfl := Option.some.inj hc
    simp only [containerText, List.contains_iff_mem, parts, List.map_map]
    rfl
  | _ => cases hc

/-- Each container of the path leads to the value. -/
def Leads (s : Store) (path : List Container) (v : Value) : Prop :=
  ∀ c ∈ path, ∀ d, v.container? = some d → Relation.TransGen s.Contains c d

theorem Leads.part (h : s.Leads path v) (hc : v.container? = some c) (hp : p ∈ s.parts c) :
    s.Leads (c :: path) p.2 := by
  intro d hd e he
  have hlast : s.Contains c e := ⟨p, hp, he⟩
  rcases List.mem_cons.mp hd with rfl | hd
  · exact .single hlast
  · exact (h d hd c hc).tail hlast

theorem NoReturns.part (h : s.NoReturns v) (hc : v.container? = some c) (hp : p ∈ s.parts c) :
    s.NoReturns p.2 :=
  fun _ hd _ hlead => h c hc _ (.head ⟨p, hp, hd⟩ hlead)

/-- A container that is on the path to itself is inside itself. -/
theorem Leads.cyclic (h : s.Leads path v) (hc : v.container? = some c) (hmem : c ∈ path) :
    s.Cyclic c :=
  h c hmem c hc

/-- A handle that is not in the store has no parts, so a part stands in a container of the store. -/
theorem mem_containers (hp : p ∈ s.parts c) : c ∈ s.containers := by
  cases c with
  | slots r =>
    refine Finset.mem_union_left _ (Finset.mem_image.mpr ⟨r.id, Finset.mem_range.mpr ?_, rfl⟩)
    refine Nat.lt_of_not_le fun hr => ?_
    have hnone : s.slotsOf r = #[] := by
      rw [slotsOf, Array.getD_eq_getD_getElem?, Array.getElem?_eq_none hr]
      rfl
    rw [parts, hnone] at hp
    exact absurd hp List.not_mem_nil
  | fields r =>
    refine Finset.mem_union_right _ (Finset.mem_image.mpr ⟨r.id, Finset.mem_range.mpr ?_, rfl⟩)
    refine Nat.lt_of_not_le fun hr => ?_
    have hnone : s.varsOf r = {} := by
      rw [varsOf, Array.getD_eq_getD_getElem?, Array.getElem?_eq_none hr]
      rfl
    rw [parts, hnone] at hp
    exact absurd hp List.not_mem_nil

theorem rendersParts_of_forall {parts : List (String × Value)} {shown : Value → String}
    (h : ∀ p ∈ parts, Renders s Cut path p.2 (p.2.text shown)) :
    RendersParts s Cut path parts (parts.map fun p => p.1 ++ p.2.text shown) := by
  induction parts with
  | nil => exact .nil
  | cons p parts ih =>
    obtain ⟨hp, hparts⟩ := List.forall_mem_cons.mp h
    exact .cons hp (ih hparts)

/-- **The levels are enough** if there are more than containers that are not on the path. Along paths
that lead to the value, `Cut` has to say that containers on the path are cut short. -/
theorem renders_containerText
    (hcut : ∀ path v c, s.Leads path v → v.container? = some c → (Cut path c ↔ c ∈ path))
    {depth : Nat} (hdepth : (s.others path).card < depth) (hpath : s.Leads path v)
    (hs : s.NoReturns v) (hv : v.variant ≠ .ret) :
    Renders s Cut path v (v.text (s.containerText depth path)) := by
  induction depth generalizing path v with
  | zero => exact absurd hdepth (Nat.not_lt_zero _)
  | succ depth ih =>
    cases hc : v.container? with
    | none =>
      have htext : v.text (s.containerText (depth + 1) path) = v.text fun _ => "" := by
        cases v with
        | array r => exact nomatch hc
        | object o => exact nomatch hc
        | ret e => exact absurd rfl hv
        | _ => rfl
      rw [htext]
      exact .plain hc hv
    | some c =>
      have htext : v.text (s.containerText (depth + 1) path) = s.containerText (depth + 1) path v := by
        cases v with
        | array r => rfl
        | object o => rfl
        | _ => exact nomatch hc
      rw [htext, containerText_container hc]
      split
      · rename_i hmem
        exact .cut hc ((hcut path v c hpath hc).mpr hmem)
      · rename_i hmem
        refine .full hc (fun h => hmem ((hcut path v c hpath hc).mp h)) ?_
        refine rendersParts_of_forall fun p hp => ?_
        have hcard := s.card_others_cons (mem_containers hp) hmem
        exact ih (by omega) (hpath.part hc hp) (hs.part hc hp) (hs c hc c .refl p hp)

theorem renders_text
    (hcut : ∀ path v c, s.Leads path v → v.container? = some c → (Cut path c ↔ c ∈ path))
    (hs : s.NoReturns v) (hv : v.variant ≠ .ret) : Renders s Cut [] v (s.text v) := by
  have hcard := s.card_others_nil
  exact renders_containerText hcut (by omega) (fun c hc => absurd hc List.not_mem_nil) hs hv

/-! ## Texts -/

/-- How a value is shown depends on its container and its label alone. -/
theorem text_eq_of_container? {w : Value} (hsome : v.container?.isSome = true)
    (hc : v.container? = w.container?) (hlabel : v.label = w.label) : s.text v = s.text w := by
  obtain ⟨c, hv⟩ := Option.isSome_iff_exists.mp hsome
  have hshown : ∀ {u : Value}, u.container? = some c → s.text u = s.shown u := by
    intro u hu
    cases u with
    | array r => rfl
    | object o => rfl
    | _ => exact nomatch hu
  have hw := hc.symm.trans hv
  rw [hshown hv, hshown hw, shown, containerText_container hv, containerText_container hw, hlabel]

/-- A pending `return` is shown as its tree, with the containers in it each shown from the start. -/
theorem text_ret (s : Store) (e : Node) : s.text (.ret e) = "return " ++ e.source s.text := by
  have hsame : ∀ v : Value, v.variant ≠ .ret → v.source s.shown = v.source s.text := by
    intro v hv
    cases v with
    | ret e => exact absurd rfl hv
    | _ => rfl
  have htree := e.source_mapValues (f := id) (g := id) hsame
  rw [Node.mapValues_id] at htree
  exact congrArg ("return " ++ ·) htree

/-- **Showing a value ends, and the dots stand for what is inside itself.** If no pending `return` stands
in a container inside the value, there is exactly one text that writes a container as dots where it is
being written already and in full elsewhere, and this is the text of the value. The dots stand for
containers that are inside themselves only, so one that is merely shared is written in full each time. A
pending `return` is written as its tree. Handles to the same slots, or to the same fields with the same
name of the class, have the same text. -/
theorem text_renders (s : Store) (v : Value) (hs : s.NoReturns v) :
    (v.variant ≠ .ret → ∀ text, Renders s (fun path c => c ∈ path) [] v text ↔ text = s.text v) ∧
    (v.variant ≠ .ret → Renders s (fun path c => c ∈ path ∧ s.Cyclic c) [] v (s.text v)) ∧
    (∀ e, v = .ret e → s.text v = "return " ++ e.source s.text) ∧
    ∀ w, v.container?.isSome = true → v.container? = w.container? → v.label = w.label →
      s.text v = s.text w := by
  refine ⟨fun hv text => ?_, fun hv => ?_, fun e hv => hv ▸ s.text_ret e,
    fun w => text_eq_of_container?⟩
  · have htext : Renders s (fun path c => c ∈ path) [] v (s.text v) :=
      renders_text (fun _ _ _ _ _ => Iff.rfl) hs hv
    exact ⟨fun h => h.unique htext, fun h => h ▸ htext⟩
  · refine renders_text (fun path v c hpath hc => ?_) hs hv
    exact ⟨fun h => h.1, fun hmem => ⟨hmem, hpath.cyclic hc hmem⟩⟩

theorem noReturns_of_boxes (h : ∀ u ∈ s.boxes.toList, u.variant ≠ .ret) (v : Value) :
    s.NoReturns v := by
  have hread : ∀ b, (s.read b).variant ≠ .ret := by
    intro b
    rw [read, Array.getD_eq_getD_getElem?]
    cases hb : s.boxes[b.id]? with
    | none => exact Variant.noConfusion
    | some u => exact h u (Array.mem_toList_iff.mpr (Array.mem_of_getElem? hb))
  intro _ _ c _ p hp
  cases c with
  | slots r =>
    obtain ⟨b, -, rfl⟩ := List.mem_map.mp hp
    cases b with
    | none => exact Variant.noConfusion
    | some b => exact hread b
  | fields r =>
    obtain ⟨e, -, rfl⟩ := List.mem_map.mp hp
    exact hread e.2

/-- An array with itself and an array that is there twice. -/
def knot : Store :=
  { boxes := #[.array ⟨0⟩, .array ⟨1⟩, .string "x"]
    slots := #[#[some ⟨0⟩, some ⟨1⟩, none, some ⟨1⟩], #[some ⟨2⟩]] }

/-- The array itself is shown as dots, and the other one is shown twice. -/
theorem text_renders_knot :
    knot.NoReturns (.array ⟨0⟩) ∧ knot.text (.array ⟨0⟩) = "(..., (x), void, (x))" ∧
      Renders knot (fun path c => c ∈ path ∧ knot.Cyclic c) [] (.array ⟨0⟩) "(..., (x), void, (x))" := by
  have hs := noReturns_of_boxes (s := knot) (by decide) (.array ⟨0⟩)
  have htext : knot.text (.array ⟨0⟩) = "(..., (x), void, (x))" := by decide +kernel
  exact ⟨hs, htext, htext ▸ (text_renders knot _ hs).2.1 Variant.noConfusion⟩

end Store

end BoxScript
