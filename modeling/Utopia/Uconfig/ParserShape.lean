/-
What the parser adds to a namespace.
-/
import Utopia.Uconfig.Parser
import Mathlib.Tactic.Common

namespace Utopia
namespace Uconfig

theorem bind_ok {α β : Type} {x : Parsed α} {f : α → Parsed β} {b : β} :
    (x >>= f) = .ok b ↔ ∃ a, x = .ok a ∧ f a = .ok b := by
  cases x with
  | error e =>
      constructor
      · intro h
        cases h
      · rintro ⟨a, h, _⟩
        cases h
  | ok a =>
      constructor
      · intro h
        exact ⟨a, rfl, h⟩
      · rintro ⟨a', h, hf⟩
        cases h
        exact hf

@[simp]
theorem parserError_ne_ok {α : Type} {text : String} {a : α} : parserError text ≠ .ok a := by
  intro h
  cases h

/-! ### What is left of the tokens -/

theorem expect_ok {token : Token} {text : String} {tokens rest : Tokens}
    (h : expect token text tokens = .ok rest) : tokens = .ok token :: rest := by
  unfold expect at h
  split at h
  · split_ifs at h with hnext
    · cases h
      rw [hnext]
    · exact absurd h parserError_ne_ok
  · exact absurd h parserError_ne_ok

theorem take_ok {α : Type} {variant : Token → Option α} {text : String} {tokens rest : Tokens}
    {value : α} (h : take variant text tokens = .ok (value, rest)) :
    ∃ next, variant next = some value ∧ tokens = .ok next :: rest := by
  unfold take at h
  split at h
  · split at h
    · next hvariant =>
        cases h
        exact ⟨_, hvariant, rfl⟩
    · exact absurd h parserError_ne_ok
  · exact absurd h parserError_ne_ok

theorem take_suffix {α : Type} {variant : Token → Option α} {text : String}
    {tokens rest : Tokens} {value : α} (h : take variant text tokens = .ok (value, rest)) :
    rest <:+ tokens := by
  obtain ⟨next, _, rfl⟩ := take_ok h
  exact List.suffix_cons _ _

theorem parseVariant_ok {variant : Token → Option Text} {text : String} {tokens rest : Tokens}
    {value : Text} (h : parseVariant variant text tokens = .ok (value, rest)) :
    ∃ next, variant next = some value ∧ tokens = .ok .colon :: .ok next :: rest := by
  obtain ⟨tokens', hcolon, htake⟩ := bind_ok.mp h
  obtain ⟨next, hvariant, rfl⟩ := take_ok htake
  exact ⟨next, hvariant, expect_ok hcolon⟩

theorem parseVariant_suffix {variant : Token → Option Text} {text : String}
    {tokens rest : Tokens} {value : Text}
    (h : parseVariant variant text tokens = .ok (value, rest)) : rest <:+ tokens := by
  obtain ⟨next, _, rfl⟩ := parseVariant_ok h
  exact ⟨[_, _], rfl⟩

theorem parseArrayItems_suffix {α : Type} {noun : String} {convert : Token → Option α}
    {tokens rest : Tokens} {items items' : List α} {previousWasItem : Bool}
    (h : parseArrayItems noun convert tokens items previousWasItem = .ok (items', rest)) :
    rest <:+ tokens := by
  induction tokens generalizing items previousWasItem with
  | nil => exact absurd h parserError_ne_ok
  | cons token tokens ih =>
      have hsuffix : ∀ {items : List α} {previousWasItem : Bool},
          parseArrayItems noun convert tokens items previousWasItem = .ok (items', rest) →
          rest <:+ token :: tokens := fun h => (ih h).trans (List.suffix_cons _ _)
      unfold parseArrayItems at h
      split at h
      · cases ‹_ = []›
      · split_ifs at h
        · cases ‹_ :: _ = _›
          exact hsuffix h
        · exact absurd h parserError_ne_ok
      · split_ifs at h
        · exact absurd h parserError_ne_ok
        · cases ‹_ :: _ = _›
          cases h
          exact List.suffix_cons _ _
        · exact absurd h parserError_ne_ok
      · cases ‹_ :: _ = _›
        split at h
        · exact hsuffix h
        · exact absurd h parserError_ne_ok
        · exact absurd h parserError_ne_ok

theorem parseArray_suffix {α : Type} {noun : String} {convert : Token → Option α}
    {tokens rest : Tokens} {items : List α}
    (h : parseArray noun convert tokens = .ok (items, rest)) : rest <:+ tokens := by
  obtain ⟨tokens₁, hcolon, h⟩ := bind_ok.mp h
  obtain ⟨tokens₂, hbrace, h⟩ := bind_ok.mp h
  rw [expect_ok hcolon, expect_ok hbrace]
  exact ((parseArrayItems_suffix h).trans (List.suffix_cons _ _)).trans (List.suffix_cons _ _)

theorem parseArrow_suffix {tokens rest : Tokens} {gotArrow isMenu isMenu' : Bool}
    (h : parseArrow tokens gotArrow isMenu = .ok (isMenu', rest)) : rest <:+ tokens := by
  induction tokens generalizing gotArrow isMenu with
  | nil =>
      cases h
      exact List.suffix_rfl
  | cons token tokens ih =>
      unfold parseArrow at h
      split at h
      · cases ‹_ = []›
      · cases ‹_ :: _ = _›
        cases h
        exact List.suffix_cons _ _
      · cases ‹_ :: _ = _›
        exact (ih h).trans (List.suffix_cons _ _)
      · cases ‹_ :: _ = _›
        split_ifs at h
        · exact (ih h).trans (List.suffix_cons _ _)
        · exact absurd h parserError_ne_ok
      · exact absurd h parserError_ne_ok

/-- The kind that a default must have: a selection is chosen by a string. -/
def Kind.ofDefault : Kind → Kind
  | .selection => .string
  | kind => kind

theorem parseAttributeDefault_ok {option : ConfigOption} {tokens rest : Tokens} {value : Value}
    (h : parseAttributeDefault option tokens = .ok (value, rest)) :
    value.kind = option.current.kind.ofDefault ∧ rest <:+ tokens := by
  obtain ⟨tokens', hcolon, h⟩ := bind_ok.mp h
  have hstep : ∀ {α : Type} {variant : Token → Option α} {text : String} {make : α → Value},
      (do
        let (val, tokens) ← take variant text tokens'
        pure (make val, tokens)) = (.ok (value, rest) : Parsed (Value × Tokens)) →
      (∃ val, value = make val) ∧ rest <:+ tokens := by
    intro α variant text make h
    obtain ⟨⟨val, tokens''⟩, htake, hret⟩ := bind_ok.mp h
    obtain ⟨next, _, rfl⟩ := take_ok htake
    cases hret
    rw [expect_ok hcolon]
    exact ⟨⟨val, rfl⟩, ⟨[_, _], rfl⟩⟩
  cases hcurrent : option.current with
  | null =>
      rw [hcurrent] at h
      exact absurd h parserError_ne_ok
  | bool v =>
      rw [hcurrent] at h
      obtain ⟨⟨val, rfl⟩, hsuffix⟩ := hstep h
      exact ⟨rfl, hsuffix⟩
  | int v =>
      rw [hcurrent] at h
      obtain ⟨⟨val, rfl⟩, hsuffix⟩ := hstep h
      exact ⟨rfl, hsuffix⟩
  | string v =>
      rw [hcurrent] at h
      obtain ⟨⟨val, rfl⟩, hsuffix⟩ := hstep h
      exact ⟨rfl, hsuffix⟩
  | selection v =>
      rw [hcurrent] at h
      obtain ⟨⟨val, rfl⟩, hsuffix⟩ := hstep h
      exact ⟨rfl, hsuffix⟩

/-- Options may stand at the root or within a menu. -/
def Namespace.IsParent (ns : Namespace) (idx : ℕ) : Prop :=
  idx = 0 ∨ ∃ option, ns.vector[idx]? = some option ∧ option.isMenu = true

theorem parseWithin_ok {ns : Namespace} {tokens rest : Tokens} {idx : ℕ}
    (h : parseWithin ns tokens = .ok (idx, rest)) : ns.IsParent idx ∧ rest <:+ tokens := by
  obtain ⟨⟨parent, tokens'⟩, hident, h⟩ := bind_ok.mp h
  dsimp only at h
  split at h
  · exact absurd h parserError_ne_ok
  · split at h
    · cases h
    · split_ifs at h with hmenu
      · cases h
        exact ⟨Or.inr ⟨_, ‹_›, hmenu⟩, parseVariant_suffix hident⟩
      · exact absurd h parserError_ne_ok

/-- The attributes read so far for `option` fit it. -/
structure Attributes.Fits (ns : Namespace) (option : ConfigOption) (a : Attributes) : Prop where
  kept : a.option =
    { option with description := a.option.description, depends := a.option.depends }
  default : ∀ value, a.default = some value → value.kind = option.current.kind.ofDefault
  parent : ns.IsParent a.parentIdx

theorem Attributes.Fits.attribute {ns : Namespace} {option : ConfigOption} {a a' : Attributes}
    (ha : a.Fits ns option) {tokens rest : Tokens} {token : Except LexError Token}
    (h : parseAttribute ns a tokens token = .ok (a', rest)) :
    a'.Fits ns option ∧ rest <:+ tokens := by
  obtain ⟨hoption, hdefault, hparent⟩ := id ha
  have hcurrent : a.option.current = option.current := by rw [hoption]
  unfold parseAttribute at h
  split at h
  · obtain ⟨⟨text, tokens'⟩, htext, hret⟩ := bind_ok.mp h
    cases hret
    exact ⟨⟨by rw [hoption], hdefault, hparent⟩, parseVariant_suffix htext⟩
  · obtain ⟨⟨text, tokens'⟩, htext, hret⟩ := bind_ok.mp h
    cases hret
    exact ⟨⟨by rw [hoption], hdefault, hparent⟩, parseVariant_suffix htext⟩
  · obtain ⟨⟨text, tokens'⟩, htext, hret⟩ := bind_ok.mp h
    cases hret
    exact ⟨⟨hoption, hdefault, hparent⟩, parseVariant_suffix htext⟩
  · obtain ⟨⟨value, tokens'⟩, hvalue, hret⟩ := bind_ok.mp h
    cases hret
    obtain ⟨hkind, hsuffix⟩ := parseAttributeDefault_ok hvalue
    rw [hcurrent] at hkind
    refine ⟨⟨hoption, fun value' hvalue' => ?_, hparent⟩, hsuffix⟩
    cases hvalue'
    exact hkind
  · obtain ⟨⟨idx, tokens'⟩, hidx, hret⟩ := bind_ok.mp h
    cases hret
    obtain ⟨hmenu, hsuffix⟩ := parseWithin_ok hidx
    exact ⟨⟨hoption, hdefault, hmenu⟩, hsuffix⟩
  · split_ifs at h
    · obtain ⟨⟨options, tokens'⟩, harray, hret⟩ := bind_ok.mp h
      cases hret
      exact ⟨⟨hoption, hdefault, hparent⟩, parseArray_suffix harray⟩
    · exact absurd h parserError_ne_ok
  · split_ifs at h
    · obtain ⟨⟨values, tokens'⟩, harray, hret⟩ := bind_ok.mp h
      cases hret
      exact ⟨⟨hoption, hdefault, hparent⟩, parseArray_suffix harray⟩
    · exact absurd h parserError_ne_ok
  · exact absurd h parserError_ne_ok

theorem Attributes.Fits.loop {ns : Namespace} {option : ConfigOption} {rounds : ℕ}
    {a a' : Attributes} {tokens rest : Tokens} (ha : a.Fits ns option)
    (h : parseAttributeLoop ns rounds a tokens = .ok (a', rest)) :
    a'.Fits ns option ∧ rest <:+ tokens := by
  induction rounds generalizing a tokens with
  | zero =>
      unfold parseAttributeLoop at h
      split at h
      · cases h
        exact ⟨ha, List.suffix_rfl⟩
      · cases h
        exact ⟨ha, List.suffix_cons _ _⟩
      · cases h
      · cases ‹0 = _ + 1›
  | succ rounds ih =>
      unfold parseAttributeLoop at h
      split at h
      · cases h
        exact ⟨ha, List.suffix_rfl⟩
      · cases h
        exact ⟨ha, List.suffix_cons _ _⟩
      · cases ‹rounds + 1 = 0›
      · cases ‹rounds + 1 = _›
        obtain ⟨⟨a₁, tokens₁⟩, hattribute, hloop⟩ := bind_ok.mp h
        obtain ⟨ha₁, hsuffix₁⟩ := ha.attribute hattribute
        obtain ⟨ha', hsuffix⟩ := ih ha₁ hloop
        exact ⟨ha', (hsuffix.trans hsuffix₁).trans (List.suffix_cons _ _)⟩

/-! ### Well-typed options -/

/-- The selected index stays inside both lists. -/
structure SelectOption.WellFormed (v : SelectOption) : Prop where
  lengths : v.options.length = v.values.length
  selected : v.selected < v.values.length

def Value.WellFormed : Value → Prop
  | .selection v => v.WellFormed
  | _ => True

/-- The current value has the declared type. -/
structure ConfigOption.Typed (option : ConfigOption) : Prop where
  kind : option.current.kind = option.declared
  wellFormed : option.current.WellFormed

theorem attributeDefault_ok {ns : Namespace} {option : ConfigOption} {a : Attributes}
    {value : Value} (ha : a.Fits ns option) (h : attributeDefault a = .ok value) :
    value.kind = option.current.kind.ofDefault := by
  have hcurrent : a.option.current = option.current := by rw [ha.kept]
  unfold attributeDefault at h
  split at h
  · next hvalue =>
      cases h
      exact ha.default _ hvalue
  · split_ifs at h with hnull
    · exact absurd h parserError_ne_ok
    · cases h
      rw [← hcurrent, not_not.mp hnull]
      rfl

theorem Value.wellFormed_of_kind {value : Value} (h : value.kind ≠ .selection) :
    value.WellFormed := by
  cases value with
  | selection v => exact absurd rfl h
  | _ => trivial

theorem attributeValue_ok {ns : Namespace} {option : ConfigOption} {a : Attributes} {value : Value}
    (ha : a.Fits ns option) (h : attributeValue a = .ok value) :
    value.kind = option.current.kind ∧ value.WellFormed := by
  have hcurrent : a.option.current = option.current := by rw [ha.kept]
  obtain ⟨default, hdefault, h⟩ := bind_ok.mp h
  have hkind := attributeDefault_ok ha hdefault
  rw [hcurrent] at h
  split at h
  · next hselection =>
      split at h
      · exact absurd h parserError_ne_ok
      · exact absurd h parserError_ne_ok
      · split_ifs at h with hlengths
        · exact absurd h parserError_ne_ok
        · split at h
          · split at h
            · next hselected =>
                cases h
                obtain ⟨hlt, _⟩ := List.findIdx?_eq_some_iff_getElem.mp hselected
                rw [not_not] at hlengths
                refine ⟨by rw [hselection]; rfl, hlengths, ?_⟩
                rw [← hlengths]
                exact hlt
            · exact absurd h parserError_ne_ok
          · exact absurd h parserError_ne_ok
  · next hother =>
      cases h
      have hplain : option.current.kind ≠ .selection := by
        cases hcase : option.current with
        | selection v => exact absurd hcase (hother v)
        | _ => exact Kind.noConfusion
      have hsame : option.current.kind.ofDefault = option.current.kind := by
        cases hcase : option.current.kind with
        | selection => exact absurd hcase hplain
        | _ => rfl
      rw [hsame] at hkind
      rw [hkind]
      exact ⟨rfl, Value.wellFormed_of_kind (hkind ▸ hplain)⟩

/-- What `parse_attributes` makes of an option and of the namespace. -/
theorem parseAttributes_ok {ns ns' : Namespace} {option option' : ConfigOption}
    {tokens rest : Tokens} (h : parseAttributes ns option tokens = .ok (option', ns', rest)) :
    rest <:+ tokens ∧
    option' = { option with
      display := option'.display
      description := option'.description
      depends := option'.depends
      current := option'.current } ∧
    option'.current.kind = option.current.kind ∧ option'.current.WellFormed ∧
    ∃ parentIdx, ns.IsParent parentIdx ∧ ns' = ns.addChild parentIdx ns.vector.length := by
  have hstart : Attributes.Fits ns option ⟨option, none, none, none, none, 0⟩ :=
    ⟨rfl, (fun _ hvalue => nomatch hvalue), Or.inl rfl⟩
  obtain ⟨⟨a, tokens'⟩, hloop, h⟩ := bind_ok.mp h
  obtain ⟨ha, hsuffix⟩ := hstart.loop hloop
  dsimp only at h
  split at h
  · exact absurd h parserError_ne_ok
  · next display hdisplay =>
      obtain ⟨value, hvalue, hret⟩ := bind_ok.mp h
      have hshown : Attributes.Fits ns { option with display := display }
          { a with option := { a.option with display := display } } :=
        ⟨by rw [ha.kept], ha.default, ha.parent⟩
      obtain ⟨hkind, hwell⟩ := attributeValue_ok hshown hvalue
      cases hret
      refine ⟨hsuffix, ?_, hkind, hwell, a.parentIdx, ha.parent, rfl⟩
      rw [ha.kept]

/-- What `parse_option` adds: an option with a fresh name under a menu or the root. -/
theorem parseOption_ok {ns ns' : Namespace} {tokens rest : Tokens}
    (h : parseOption ns tokens = .ok (ns', rest)) :
    rest <:+ tokens ∧ ∃ option parentIdx,
      .ok (.identifier option.name) ∈ tokens ∧ ns.hashmap option.name = none ∧
      option.children = [] ∧ option.isEnv = false ∧ option.Typed ∧ ns.IsParent parentIdx ∧
      ns' = (ns.addChild parentIdx ns.vector.length).push option.name option := by
  obtain ⟨⟨ident, tokens₁⟩, hident, h⟩ := bind_ok.mp h
  obtain ⟨next, hnext, htokens⟩ := take_ok hident
  dsimp only at h
  split_ifs at h with hfresh
  · exact absurd h parserError_ne_ok
  · obtain ⟨tokens₂, hopen, h⟩ := bind_ok.mp h
    obtain ⟨⟨blank, tokens₃⟩, hblank, h⟩ := bind_ok.mp h
    obtain ⟨tokens₄, hclose, h⟩ := bind_ok.mp h
    obtain ⟨⟨isMenu, tokens₅⟩, harrow, h⟩ := bind_ok.mp h
    obtain ⟨⟨option, ns₁, tokens₆⟩, hattributes, hret⟩ := bind_ok.mp h
    obtain ⟨type, _, htype⟩ := take_ok hblank
    obtain ⟨hsuffix, hoption, hkind, hwell, parentIdx, hparent, rfl⟩ :=
      parseAttributes_ok hattributes
    dsimp only at hclose hsuffix hoption hkind
    cases hret
    have hrest : tokens₆ <:+ tokens := by
      rw [htokens, expect_ok hopen, htype, expect_ok hclose]
      have hsteps := hsuffix.trans (parseArrow_suffix harrow)
      exact hsteps.trans ⟨[_, _, _, _], rfl⟩
    have hname : option.name = ident := by rw [hoption]
    have hfound : .ok (.identifier ident) ∈ tokens := by
      cases next <;> cases hnext
      rw [htokens]
      exact List.mem_cons_self
    refine ⟨hrest, option, parentIdx, ?_, ?_, by rw [hoption]; rfl, by rw [hoption]; rfl,
      ⟨?_, hwell⟩, hparent, ?_⟩
    · rw [hname]
      exact hfound
    · rw [hname]
      exact Option.not_isSome_iff_eq_none.mp hfresh
    · rw [hkind, hoption]
    · rw [hname]

end Uconfig
end Utopia
