/-
The grammar of Uconfig files, and which token sequences the parser accepts.
-/
import Utopia.Uconfig.Visible

namespace Utopia
namespace Uconfig

/-! ### The grammar -/

namespace Grammar

/-- Elements with commas between them. -/
inductive Elements (elem : Token → Prop) : List Token → Prop
  | last {t} : elem t → Elements elem [t]
  | comma {t ts} : elem t → Elements elem ts → Elements elem (t :: .comma :: ts)

/-- A list in braces. -/
inductive Braces (elem : Token → Prop) : List Token → Prop
  | braces {ts} : Elements elem ts → Braces elem (.braceOpen :: ts ++ [.braceClose])

def IsString (t : Token) : Prop := t.asString.isSome

def IsValue (t : Token) : Prop := t.asBasicValue.isSome

inductive Attribute : List Token → Prop
  | description (s) : Attribute [.description, .colon, .string s]
  | depends (s) : Attribute [.depends, .colon, .expression s]
  | display (s) : Attribute [.display, .colon, .string s]
  | default {t} : IsValue t → Attribute [.default, .colon, t]
  | within (s) : Attribute [.within, .colon, .identifier s]
  | options {ts} : Braces IsString ts → Attribute (.options :: .colon :: ts)
  | values {ts} : Braces IsValue ts → Attribute (.values :: .colon :: ts)

/-- An option up to its opening brace, with `Menu` for what may stand before the brace. -/
inductive Head (Menu : List Token → Prop) : List Token → Prop
  | opt (name) {type ts} : (blankValue type).isSome → Menu ts →
      Head Menu ([.opt, .identifier name, .parenOpen, type, .parenClose] ++ ts ++ [.braceOpen])

inductive Item (Menu : List Token → Prop) : List Token → Prop
  | proj (s) : Item Menu [.proj, .string s]
  | importFile (s) : Item Menu [.importFile, .string s]
  | env (s) : Item Menu [.env, .identifier s]
  | option {head} {attributes : List (List Token)} : Head Menu head → (∀ a ∈ attributes, Attribute a) →
      Item Menu (head ++ attributes.flatten ++ [.braceClose])

/-- `[-> menu]`. -/
def MenuArrow (ts : List Token) : Prop := ts = [] ∨ ts = [.arrow, .menu]

/-- A file of the grammar. -/
def File (ts : List Token) : Prop :=
  ∃ items : List (List Token), (∀ i ∈ items, Item MenuArrow i) ∧ ts = items.flatten

/-! ### What the parser takes for a file -/

/-- Arrows and `menu`s in any number, an arrow first. -/
def Arrows (ts : List Token) : Prop :=
  (∀ t ∈ ts, t = .arrow ∨ t = .menu) ∧ ts.head? ≠ some .menu

/-- An option that the end of the file ends. -/
inductive Unclosed : List Token → Prop
  | option {head} {attributes : List (List Token)} : Head Arrows head → (∀ a ∈ attributes, Attribute a) →
      Unclosed (head ++ attributes.flatten)

inductive Loose : List Token → Prop
  | done : Loose []
  | unclosed {ts} : Unclosed ts → Loose ts
  | item {i ts} : Item Arrows i → Loose ts → Loose (i ++ ts)

/-- An arrow stands before `menu` only, and `menu` before a brace only. -/
def Adjacent (t next : Token) : Prop :=
  (t = .arrow → next = .menu) ∧ (t = .menu → next = .braceOpen)

instance : DecidableRel Adjacent := fun _ _ => inferInstanceAs (Decidable (_ ∧ _))

/-- No arrow or `menu` is out of place, and every brace is closed. -/
structure Tidy (ts : List Token) : Prop where
  adjacent : ts.IsChain Adjacent
  closed : ts.count .braceOpen = ts.count .braceClose

end Grammar

open Grammar

/-! ### The parser -/

/-- The good tokens of a list. -/
abbrev good (ts : List Token) : Tokens := ts.map .ok

variable {tokens rest : Tokens}

theorem parseArrayItems_reads {α : Type} {noun : String} {convert : Token → Option α}
    {items items' : List α} {previousWasItem : Bool}
    (h : parseArrayItems noun convert tokens items previousWasItem = .ok (items', rest)) :
    ∃ ts, tokens = good ts ++ .ok .braceClose :: rest ∧
      (previousWasItem = false → Elements (fun t => (convert t).isSome) ts) ∧
      (previousWasItem = true → ts = [] ∨
        ∃ ts', ts = .comma :: ts' ∧ Elements (fun t => (convert t).isSome) ts') := by
  induction tokens generalizing items previousWasItem with
  | nil => exact absurd h parserError_ne_ok
  | cons token tokens ih =>
      unfold parseArrayItems at h
      split at h
      · cases ‹_ = []›
      · cases ‹_ :: _ = _›
        split_ifs at h with hprevious
        · obtain ⟨ts, rfl, helements, -⟩ := ih h
          exact ⟨.comma :: ts, rfl, by simp [hprevious], fun _ => Or.inr ⟨ts, rfl, helements rfl⟩⟩
        · exact absurd h parserError_ne_ok
      · cases ‹_ :: _ = _›
        split_ifs at h with hempty hprevious
        · exact absurd h parserError_ne_ok
        · cases h
          exact ⟨[], rfl, by simp [hprevious], fun _ => Or.inl rfl⟩
        · exact absurd h parserError_ne_ok
      · cases ‹_ :: _ = _›
        split at h
        · next item hitem =>
            obtain ⟨ts, rfl, -, hrest⟩ := ih h
            cases token with
            | error _ => cases hitem
            | ok t =>
                have ht : (convert t).isSome := by
                  rw [show convert t = some item from hitem]
                  rfl
                refine ⟨t :: ts, rfl, fun _ => ?_, fun hprevious => by cases hprevious⟩
                rcases hrest rfl with rfl | ⟨ts', rfl, helements⟩
                · exact .last ht
                · exact .comma ht helements
        · exact absurd h parserError_ne_ok
        · exact absurd h parserError_ne_ok

theorem parseArray_reads {α : Type} {noun : String} {convert : Token → Option α} {items : List α}
    (h : parseArray noun convert tokens = .ok (items, rest)) :
    ∃ ts, Braces (fun t => (convert t).isSome) ts ∧ tokens = .ok .colon :: good ts ++ rest := by
  obtain ⟨tokens₁, hcolon, h⟩ := bind_ok.mp h
  obtain ⟨tokens₂, hbrace, h⟩ := bind_ok.mp h
  obtain ⟨ts, hread, helements, -⟩ := parseArrayItems_reads h
  refine ⟨_, .braces (helements rfl), ?_⟩
  rw [expect_ok hcolon, expect_ok hbrace, hread]
  simp [good]

theorem parseAttributeDefault_reads {option : ConfigOption} {value : Value}
    (h : parseAttributeDefault option tokens = .ok (value, rest)) :
    ∃ t, IsValue t ∧ tokens = .ok .colon :: .ok t :: rest := by
  obtain ⟨tokens', hcolon, h⟩ := bind_ok.mp h
  have hstep : ∀ {α : Type} {variant : Token → Option α} {text : String} {make : α → Value},
      (∀ t, (variant t).isSome → IsValue t) →
      (do
        let (val, tokens) ← take variant text tokens'
        pure (make val, tokens)) = (.ok (value, rest) : Parsed (Value × Tokens)) →
      ∃ t, IsValue t ∧ tokens = .ok .colon :: .ok t :: rest := by
    intro α variant text make hvariant h
    obtain ⟨⟨val, tokens''⟩, htake, hret⟩ := bind_ok.mp h
    obtain ⟨next, hnext, rfl⟩ := take_ok htake
    cases hret
    exact ⟨next, hvariant next (by rw [hnext]; rfl), expect_ok hcolon⟩
  cases hcurrent : option.current with
  | null =>
      rw [hcurrent] at h
      exact absurd h parserError_ne_ok
  | bool v =>
      rw [hcurrent] at h
      exact hstep (fun t ht => by cases t <;> first | rfl | cases ht) h
  | int v =>
      rw [hcurrent] at h
      exact hstep (fun t ht => by cases t <;> first | rfl | cases ht) h
  | string v =>
      rw [hcurrent] at h
      exact hstep (fun t ht => by cases t <;> first | rfl | cases ht) h
  | selection v =>
      rw [hcurrent] at h
      exact hstep (fun t ht => by cases t <;> first | rfl | cases ht) h

theorem asString_eq {t : Token} {s : Text} (h : t.asString = some s) : t = .string s := by
  cases t <;> cases h
  rfl

theorem asExpression_eq {t : Token} {s : Text} (h : t.asExpression = some s) :
    t = .expression s := by
  cases t <;> cases h
  rfl

theorem asIdentifier_eq {t : Token} {s : Text} (h : t.asIdentifier = some s) :
    t = .identifier s := by
  cases t <;> cases h
  rfl

theorem parseWithin_reads {ns : Namespace} {idx : ℕ}
    (h : parseWithin ns tokens = .ok (idx, rest)) :
    ∃ s, tokens = .ok .colon :: .ok (.identifier s) :: rest := by
  obtain ⟨⟨parent, tokens'⟩, hident, hrun⟩ := bind_ok.mp h
  obtain ⟨next, hnext, rfl⟩ := parseVariant_ok hident
  obtain rfl := asIdentifier_eq hnext
  dsimp only at hrun
  split at hrun
  · exact absurd hrun parserError_ne_ok
  · split at hrun
    · cases hrun
    · split_ifs at hrun
      · cases hrun
        exact ⟨parent, rfl⟩
      · exact absurd hrun parserError_ne_ok

theorem parseAttribute_reads {ns : Namespace} {a a' : Attributes}
    {token : Except LexError Token} (h : parseAttribute ns a tokens token = .ok (a', rest)) :
    ∃ ts, Attribute ts ∧ token :: tokens = good ts ++ rest := by
  unfold parseAttribute at h
  split at h
  · obtain ⟨⟨text, tokens'⟩, htext, hret⟩ := bind_ok.mp h
    obtain ⟨next, hnext, rfl⟩ := parseVariant_ok htext
    obtain rfl := asString_eq hnext
    cases hret
    exact ⟨_, .description text, rfl⟩
  · obtain ⟨⟨text, tokens'⟩, htext, hret⟩ := bind_ok.mp h
    obtain ⟨next, hnext, rfl⟩ := parseVariant_ok htext
    obtain rfl := asExpression_eq hnext
    cases hret
    exact ⟨_, .depends text, rfl⟩
  · obtain ⟨⟨text, tokens'⟩, htext, hret⟩ := bind_ok.mp h
    obtain ⟨next, hnext, rfl⟩ := parseVariant_ok htext
    obtain rfl := asString_eq hnext
    cases hret
    exact ⟨_, .display text, rfl⟩
  · obtain ⟨⟨value, tokens'⟩, hvalue, hret⟩ := bind_ok.mp h
    obtain ⟨t, ht, rfl⟩ := parseAttributeDefault_reads hvalue
    cases hret
    exact ⟨_, .default ht, rfl⟩
  · obtain ⟨⟨idx, tokens'⟩, hidx, hret⟩ := bind_ok.mp h
    obtain ⟨s, rfl⟩ := parseWithin_reads hidx
    cases hret
    exact ⟨_, .within s, rfl⟩
  · split_ifs at h
    · obtain ⟨⟨options, tokens'⟩, harray, hret⟩ := bind_ok.mp h
      obtain ⟨ts, hts, rfl⟩ := parseArray_reads harray
      cases hret
      exact ⟨_, .options hts, rfl⟩
    · exact absurd h parserError_ne_ok
  · split_ifs at h
    · obtain ⟨⟨values, tokens'⟩, harray, hret⟩ := bind_ok.mp h
      obtain ⟨ts, hts, rfl⟩ := parseArray_reads harray
      cases hret
      exact ⟨_, .values hts, rfl⟩
    · exact absurd h parserError_ne_ok
  · exact absurd h parserError_ne_ok

/-- The loop ends behind the closing brace, or at the end of the tokens. -/
theorem parseAttributeLoop_reads {ns : Namespace} {rounds : ℕ} {a a' : Attributes}
    (h : parseAttributeLoop ns rounds a tokens = .ok (a', rest)) :
    ∃ attributes : List (List Token), (∀ ts ∈ attributes, Attribute ts) ∧
      (tokens = good attributes.flatten ++ .ok .braceClose :: rest ∨
        rest = [] ∧ tokens = good attributes.flatten) := by
  induction rounds generalizing a tokens with
  | zero =>
      unfold parseAttributeLoop at h
      split at h
      · cases h
        exact ⟨[], by simp, Or.inr ⟨rfl, rfl⟩⟩
      · cases h
        exact ⟨[], by simp, Or.inl rfl⟩
      · cases h
      · cases ‹0 = _ + 1›
  | succ rounds ih =>
      unfold parseAttributeLoop at h
      split at h
      · cases h
        exact ⟨[], by simp, Or.inr ⟨rfl, rfl⟩⟩
      · cases h
        exact ⟨[], by simp, Or.inl rfl⟩
      · cases ‹rounds + 1 = 0›
      · cases ‹rounds + 1 = _›
        obtain ⟨⟨a₁, tokens₁⟩, hattribute, hloop⟩ := bind_ok.mp h
        obtain ⟨ts, hts, hread⟩ := parseAttribute_reads hattribute
        obtain ⟨attributes, hall, hrest⟩ := ih hloop
        refine ⟨ts :: attributes, List.forall_mem_cons.mpr ⟨hts, hall⟩, ?_⟩
        rw [hread]
        rcases hrest with hclosed | ⟨hend, hopen⟩
        · left
          rw [hclosed]
          simp [good]
        · right
          rw [hopen]
          exact ⟨hend, by simp [good]⟩

theorem parseAttributes_reads {ns ns' : Namespace} {option option' : ConfigOption}
    (h : parseAttributes ns option tokens = .ok (option', ns', rest)) :
    tokens ≠ [] ∧ ∃ attributes : List (List Token), (∀ ts ∈ attributes, Attribute ts) ∧
      (tokens = good attributes.flatten ++ .ok .braceClose :: rest ∨
        rest = [] ∧ tokens = good attributes.flatten) := by
  constructor
  · -- without tokens there is no `display`
    rintro rfl
    exact absurd h parserError_ne_ok
  · obtain ⟨⟨a, tokens'⟩, hloop, h⟩ := bind_ok.mp h
    have hrest : tokens' = rest := by
      dsimp only at h
      split at h
      · exact absurd h parserError_ne_ok
      · obtain ⟨value, -, hret⟩ := bind_ok.mp h
        cases hret
        rfl
    rw [← hrest]
    exact parseAttributeLoop_reads hloop

theorem parseArrow_reads {gotArrow isMenu isMenu' : Bool}
    (h : parseArrow tokens gotArrow isMenu = .ok (isMenu', rest)) :
    rest = [] ∨ ∃ ts : List Token, (∀ t ∈ ts, t = .arrow ∨ t = .menu) ∧
      (gotArrow = false → ts.head? ≠ some .menu) ∧ tokens = good ts ++ .ok .braceOpen :: rest := by
  induction tokens generalizing gotArrow isMenu with
  | nil =>
      cases h
      exact Or.inl rfl
  | cons token tokens ih =>
      unfold parseArrow at h
      split at h
      · cases ‹_ = []›
      · cases ‹_ :: _ = _›
        cases h
        exact Or.inr ⟨[], by simp, by simp, rfl⟩
      · cases ‹_ :: _ = _›
        rcases ih h with hend | ⟨ts, hall, -, rfl⟩
        · exact Or.inl hend
        · refine Or.inr ⟨.arrow :: ts, ?_, by simp, rfl⟩
          exact List.forall_mem_cons.mpr ⟨Or.inl rfl, hall⟩
      · cases ‹_ :: _ = _›
        split_ifs at h with harrow
        · rcases ih h with hend | ⟨ts, hall, -, rfl⟩
          · exact Or.inl hend
          · refine Or.inr ⟨.menu :: ts, ?_, by simp [harrow], rfl⟩
            exact List.forall_mem_cons.mpr ⟨Or.inr rfl, hall⟩
        · exact absurd h parserError_ne_ok
      · exact absurd h parserError_ne_ok

/-- An option is read up to its closing brace, or up to the end of the file. -/
theorem parseOption_reads {ns ns' : Namespace} (h : parseOption ns tokens = .ok (ns', rest)) :
    (∃ ts, Item Arrows (.opt :: ts) ∧ tokens = good ts ++ rest) ∨
      rest = [] ∧ ∃ ts, Unclosed (.opt :: ts) ∧ tokens = good ts := by
  obtain ⟨⟨ident, tokens₁⟩, hident, hrun⟩ := bind_ok.mp h
  obtain ⟨next, hnext, rfl⟩ := take_ok hident
  obtain rfl := asIdentifier_eq hnext
  dsimp only at hrun
  split_ifs at hrun
  · exact absurd hrun parserError_ne_ok
  · obtain ⟨tokens₂, hopen, hrun⟩ := bind_ok.mp hrun
    obtain ⟨⟨blank, tokens₃⟩, hblank, hrun⟩ := bind_ok.mp hrun
    obtain ⟨tokens₄, hclose, hrun⟩ := bind_ok.mp hrun
    obtain ⟨⟨isMenu, tokens₅⟩, harrow, hrun⟩ := bind_ok.mp hrun
    obtain ⟨⟨option, ns₁, tokens₆⟩, hattributes, hret⟩ := bind_ok.mp hrun
    obtain ⟨type, htype, rfl⟩ := take_ok hblank
    obtain ⟨hne, attributes, hall, hrest⟩ := parseAttributes_reads hattributes
    cases hret
    dsimp only at hclose hne hrest ⊢
    rw [expect_ok hopen, expect_ok hclose]
    rcases parseArrow_reads harrow with hend | ⟨ts, harrows, hfirst, rfl⟩
    · exact absurd hend hne
    · have hhead : Head Arrows ([.opt, .identifier ident, .parenOpen, type, .parenClose] ++ ts ++
          [.braceOpen]) := .opt ident (by rw [htype]; rfl) ⟨harrows, hfirst rfl⟩
      rcases hrest with rfl | ⟨rfl, rfl⟩
      · exact Or.inl ⟨_, .option hhead hall, by simp [good]⟩
      · exact Or.inr ⟨rfl, _, .option hhead hall, by simp [good]⟩

theorem parseItems_reads {env : Environment} {parse : Text → Namespace → Parsed Namespace}
    {rounds : ℕ} {ns ns' : Namespace} (h : parseItems env parse rounds ns tokens = .ok ns') :
    ∃ ts, Loose ts ∧ tokens = good ts := by
  induction rounds generalizing ns tokens with
  | zero =>
      unfold parseItems at h
      split at h
      · exact ⟨[], .done, rfl⟩
      all_goals first | cases h | cases ‹0 = _ + 1›
  | succ rounds ih =>
      unfold parseItems at h
      split at h
      · exact ⟨[], .done, rfl⟩
      · cases ‹rounds + 1 = 0›
      · cases ‹rounds + 1 = _ + 1›
        obtain ⟨⟨ns₁, tokens₁⟩, hoption, hrun⟩ := bind_ok.mp h
        rcases parseOption_reads hoption with ⟨ts, hitem, rfl⟩ | ⟨rfl, ts, hunclosed, rfl⟩
        · obtain ⟨ts', hloose, hread⟩ := ih hrun
          refine ⟨_, .item hitem hloose, ?_⟩
          rw [hread]
          simp [good]
        · exact ⟨_, .unclosed hunclosed, rfl⟩
      · cases ‹rounds + 1 = _ + 1›
        obtain ⟨⟨file, tokens₁⟩, hfile, hrun⟩ := bind_ok.mp h
        obtain ⟨next, hnext, rfl⟩ := take_ok hfile
        obtain rfl := asString_eq hnext
        obtain ⟨ns₁, -, hrun⟩ := bind_ok.mp hrun
        obtain ⟨ts, hloose, rfl⟩ := ih hrun
        exact ⟨_, .item (.importFile file) hloose, rfl⟩
      · cases ‹rounds + 1 = _ + 1›
        obtain ⟨⟨display, tokens₁⟩, hdisplay, hrun⟩ := bind_ok.mp h
        obtain ⟨next, hnext, rfl⟩ := take_ok hdisplay
        obtain rfl := asString_eq hnext
        obtain ⟨ts, hloose, rfl⟩ := ih hrun
        exact ⟨_, .item (.proj display) hloose, rfl⟩
      · cases ‹rounds + 1 = _ + 1›
        obtain ⟨⟨ident, tokens₁⟩, hident, hrun⟩ := bind_ok.mp h
        obtain ⟨next, hnext, rfl⟩ := take_ok hident
        obtain rfl := asIdentifier_eq hnext
        dsimp only at hrun
        split at hrun
        · obtain ⟨ts, hloose, rfl⟩ := ih hrun
          exact ⟨_, .item (.env ident) hloose, rfl⟩
        · exact absurd hrun parserError_ne_ok
      · exact absurd h parserError_ne_ok

/-! ### Tidy files -/

namespace Grammar

/-- No arrow, no `menu`, and as many closing braces as opening ones. -/
structure Plain (ts : List Token) : Prop where
  noMenu : ∀ t ∈ ts, t ≠ .arrow ∧ t ≠ .menu
  balanced : ts.count .braceOpen = ts.count .braceClose

/-- The last token is neither an arrow nor `menu`. -/
def EndsPlain (ts : List Token) : Prop := ∀ t ∈ ts.getLast?, t ≠ .arrow ∧ t ≠ .menu

variable {ts ts' : List Token} {t : Token} {elem : Token → Prop} {Menu : List Token → Prop}

theorem Plain.append (h : Plain ts) (h' : Plain ts') : Plain (ts ++ ts') where
  noMenu t ht := (List.mem_append.mp ht).elim (h.noMenu t) (h'.noMenu t)
  balanced := by rw [List.count_append, List.count_append, h.balanced, h'.balanced]

theorem plain_nil : Plain [] := ⟨by simp, rfl⟩

theorem plain_single (ht : t ≠ .arrow ∧ t ≠ .menu ∧ t ≠ .braceOpen ∧ t ≠ .braceClose) :
    Plain [t] where
  noMenu t' ht' := by
    obtain rfl := List.mem_singleton.mp ht'
    exact ⟨ht.1, ht.2.1⟩
  balanced := by
    rw [List.count_singleton, List.count_singleton, if_neg (by simpa using ht.2.2.1),
      if_neg (by simpa using ht.2.2.2)]

theorem Elements.plain (hplain : ∀ t, elem t → Plain [t]) (h : Elements elem ts) : Plain ts := by
  induction h with
  | last ht => exact hplain _ ht
  | comma ht _ ih => exact (hplain _ ht).append ((plain_single (by decide)).append ih)

theorem Braces.plain (hplain : ∀ t, elem t → Plain [t]) (h : Braces elem ts) : Plain ts := by
  obtain ⟨helements⟩ := h
  obtain ⟨hmenu, hbalanced⟩ := helements.plain hplain
  refine ⟨fun t ht => ?_, ?_⟩
  · rcases List.mem_append.mp ht with ht | ht
    · rcases List.mem_cons.mp ht with rfl | ht
      · decide
      · exact hmenu t ht
    · obtain rfl := List.mem_singleton.mp ht
      decide
  · simp [List.count_append, hbalanced]

theorem plain_value (h : IsValue t) : Plain [t] := by
  apply plain_single
  cases t <;> first | (cases h; done) | simp

theorem plain_string (h : IsString t) : Plain [t] := by
  apply plain_single
  cases t <;> first | (cases h; done) | simp

theorem Attribute.plain (h : Attribute ts) : Plain ts := by
  cases h with
  | default ht =>
      exact (plain_single (by decide)).append ((plain_single (by decide)).append (plain_value ht))
  | options hts =>
      exact (plain_single (by decide)).append
        ((plain_single (by decide)).append (hts.plain fun _ => plain_string))
  | values hts =>
      exact (plain_single (by decide)).append
        ((plain_single (by decide)).append (hts.plain fun _ => plain_value))
  | _ => exact ⟨by simp, by simp⟩

theorem plain_flatten {attributes : List (List Token)} (h : ∀ a ∈ attributes, Attribute a) :
    Plain attributes.flatten := by
  induction attributes with
  | nil => exact plain_nil
  | cons a attributes ih =>
      rw [List.forall_mem_cons] at h
      exact h.1.plain.append (ih h.2)

theorem isChain_of_noMenu (h : ∀ t ∈ ts, t ≠ .arrow ∧ t ≠ .menu) : ts.IsChain Adjacent := by
  induction ts with
  | nil => exact .nil
  | cons t ts ih =>
      have hrest := ih fun t' ht' => h t' (List.mem_cons_of_mem t ht')
      obtain ⟨harrow, hmenu⟩ := h t List.mem_cons_self
      cases ts with
      | nil => exact .singleton t
      | cons t' ts =>
          exact .cons_cons ⟨fun heq => absurd heq harrow, fun heq => absurd heq hmenu⟩ hrest

/-- Behind a plain end anything may follow. -/
theorem isChain_append_iff (h : EndsPlain ts) :
    (ts ++ ts').IsChain Adjacent ↔ ts.IsChain Adjacent ∧ ts'.IsChain Adjacent := by
  rw [List.isChain_append]
  refine ⟨fun hchain => ⟨hchain.1, hchain.2.1⟩, fun hchain => ⟨hchain.1, hchain.2, ?_⟩⟩
  intro t ht t' _
  obtain ⟨harrow, hmenu⟩ := h t ht
  exact ⟨fun heq => absurd heq harrow, fun heq => absurd heq hmenu⟩

/-- The tokens between the parentheses and the brace of an option. -/
theorem Head.exists_menu (h : Head Menu ts) :
    ∃ front menu, Plain front ∧ EndsPlain front ∧ Menu menu ∧ ts = front ++ (menu ++ [.braceOpen]) := by
  obtain ⟨name, htype, hmenu⟩ := h
  rename_i type menu
  refine ⟨[.opt, .identifier name, .parenOpen, type, .parenClose], menu, ?_, by simp [EndsPlain],
    hmenu, by simp⟩
  cases type <;> first | (cases htype; done) | exact ⟨by simp, by simp⟩

theorem count_menu (brace : Token) (harrow : brace ≠ .arrow) (hmenu : brace ≠ .menu)
    (h : ∀ t ∈ ts, t = .arrow ∨ t = .menu) : ts.count brace = 0 := by
  rw [List.count_eq_zero]
  intro hmem
  rcases h brace hmem with heq | heq
  · exact harrow heq
  · exact hmenu heq

/-- An option opens one brace more than it closes before its attributes. -/
theorem Head.count (hmenus : ∀ ts, Menu ts → ∀ t ∈ ts, t = .arrow ∨ t = .menu) (h : Head Menu ts) :
    ts.count .braceOpen = ts.count .braceClose + 1 := by
  obtain ⟨front, menu, hfront, -, hmenu, rfl⟩ := h.exists_menu
  have hopen := count_menu .braceOpen (by simp) (by simp) (hmenus menu hmenu)
  have hclose := count_menu .braceClose (by simp) (by simp) (hmenus menu hmenu)
  have hbalanced := hfront.balanced
  simp only [List.count_append, hopen, hclose]
  simp
  omega

theorem Item.balanced (hmenus : ∀ ts, Menu ts → ∀ t ∈ ts, t = .arrow ∨ t = .menu)
    (h : Item Menu ts) : ts.count .braceOpen = ts.count .braceClose := by
  cases h with
  | option hhead hall =>
      have hcount := hhead.count hmenus
      have hbalanced := (plain_flatten hall).balanced
      simp only [List.count_append, hcount, hbalanced]
      simp
      omega
  | _ => simp

theorem endsPlain_concat (h : t ≠ .arrow ∧ t ≠ .menu) : EndsPlain (ts ++ [t]) := by
  intro t' ht'
  rw [List.getLast?_concat, Option.mem_some_iff] at ht'
  rw [← ht']
  exact h

theorem Item.endsPlain (h : Item Menu ts) : EndsPlain ts := by
  cases h <;> simp [EndsPlain]

/-- Only `-> menu` may stand before the brace of a tidy option. -/
theorem menuArrow_of_isChain (h : Arrows ts) (hchain : (ts ++ [Token.braceOpen]).IsChain Adjacent) :
    MenuArrow ts := by
  obtain ⟨hall, hfirst⟩ := h
  match ts, hall, hfirst, hchain with
  | [], _, _, _ => exact Or.inl rfl
  | t :: ts, hall, hfirst, hchain =>
      obtain rfl : t = .arrow := (hall t List.mem_cons_self).resolve_right fun heq =>
        hfirst (by rw [heq]; rfl)
      match ts, hall, hchain with
      | [], _, hchain =>
          have hnext := (List.isChain_cons_cons.mp hchain).1.1 rfl
          cases hnext
      | [t'], _, hchain =>
          obtain rfl := (List.isChain_cons_cons.mp hchain).1.1 rfl
          exact Or.inr rfl
      | t' :: t'' :: ts, hall, hchain =>
          obtain ⟨hnext, hchain⟩ := List.isChain_cons_cons.mp hchain
          obtain rfl := hnext.1 rfl
          obtain rfl := (List.isChain_cons_cons.mp hchain).1.2 rfl
          rcases hall .braceOpen (by simp) with heq | heq <;> cases heq

theorem MenuArrow.isChain (h : MenuArrow ts) : (ts ++ [Token.braceOpen]).IsChain Adjacent := by
  rcases h with rfl | rfl
  · exact .singleton _
  · simp [Adjacent]

theorem MenuArrow.arrows (h : MenuArrow ts) : ∀ t ∈ ts, t = .arrow ∨ t = .menu := by
  rcases h with rfl | rfl <;> simp

theorem Head.endsPlain (h : Head Menu ts) : EndsPlain ts := by
  obtain ⟨front, menu, -, -, -, rfl⟩ := h.exists_menu
  rw [← List.append_assoc]
  exact endsPlain_concat (by decide)

theorem Head.isChain (h : Head MenuArrow ts) : ts.IsChain Adjacent := by
  obtain ⟨front, menu, hfront, hends, hmenu, rfl⟩ := h.exists_menu
  exact (isChain_append_iff hends).mpr ⟨isChain_of_noMenu hfront.noMenu, hmenu.isChain⟩

theorem Head.of_isChain (h : Head Arrows ts) (hchain : ts.IsChain Adjacent) : Head MenuArrow ts := by
  obtain ⟨name, htype, hmenu⟩ := h
  rename_i type menu
  have hinfix : menu ++ [.braceOpen] <:+: [.opt, .identifier name, .parenOpen, type, .parenClose] ++
      menu ++ [.braceOpen] :=
    ⟨[.opt, .identifier name, .parenOpen, type, .parenClose], [], by simp⟩
  exact .opt name htype (menuArrow_of_isChain hmenu ( List.IsChain.infix hchain hinfix))

theorem isChain_option_iff {head : List Token} {attributes : List (List Token)}
    (hhead : Head Menu head) (hall : ∀ a ∈ attributes, Attribute a) :
    (head ++ attributes.flatten ++ [Token.braceClose]).IsChain Adjacent ↔ head.IsChain Adjacent := by
  have hplain : (attributes.flatten ++ [Token.braceClose]).IsChain Adjacent := by
    apply isChain_of_noMenu
    intro t ht
    rcases List.mem_append.mp ht with ht | ht
    · exact (plain_flatten hall).noMenu t ht
    · obtain rfl := List.mem_singleton.mp ht
      decide
  rw [List.append_assoc, isChain_append_iff hhead.endsPlain, and_iff_left hplain]

theorem Item.isChain (h : Item MenuArrow ts) : ts.IsChain Adjacent := by
  cases h with
  | option hhead hall => exact (isChain_option_iff hhead hall).mpr hhead.isChain
  | _ => simp [Adjacent]

/-- A tidy item of the parser is an item of the grammar. -/
theorem Item.of_isChain (h : Item Arrows ts) (hchain : ts.IsChain Adjacent) :
    Item MenuArrow ts := by
  cases h with
  | option hhead hall =>
      exact .option (hhead.of_isChain ((isChain_option_iff hhead hall).mp hchain)) hall
  | proj s => exact .proj s
  | importFile s => exact .importFile s
  | env s => exact .env s

theorem File.tidy (h : File ts) : Tidy ts := by
  obtain ⟨items, hall, rfl⟩ := h
  induction items with
  | nil => exact ⟨.nil, rfl⟩
  | cons i items ih =>
      rw [List.forall_mem_cons] at hall
      obtain ⟨hchain, hclosed⟩ := ih hall.2
      have hitem := hall.1.balanced fun ts => MenuArrow.arrows
      rw [List.flatten_cons]
      refine ⟨(isChain_append_iff hall.1.endsPlain).mpr ⟨hall.1.isChain, hchain⟩, ?_⟩
      rw [List.count_append, List.count_append, hitem, hclosed]

theorem Loose.file (h : Loose ts) (htidy : Tidy ts) : File ts := by
  induction h with
  | done => exact ⟨[], by simp, rfl⟩
  | unclosed h =>
      cases h with
      | option hhead hall =>
          have hcount := hhead.count fun ts (h : Arrows ts) => h.1
          have hbalanced := (plain_flatten hall).balanced
          have hclosed := htidy.closed
          rw [List.count_append, List.count_append] at hclosed
          omega
  | item hitem _ ih =>
      obtain ⟨hchain, hclosed⟩ := htidy
      obtain ⟨hfirst, hrest⟩ := (isChain_append_iff hitem.endsPlain).mp hchain
      have hbalanced := hitem.balanced fun ts (h : Arrows ts) => h.1
      rw [List.count_append, List.count_append] at hclosed
      obtain ⟨items, hall, rfl⟩ := ih ⟨hrest, by omega⟩
      exact ⟨_ :: items, List.forall_mem_cons.mpr ⟨hitem.of_isChain hfirst, hall⟩, rfl⟩

end Grammar

/-- What `parse` accepts is a file of the grammar exactly when each arrow stands before `menu`,
each `menu` before `{`, and no option is left open at the end of the file. -/
theorem parse_grammar_iff {lexers : Lexers} {env : Environment} {depth : ℕ}
    {file path source : Text} {ns ns' : Namespace} (hpath : env.canonicalize file = some path)
    (hnew : path ∉ ns.parsedFiles) (hsource : env.readToString path = some source)
    (h : parse lexers env depth file ns = .ok ns') :
    ∃ ts : List Token, lexers.token source = good ts ∧ (File ts ↔ Tidy ts) := by
  cases depth with
  | zero => cases h
  | succ depth =>
      rw [parse, hpath] at h
      dsimp only at h
      rw [if_neg hnew, hsource] at h
      obtain ⟨ts, hloose, hread⟩ := parseItems_reads h
      exact ⟨ts, hread, File.tidy, hloose.file⟩

theorem netSource_grammar : ∃ ts : List Token, netLexers.token netSource = good ts ∧
    (File ts ↔ Tidy ts) := by
  have hpath : netEnvironment.canonicalize "Uconfig".toList = some "Uconfig".toList := rfl
  have hsource : netEnvironment.readToString "Uconfig".toList = some netSource := rfl
  have hparse : parse netLexers netEnvironment 1 "Uconfig".toList Namespace.default =
      .ok netNamespace := rfl
  exact parse_grammar_iff hpath List.not_mem_nil hsource hparse

/-- The lexers on a file with these tokens. -/
def lexersOf (ts : List Token) : Lexers := { netLexers with token := fun _ => good ts }

/-- `opt CONFIG_NET(bool) -> { display: "Net" default: true }`. -/
def arrowFile : List Token :=
  [.opt, .identifier "CONFIG_NET".toList, .parenOpen, .typeBool, .parenClose, .arrow, .braceOpen,
    .display, .colon, .string "Net".toList, .default, .colon, .bool true, .braceClose]

/-- `opt CONFIG_NET(bool) { display: "Net" default: true`. -/
def unclosedFile : List Token :=
  [.opt, .identifier "CONFIG_NET".toList, .parenOpen, .typeBool, .parenClose, .braceOpen,
    .display, .colon, .string "Net".toList, .default, .colon, .bool true]

/-- Both are parsed without an error. -/
theorem parse_accepts_loose :
    (∃ ns, parse (lexersOf arrowFile) netEnvironment 1 "Uconfig".toList Namespace.default = .ok ns) ∧
      ¬ File arrowFile ∧
      (∃ ns, parse (lexersOf unclosedFile) netEnvironment 1 "Uconfig".toList Namespace.default =
        .ok ns) ∧
      ¬ File unclosedFile := by
  refine ⟨⟨_, rfl⟩, fun hfile => ?_, ⟨_, rfl⟩, fun hfile => ?_⟩
  · have hadjacent : ¬ arrowFile.IsChain Adjacent := by decide
    exact hadjacent hfile.tidy.adjacent
  · have hclosed : unclosedFile.count .braceOpen ≠ unclosedFile.count .braceClose := by decide
    exact hclosed hfile.tidy.closed

end Uconfig
end Utopia
