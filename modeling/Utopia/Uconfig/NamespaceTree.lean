/-
The options of a parsed namespace form a tree, in which parents stand before their
children.
-/
import Utopia.Uconfig.ParserShape
import Mathlib.Logic.Relation
import Mathlib.Data.List.Nodup

namespace Utopia
namespace Uconfig

namespace Namespace

/-- One item of a Uconfig file; `Ident` holds of the names that the lexer can read. -/
inductive Grows (Ident : Text → Prop) (ns : Namespace) : Namespace → Prop where
  | option (option : ConfigOption) (parentIdx : ℕ) (ident : Ident option.name)
      (fresh : ns.hashmap option.name = none) (leaf : option.children = [])
      (notEnv : option.isEnv = false) (typed : option.Typed) (parent : ns.IsParent parentIdx) :
      Grows Ident ns ((ns.addChild parentIdx ns.vector.length).push option.name option)
  | env (ident val : Text) : Grows Ident ns (ns.push ident (envOption val))
  | proj (display : Text) :
      Grows Ident ns
        { ns with vector := ns.vector.modify 0 fun root => { root with display := display } }
  | file (path : Text) : Grows Ident ns { ns with parsedFiles := path :: ns.parsedFiles }

end Namespace

/-- The names that the generated lexer finds in some file. -/
def Lexers.Ident (lexers : Lexers) (name : Text) : Prop :=
  ∃ source, .ok (.identifier name) ∈ lexers.token source

/-- From `ns` on, only items of Uconfig files were added. -/
abbrev Namespace.GrowsTo (lexers : Lexers) : Namespace → Namespace → Prop :=
  Relation.ReflTransGen (Namespace.Grows lexers.Ident)

section

variable {lexers : Lexers} {env : Environment} {ns ns' : Namespace}

theorem parseItems_grows {parse : Text → Namespace → Parsed Namespace} {source : Text}
    (hparse : ∀ {file ns ns'}, parse file ns = .ok ns' → ns.GrowsTo lexers ns')
    {rounds : ℕ} {tokens : Tokens} (htokens : tokens ⊆ lexers.token source)
    (h : parseItems env parse rounds ns tokens = .ok ns') : ns.GrowsTo lexers ns' := by
  have hrest : ∀ {token : Except LexError Token} {rest tokens : Tokens}, rest <:+ tokens →
      token :: tokens ⊆ lexers.token source → rest ⊆ lexers.token source :=
    fun hsuffix htokens => List.Subset.trans
      (List.Subset.trans hsuffix.subset (List.subset_cons_self _ _)) htokens
  induction rounds generalizing ns tokens with
  | zero =>
      unfold parseItems at h
      split at h
      · cases h
        exact Relation.ReflTransGen.refl
      all_goals first | cases h | cases ‹0 = _ + 1›
  | succ rounds ih =>
      unfold parseItems at h
      split at h
      · cases h
        exact Relation.ReflTransGen.refl
      · cases ‹rounds + 1 = 0›
      · cases ‹rounds + 1 = _ + 1›
        obtain ⟨⟨ns₁, tokens₁⟩, hoption, h⟩ := bind_ok.mp h
        obtain ⟨hsuffix, option, parentIdx, hident, hfresh, hleaf, hnotEnv, htyped, hparent, rfl⟩ :=
          parseOption_ok hoption
        have hname : lexers.Ident option.name :=
          ⟨source, htokens (List.mem_cons_of_mem _ hident)⟩
        have hstep := Namespace.Grows.option option parentIdx hname hfresh hleaf hnotEnv htyped
          hparent
        exact Relation.ReflTransGen.head hstep (ih (hrest hsuffix htokens) h)
      · cases ‹rounds + 1 = _ + 1›
        obtain ⟨⟨file, tokens₁⟩, hfile, h⟩ := bind_ok.mp h
        obtain ⟨ns₁, himport, h⟩ := bind_ok.mp h
        exact (hparse himport).trans (ih (hrest (take_suffix hfile) htokens) h)
      · cases ‹rounds + 1 = _ + 1›
        obtain ⟨⟨display, tokens₁⟩, hdisplay, h⟩ := bind_ok.mp h
        exact Relation.ReflTransGen.head (Namespace.Grows.proj display)
          (ih (hrest (take_suffix hdisplay) htokens) h)
      · cases ‹rounds + 1 = _ + 1›
        obtain ⟨⟨ident, tokens₁⟩, hident, h⟩ := bind_ok.mp h
        dsimp only at h
        split at h
        · next val _ =>
            exact Relation.ReflTransGen.head (Namespace.Grows.env ident val)
              (ih (hrest (take_suffix hident) htokens) h)
        · exact absurd h parserError_ne_ok
      · exact absurd h parserError_ne_ok

/-- A parse only adds items to the namespace it is given. -/
theorem parse_grows {depth : ℕ} {file : Text} (h : parse lexers env depth file ns = .ok ns') :
    ns.GrowsTo lexers ns' := by
  induction depth generalizing file ns ns' with
  | zero => cases h
  | succ depth ih =>
      unfold parse at h
      split at h
      · cases h
      · next path _ =>
          split_ifs at h
          · cases h
            exact Relation.ReflTransGen.refl
          · split at h
            · cases h
            · exact Relation.ReflTransGen.head (Namespace.Grows.file path)
                (parseItems_grows ih (List.Subset.refl _) h)

end

theorem getElem?_concat_eq_some {α : Type} {list : List α} {last a : α} {i : ℕ}
    (h : (list ++ [last])[i]? = some a) :
    list[i]? = some a ∨ i = list.length ∧ a = last := by
  rcases Nat.lt_trichotomy i list.length with hi | rfl | hi
  · left
    rw [← h, List.getElem?_append_left hi]
  · right
    rw [List.getElem?_concat_length] at h
    cases h
    exact ⟨rfl, rfl⟩
  · have hout : (list ++ [last])[i]? = none := by
      rw [List.getElem?_eq_none_iff, List.length_append, List.length_singleton]
      omega
    rw [hout] at h
    cases h

/-! ### The tree -/

/-- An option without its value and its display text. -/
def ConfigOption.skeleton (option : ConfigOption) : ConfigOption :=
  { option with display := [], current := .null }

section

variable {option option' : ConfigOption}

theorem children_eq (h : option'.skeleton = option.skeleton) :
    option'.children = option.children := by
  have hchildren := congrArg ConfigOption.children h
  exact hchildren

theorem isEnv_eq (h : option'.skeleton = option.skeleton) : option'.isEnv = option.isEnv := by
  have hisEnv := congrArg ConfigOption.isEnv h
  exact hisEnv

theorem isMenu_eq (h : option'.skeleton = option.skeleton) : option'.isMenu = option.isMenu := by
  have hisMenu := congrArg ConfigOption.isMenu h
  exact hisMenu

theorem depends_eq (h : option'.skeleton = option.skeleton) :
    option'.depends = option.depends := by
  have hdepends := congrArg ConfigOption.depends h
  exact hdepends

end

namespace Namespace

/-- `c` is in the children list of `p`. -/
def Child (ns : Namespace) (p c : ℕ) : Prop :=
  ∃ option, ns.vector[p]? = some option ∧ c ∈ option.children

/-- The names lead to entries of the vector. -/
def MappedInside (ns : Namespace) : Prop :=
  ∀ key idx, ns.hashmap key = some idx → idx < ns.vector.length

/-- The parser's invariant on the children lists. -/
structure Linked (ns : Namespace) : Prop where
  root : ∃ root, ns.vector[0]? = some root ∧ root.isEnv = false ∧ root.depends = none
  before : ∀ p c, ns.Child p c → p < c
  inside : ∀ p c, ns.Child p c → ∃ option, ns.vector[c]? = some option ∧ option.isEnv = false
  parent : ∀ p c, ns.Child p c → ns.IsParent p
  unique : ∀ p q c, ns.Child p c → ns.Child q c → p = q
  nodup : ∀ (i : ℕ) (option : ConfigOption), ns.vector[i]? = some option → option.children.Nodup
  covered : ∀ c option, 0 < c → ns.vector[c]? = some option → option.isEnv = false →
    ∃ p, ns.Child p c
  noEnvMenu : ∀ (i : ℕ) (option : ConfigOption), ns.vector[i]? = some option →
    option.isEnv = true → option.isMenu = false
  mapped : ns.MappedInside

variable {ns ns' : Namespace} {Ident : Text → Prop}

theorem getElem?_addChild (p c i : ℕ) :
    (ns.addChild p c).vector[i]? =
      (ns.vector[i]?).map fun option =>
        if p = i then { option with children := option.children ++ [c] } else option := by
  rw [addChild, List.getElem?_modify]
  cases ns.vector[i]? with
  | none => rfl
  | some option =>
      by_cases hi : p = i
      · simp [hi]
      · simp [hi]

theorem length_addChild (ns : Namespace) (p c : ℕ) : (ns.addChild p c).vector.length = ns.vector.length :=
  List.length_modify _ _ _

theorem getElem?_push_of_lt {ident : Text} {option : ConfigOption} {i : ℕ}
    (hi : i < ns.vector.length) : (ns.push ident option).vector[i]? = ns.vector[i]? :=
  List.getElem?_append_left hi

theorem getElem?_push_length (ns : Namespace) (ident : Text) (option : ConfigOption) :
    (ns.push ident option).vector[ns.vector.length]? = some option :=
  List.getElem?_concat_length

/-- An entry of the grown vector is an old one or the new one. -/
theorem getElem?_push_eq_some {ident : Text} {option option' : ConfigOption} {i : ℕ}
    (h : (ns.push ident option).vector[i]? = some option') :
    ns.vector[i]? = some option' ∨ i = ns.vector.length ∧ option' = option :=
  getElem?_concat_eq_some h

theorem lt_length_of_getElem? {i : ℕ} {option : ConfigOption}
    (h : ns.vector[i]? = some option) : i < ns.vector.length :=
  (List.getElem?_eq_some_iff.mp h).1

theorem child_addChild {p c q d : ℕ} (hp : p < ns.vector.length) :
    (ns.addChild p c).Child q d ↔ ns.Child q d ∨ q = p ∧ d = c := by
  have hentry := List.getElem?_eq_getElem hp
  constructor
  · rintro ⟨option, hoption, hd⟩
    rw [getElem?_addChild] at hoption
    obtain ⟨old, hold, rfl⟩ := Option.map_eq_some_iff.mp hoption
    split_ifs at hd with hq
    · rcases List.mem_append.mp hd with hd | hd
      · exact Or.inl ⟨old, hold, hd⟩
      · exact Or.inr ⟨hq.symm, List.mem_singleton.mp hd⟩
    · exact Or.inl ⟨old, hold, hd⟩
  · rintro (⟨option, hoption, hd⟩ | ⟨rfl, rfl⟩)
    · refine ⟨_, by rw [getElem?_addChild, hoption]; rfl, ?_⟩
      split_ifs
      · exact List.mem_append_left _ hd
      · exact hd
    · refine ⟨_, by rw [getElem?_addChild, hentry]; rfl, ?_⟩
      dsimp only
      rw [if_pos rfl]
      exact List.mem_append_right _ (List.mem_singleton.mpr rfl)

theorem child_push {ident : Text} {option : ConfigOption} (hleaf : option.children = [])
    {q d : ℕ} : (ns.push ident option).Child q d ↔ ns.Child q d := by
  constructor
  · rintro ⟨option', hoption', hd⟩
    rcases getElem?_push_eq_some hoption' with hold | ⟨_, rfl⟩
    · exact ⟨option', hold, hd⟩
    · rw [hleaf] at hd
      cases hd
  · rintro ⟨option', hold, hd⟩
    exact ⟨option', by rw [getElem?_push_of_lt (lt_length_of_getElem? hold), hold], hd⟩

/-- The entries of `ns` keep in `ns'` what the tree depends on. -/
def Keeps (ns ns' : Namespace) : Prop :=
  ∀ (i : ℕ) (option : ConfigOption), ns.vector[i]? = some option →
    ∃ option' : ConfigOption, ns'.vector[i]? = some option' ∧ option'.isEnv = option.isEnv ∧
      option'.isMenu = option.isMenu ∧ option'.depends = option.depends

theorem Keeps.isParent (h : ns.Keeps ns') {p : ℕ} (hp : ns.IsParent p) : ns'.IsParent p := by
  rcases hp with rfl | ⟨option, hoption, hmenu⟩
  · exact Or.inl rfl
  · obtain ⟨option', hoption', _, hmenu', _⟩ := h p option hoption
    exact Or.inr ⟨option', hoption', hmenu'.trans hmenu⟩

theorem keeps_addChild (p c : ℕ) : ns.Keeps (ns.addChild p c) := by
  intro i option hoption
  refine ⟨_, by rw [getElem?_addChild, hoption]; rfl, ?_⟩
  split_ifs <;> exact ⟨rfl, rfl, rfl⟩

theorem keeps_push (ident : Text) (option : ConfigOption) : ns.Keeps (ns.push ident option) := by
  intro i old hold
  exact ⟨old, by rw [getElem?_push_of_lt (lt_length_of_getElem? hold), hold], rfl, rfl, rfl⟩

theorem Linked.zero_lt (h : ns.Linked) : 0 < ns.vector.length := by
  obtain ⟨root, hroot, _⟩ := h.root
  exact lt_length_of_getElem? hroot

theorem Linked.isParent_lt (h : ns.Linked) {p : ℕ} (hp : ns.IsParent p) :
    p < ns.vector.length := by
  rcases hp with rfl | ⟨option, hoption, _⟩
  · exact h.zero_lt
  · exact lt_length_of_getElem? hoption

theorem Linked.child_lt (h : ns.Linked) {p c : ℕ} (hc : ns.Child p c) :
    c < ns.vector.length := by
  obtain ⟨option, hoption, _⟩ := h.inside p c hc
  exact lt_length_of_getElem? hoption

theorem MappedInside.push (h : ns.MappedInside) (ident : Text) (option : ConfigOption) :
    (ns.push ident option).MappedInside := by
  intro key idx hkey
  change (if key = ident then some ns.vector.length else ns.hashmap key) = some idx at hkey
  change idx < (ns.vector ++ [option]).length
  rw [List.length_append, List.length_singleton]
  split_ifs at hkey
  · cases hkey
    exact Nat.lt_succ_self _
  · exact Nat.lt_succ_of_lt (h key idx hkey)

theorem linked_default : Namespace.default.Linked := by
  have hleaf : ∀ p c, ¬ Namespace.default.Child p c := by
    rintro p c ⟨option, hoption, hc⟩
    obtain rfl : { ConfigOption.default with display := "Project".toList } = option :=
      (List.mem_singleton.mp (List.mem_of_getElem? hoption)).symm
    cases hc
  refine ⟨⟨_, rfl, rfl, rfl⟩, fun p c h => absurd h (hleaf p c), fun p c h => absurd h (hleaf p c),
    fun p c h => absurd h (hleaf p c), fun p q c h => absurd h (hleaf p c), ?_, ?_, ?_, ?_⟩
  · intro i option hoption
    obtain rfl : { ConfigOption.default with display := "Project".toList } = option :=
      (List.mem_singleton.mp (List.mem_of_getElem? hoption)).symm
    exact List.nodup_nil
  · intro c option hpos hoption
    have hc : c < 1 := lt_length_of_getElem? hoption
    omega
  · intro i option hoption henv
    obtain rfl : { ConfigOption.default with display := "Project".toList } = option :=
      (List.mem_singleton.mp (List.mem_of_getElem? hoption)).symm
    cases henv
  · intro key idx hkey
    cases hkey

theorem Linked.option (h : ns.Linked) {option : ConfigOption} {parentIdx : ℕ}
    (hleaf : option.children = []) (hnotEnv : option.isEnv = false)
    (hparent : ns.IsParent parentIdx) (ident : Text) :
    ((ns.addChild parentIdx ns.vector.length).push ident option).Linked := by
  have hlt := h.isParent_lt hparent
  have hchild : ∀ {p c}, ((ns.addChild parentIdx ns.vector.length).push ident option).Child p c ↔
      ns.Child p c ∨ p = parentIdx ∧ c = ns.vector.length :=
    (child_push hleaf).trans (child_addChild hlt)
  have hkeeps : ns.Keeps ((ns.addChild parentIdx ns.vector.length).push ident option) := by
    intro i old hold
    obtain ⟨old₁, hold₁, henv₁, hmenu₁, hdepends₁⟩ := keeps_addChild parentIdx ns.vector.length
      i old hold
    obtain ⟨old₂, hold₂, henv₂, hmenu₂, hdepends₂⟩ := keeps_push ident option i old₁ hold₁
    exact ⟨old₂, hold₂, henv₂.trans henv₁, hmenu₂.trans hmenu₁, hdepends₂.trans hdepends₁⟩
  have hlast : ((ns.addChild parentIdx ns.vector.length).push ident option).vector[
      ns.vector.length]? = some option := by
    have hpushed := getElem?_push_length (ns.addChild parentIdx ns.vector.length) ident option
    rwa [length_addChild] at hpushed
  have hfresh : ∀ p, ¬ ns.Child p ns.vector.length := by
    intro p hp
    exact absurd (h.child_lt hp) (Nat.lt_irrefl _)
  obtain ⟨root, hroot, hrootEnv, hrootDepends⟩ := h.root
  obtain ⟨root', hroot', henv, _, hdepends⟩ := hkeeps 0 root hroot
  refine ⟨⟨root', hroot', henv.trans hrootEnv, hdepends.trans hrootDepends⟩, ?_, ?_, ?_, ?_, ?_,
    ?_, ?_, ?_⟩
  · intro p c hc
    rcases hchild.mp hc with hold | ⟨rfl, rfl⟩
    · exact h.before p c hold
    · exact hlt
  · intro p c hc
    rcases hchild.mp hc with hold | ⟨rfl, rfl⟩
    · obtain ⟨old, hentry, hold⟩ := h.inside p c hold
      obtain ⟨new, hnew, hnewEnv, _⟩ := hkeeps c old hentry
      exact ⟨new, hnew, hnewEnv.trans hold⟩
    · exact ⟨option, hlast, hnotEnv⟩
  · intro p c hc
    rcases hchild.mp hc with hold | ⟨rfl, rfl⟩
    · exact hkeeps.isParent (h.parent p c hold)
    · exact hkeeps.isParent hparent
  · intro p q c hp hq
    rcases hchild.mp hp with hpold | ⟨rfl, rfl⟩
    · rcases hchild.mp hq with hqold | ⟨rfl, rfl⟩
      · exact h.unique p q c hpold hqold
      · exact absurd hpold (hfresh p)
    · rcases hchild.mp hq with hqold | ⟨rfl, _⟩
      · exact absurd hqold (hfresh q)
      · rfl
  · intro i entry hentry
    rcases getElem?_push_eq_some hentry with hentry | ⟨_, rfl⟩
    · rw [getElem?_addChild] at hentry
      obtain ⟨old, hold, rfl⟩ := Option.map_eq_some_iff.mp hentry
      split_ifs
      · rw [List.nodup_append_comm, List.singleton_append, List.nodup_cons]
        exact ⟨fun hmem => hfresh i ⟨old, hold, hmem⟩, h.nodup i old hold⟩
      · exact h.nodup i old hold
    · rw [hleaf]
      exact List.nodup_nil
  · intro c entry hpos hentry hentryEnv
    rcases getElem?_push_eq_some hentry with hentry | ⟨rfl, rfl⟩
    · rw [getElem?_addChild] at hentry
      obtain ⟨old, hold, rfl⟩ := Option.map_eq_some_iff.mp hentry
      have hnot : old.isEnv = false := by
        split_ifs at hentryEnv <;> exact hentryEnv
      obtain ⟨p, hp⟩ := h.covered c old hpos hold hnot
      exact ⟨p, hchild.mpr (Or.inl hp)⟩
    · rw [length_addChild]
      exact ⟨parentIdx, hchild.mpr (Or.inr ⟨rfl, rfl⟩)⟩
  · intro i entry hentry hentryEnv
    rcases getElem?_push_eq_some hentry with hentry | ⟨_, rfl⟩
    · rw [getElem?_addChild] at hentry
      obtain ⟨old, hold, rfl⟩ := Option.map_eq_some_iff.mp hentry
      have holdMenu := h.noEnvMenu i old hold
      split_ifs at hentryEnv ⊢ <;> exact holdMenu hentryEnv
    · rw [hnotEnv] at hentryEnv
      cases hentryEnv
  · have hmapped : (ns.addChild parentIdx ns.vector.length).MappedInside := by
      intro key idx hkey
      rw [length_addChild]
      exact h.mapped key idx hkey
    exact hmapped.push ident option

theorem Linked.env (h : ns.Linked) (ident val : Text) : (ns.push ident (envOption val)).Linked := by
  have hchild : ∀ {p c}, (ns.push ident (envOption val)).Child p c ↔ ns.Child p c := child_push rfl
  have hkeeps : ns.Keeps (ns.push ident (envOption val)) := keeps_push ident (envOption val)
  obtain ⟨root, hroot, hrootEnv, hrootDepends⟩ := h.root
  obtain ⟨root', hroot', henv, _, hdepends⟩ := hkeeps 0 root hroot
  refine ⟨⟨root', hroot', henv.trans hrootEnv, hdepends.trans hrootDepends⟩,
    fun p c hc => h.before p c (hchild.mp hc), ?_,
    fun p c hc => hkeeps.isParent (h.parent p c (hchild.mp hc)),
    fun p q c hp hq => h.unique p q c (hchild.mp hp) (hchild.mp hq), ?_, ?_, ?_,
    MappedInside.push h.mapped ident (envOption val)⟩
  · intro p c hc
    obtain ⟨old, hentry, hold⟩ := h.inside p c (hchild.mp hc)
    obtain ⟨new, hnew, hnewEnv, _⟩ := hkeeps c old hentry
    exact ⟨new, hnew, hnewEnv.trans hold⟩
  · intro i entry hentry
    rcases getElem?_push_eq_some hentry with hold | ⟨_, rfl⟩
    · exact h.nodup i entry hold
    · exact List.nodup_nil
  · intro c entry hpos hentry hentryEnv
    rcases getElem?_push_eq_some hentry with hold | ⟨_, rfl⟩
    · obtain ⟨p, hp⟩ := h.covered c entry hpos hold hentryEnv
      exact ⟨p, hchild.mpr hp⟩
    · cases hentryEnv
  · intro i entry hentry hentryEnv
    rcases getElem?_push_eq_some hentry with hold | ⟨_, rfl⟩
    · exact h.noEnvMenu i entry hold hentryEnv
    · rfl


/-- The namespaces differ in values and display texts only. -/
structure SameTree (ns ns' : Namespace) : Prop where
  hashmap : ns'.hashmap = ns.hashmap
  skeletons : ns'.vector.map ConfigOption.skeleton = ns.vector.map ConfigOption.skeleton

theorem SameTree.symm (h : ns.SameTree ns') : ns'.SameTree ns :=
  ⟨h.hashmap.symm, h.skeletons.symm⟩

theorem SameTree.length (h : ns.SameTree ns') : ns'.vector.length = ns.vector.length := by
  have hlengths := congrArg List.length h.skeletons
  rwa [List.length_map, List.length_map] at hlengths

theorem SameTree.entry (h : ns.SameTree ns') {i : ℕ} {option : ConfigOption}
    (hoption : ns.vector[i]? = some option) :
    ∃ option', ns'.vector[i]? = some option' ∧ option'.skeleton = option.skeleton := by
  have hskeleton : (ns'.vector.map ConfigOption.skeleton)[i]? = some option.skeleton := by
    rw [h.skeletons, List.getElem?_map, hoption]
    rfl
  rw [List.getElem?_map] at hskeleton
  exact Option.map_eq_some_iff.mp hskeleton

theorem SameTree.child (h : ns.SameTree ns') {p c : ℕ} (hc : ns.Child p c) : ns'.Child p c := by
  obtain ⟨option, hoption, hmem⟩ := hc
  obtain ⟨option', hoption', hskeleton⟩ := h.entry hoption
  exact ⟨option', hoption', by rwa [children_eq hskeleton]⟩

theorem SameTree.child_iff (h : ns.SameTree ns') {p c : ℕ} : ns'.Child p c ↔ ns.Child p c :=
  ⟨h.symm.child, h.child⟩

theorem SameTree.linked (h : ns.SameTree ns') (hlinked : ns.Linked) : ns'.Linked := by
  have hkeeps : ns.Keeps ns' := by
    intro i option hoption
    obtain ⟨option', hoption', hskeleton⟩ := h.entry hoption
    exact ⟨option', hoption', isEnv_eq hskeleton, isMenu_eq hskeleton, depends_eq hskeleton⟩
  obtain ⟨root, hroot, hrootEnv, hrootDepends⟩ := hlinked.root
  obtain ⟨root', hroot', henv, _, hdepends⟩ := hkeeps 0 root hroot
  refine ⟨⟨root', hroot', henv.trans hrootEnv, hdepends.trans hrootDepends⟩,
    fun p c hc => hlinked.before p c (h.child_iff.mp hc), ?_,
    fun p c hc => hkeeps.isParent (hlinked.parent p c (h.child_iff.mp hc)),
    fun p q c hp hq => hlinked.unique p q c (h.child_iff.mp hp) (h.child_iff.mp hq), ?_, ?_, ?_, ?_⟩
  · intro p c hc
    obtain ⟨old, hentry, hold⟩ := hlinked.inside p c (h.child_iff.mp hc)
    obtain ⟨new, hnew, hnewEnv, _⟩ := hkeeps c old hentry
    exact ⟨new, hnew, hnewEnv.trans hold⟩
  · intro i entry hentry
    obtain ⟨old, hold, hskeleton⟩ := h.symm.entry hentry
    rw [← children_eq hskeleton]
    exact hlinked.nodup i old hold
  · intro c entry hpos hentry hentryEnv
    obtain ⟨old, hold, hskeleton⟩ := h.symm.entry hentry
    obtain ⟨p, hp⟩ := hlinked.covered c old hpos hold ((isEnv_eq hskeleton).trans hentryEnv)
    exact ⟨p, h.child hp⟩
  · intro i entry hentry hentryEnv
    obtain ⟨old, hold, hskeleton⟩ := h.symm.entry hentry
    rw [← isMenu_eq hskeleton]
    exact hlinked.noEnvMenu i old hold ((isEnv_eq hskeleton).trans hentryEnv)
  · intro key idx hkey
    rw [h.hashmap] at hkey
    rw [h.length]
    exact hlinked.mapped key idx hkey

theorem sameTree_proj (display : Text) :
    ns.SameTree { ns with
      vector := ns.vector.modify 0 fun root => { root with display := display } } := by
  refine ⟨rfl, List.ext_getElem? fun i => ?_⟩
  dsimp only
  rw [List.getElem?_map, List.getElem?_map, List.getElem?_modify]
  cases ns.vector[i]? with
  | none => rfl
  | some option =>
      by_cases hi : 0 = i
      · subst hi
        rfl
      · simp [hi]

theorem Linked.grows (h : ns.Linked) (hstep : Grows Ident ns ns') : ns'.Linked := by
  cases hstep with
  | option option parentIdx _ _ hleaf hnotEnv _ hparent =>
      exact h.option hleaf hnotEnv hparent option.name
  | env ident val => exact h.env ident val
  | proj display => exact (sameTree_proj display).linked h
  | file path =>
      exact ⟨h.root, h.before, h.inside, h.parent, h.unique, h.nodup, h.covered, h.noEnvMenu,
        h.mapped⟩

/-- The children lists of a parsed namespace form a tree. -/
theorem Linked.growsTo {lexers : Lexers} (h : ns.Linked) (hrun : ns.GrowsTo lexers ns') :
    ns'.Linked := by
  induction hrun with
  | refl => exact h
  | tail _ hstep ih => exact ih.grows hstep

end Namespace

end Uconfig
end Utopia
