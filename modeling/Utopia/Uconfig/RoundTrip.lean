/-
What `import` restores of what `export` wrote.
-/
import Utopia.Uconfig.ConfigLexer
import Utopia.Uconfig.Names
import Utopia.Uconfig.OptionTypes
import Utopia.Uconfig.SameBasic
import Mathlib.Data.List.Sort

namespace Utopia
namespace Uconfig

/-! ### The import of written lines -/

/-- The value that the importer reads for a written value. -/
def readValue : BasicValue → Value
  | .bool b => .bool b
  | .int v => .int v
  | .string s => .string (escapeC s)

/-- The entry at index `i` after the line of `option` is read. -/
def restore (hashmap : Text → Option ℕ) (i : ℕ) (entry option : ConfigOption) : ConfigOption :=
  if option.current = .null ∨ hashmap option.name ≠ some i then entry
  else
    match option.current.toBasic with
    | none => entry
    | some value => importValue (readValue value) entry

/-- `ns'` is `ns` after the lines of `options` are read. -/
structure Restored (ns ns' : Namespace) (options : List ConfigOption) : Prop where
  hashmap : ns'.hashmap = ns.hashmap
  entries : ∀ i : ℕ, ns'.vector[i]? =
    (ns.vector[i]?).map fun entry => options.foldl (restore ns.hashmap i) entry

theorem restored_nil (ns : Namespace) : Restored ns ns [] :=
  ⟨rfl, fun i => by cases ns.vector[i]? <;> rfl⟩

theorem Restored.append {ns ns' ns'' : Namespace} {options options' : List ConfigOption}
    (h : Restored ns ns' options) (h' : Restored ns' ns'' options') :
    Restored ns ns'' (options ++ options') := by
  refine ⟨h'.hashmap.trans h.hashmap, fun i => ?_⟩
  rw [h'.entries, h.entries, h.hashmap, Option.map_map]
  cases ns.vector[i]? with
  | none => rfl
  | some entry =>
      rw [Option.map_some, Option.map_some, Function.comp_apply, List.foldl_append]

theorem Restored.eq {ns ns' : Namespace} {options : List ConfigOption}
    (h : Restored ns ns' options) (hfiles : ns'.parsedFiles = ns.parsedFiles) :
    ns' = { ns with
      vector := ns.vector.mapIdx fun i entry => options.foldl (restore ns.hashmap i) entry } := by
  have hvector : ns'.vector =
      ns.vector.mapIdx fun i entry => options.foldl (restore ns.hashmap i) entry := by
    refine List.ext_getElem? fun i => ?_
    rw [List.getElem?_mapIdx, h.entries]
  obtain ⟨files, hashmap, vector⟩ := ns'
  rw [← hvector, ← hfiles, ← h.hashmap]

theorem restored_of_unread {ns : Namespace} {option : ConfigOption}
    (h : ∀ i entry, restore ns.hashmap i entry option = entry) : Restored ns ns [option] := by
  refine ⟨rfl, fun i => ?_⟩
  cases ns.vector[i]? with
  | none => rfl
  | some entry =>
      rw [Option.map_some, List.foldl_cons, List.foldl_nil, h]

theorem importToken_literalOf (s : ImportState) (value : BasicValue) :
    importToken s (.ok (literalOf value)) = importLiteral s (readValue value) := by
  cases value <;> rfl

/-- A line that is read after no key. -/
theorem import_line {s : ImportState} (option : ConfigOption) (hkey : s.lastTokenWasKey = false) :
    let s' := (lineTokens option).foldl importToken s
    s'.lastTokenWasKey = false ∧ Restored s.ns s'.ns [option] := by
  rw [lineTokens]
  split_ifs with hnull
  · exact ⟨hkey, restored_of_unread fun i entry => if_pos (Or.inl hnull)⟩
  · cases hbasic : option.current.toBasic with
    | none =>
        refine ⟨hkey, restored_of_unread fun i entry => ?_⟩
        rw [restore, hbasic]
        split_ifs <;> rfl
    | some value =>
        dsimp only
        rw [List.foldl_cons, List.foldl_cons, List.foldl_cons, List.foldl_nil,
          importToken_literalOf]
        cases hidx : s.ns.hashmap option.name with
        | none =>
            have hunread : ∀ i entry, restore s.ns.hashmap i entry option = entry := by
              intro i entry
              refine if_pos (Or.inr fun hsome => ?_)
              rw [hidx] at hsome
              cases hsome
            simp only [importToken, importLiteral, if_true, hidx]
            exact ⟨trivial, restored_of_unread hunread⟩
        | some idx =>
            simp only [importToken, importLiteral, if_true, hidx]
            refine ⟨trivial, rfl, fun i => ?_⟩
            dsimp only
            rw [List.getElem?_modify]
            cases s.ns.vector[i]? with
            | none => rfl
            | some entry =>
                rw [Option.map_some, List.foldl_cons, List.foldl_nil, restore, hidx, hbasic]
                by_cases hi : idx = i
                · simp [hi, hnull]
                · simp [hi]

/-- All lines. -/
theorem import_lines {s : ImportState} (options : List ConfigOption)
    (hkey : s.lastTokenWasKey = false) :
    Restored s.ns ((options.flatMap lineTokens).foldl importToken s).ns options := by
  induction options generalizing s with
  | nil => exact restored_nil s.ns
  | cons option options ih =>
      obtain ⟨hkey', hline⟩ := import_line option hkey
      rw [List.flatMap_cons, List.foldl_append]
      exact hline.append (ih hkey')

/-! ### Which entries the lines reach -/

/-- A text that `escape_c` leaves as it is. -/
def Plain (s : Text) : Prop := ∀ c ∈ s, c ∉ ['\\', '"', '\n', '\r', '\t']

theorem escapeC_eq_self {s : Text} (h : Plain s) : escapeC s = s := by
  induction s with
  | nil => rfl
  | cons c s ih =>
      have hc : escapeChar c = [c] := by
        have hnot := h c List.mem_cons_self
        simp only [List.mem_cons, List.not_mem_nil, or_false, not_or] at hnot
        obtain ⟨hbackslash, hquote, hnewline, hreturn, htab⟩ := hnot
        rw [escapeChar, if_neg hbackslash, if_neg hquote, if_neg hnewline, if_neg hreturn,
          if_neg htab]
      rw [escapeC, List.flatMap_cons, hc, ← escapeC,
        ih fun d hd => h d (List.mem_cons_of_mem _ hd)]
      rfl

/-- The value is written as it is. -/
def BasicValue.Plain : BasicValue → Prop
  | .string s => Uconfig.Plain s
  | _ => True

theorem toBasic_readValue {value : BasicValue} (h : value.Plain) :
    (readValue value).toBasic = some value := by
  cases value with
  | string s =>
      change some (BasicValue.string (escapeC s)) = _
      rw [escapeC_eq_self h]
  | _ => rfl

theorem importValue_eq_setCurrent {value : Value} {entry : ConfigOption}
    (hkind : entry.current.kind = value.kind) (hplain : value.kind ≠ .selection) :
    importValue value entry = { entry with current := value } := by
  unfold importValue
  split
  · next selection hselection =>
      rw [hselection] at hkind
      exact absurd hkind.symm hplain
  · rw [if_neg (not_not.mpr hkind)]

theorem importValue_eq_self {value : Value} {entry : ConfigOption}
    (hkind : entry.current.kind ≠ value.kind) (hplain : entry.current.kind ≠ .selection) :
    importValue value entry = entry := by
  unfold importValue
  split
  · next selection hselection => exact absurd (congrArg Value.kind hselection) hplain
  · rw [if_pos hkind]

theorem importValue_selection {value : Value} {entry : ConfigOption} {selection : SelectOption}
    (hcurrent : entry.current = .selection selection) :
    importValue value entry =
      match selection.values.findIdx? fun candidate => some candidate = value.toBasic with
      | none => entry
      | some selected =>
          { entry with current := .selection { selection with selected := selected } } := by
  unfold importValue
  split
  · next found hfound =>
      cases hcurrent.symm.trans hfound
      rfl
  · next hnot => exact absurd hcurrent (hnot selection)

/-- Reading a value twice is reading it once. -/
theorem importValue_importValue (value : Value) (entry : ConfigOption) :
    importValue value (importValue value entry) = importValue value entry := by
  by_cases hselection : entry.current.kind = .selection
  · obtain ⟨selection, hcurrent⟩ : ∃ selection, entry.current = .selection selection := by
      cases hcurrent : entry.current with
      | selection selection => exact ⟨selection, rfl⟩
      | _ =>
          rw [hcurrent] at hselection
          cases hselection
    rw [importValue_selection hcurrent]
    split
    · next hfound => rw [importValue_selection hcurrent, hfound]
    · next selected hfound => rw [importValue_selection rfl, hfound]
  · by_cases hkind : entry.current.kind = value.kind
    · have hplain : value.kind ≠ .selection := hkind ▸ hselection
      rw [importValue_eq_setCurrent hkind hplain]
      have hagain : ({ entry with current := value } : ConfigOption).current.kind = value.kind := rfl
      rw [importValue_eq_setCurrent hagain hplain]
    · rw [importValue_eq_self hkind hselection, importValue_eq_self hkind hselection]

theorem ConfigOption.Assigned.sameBasic {option₀ option : ConfigOption} {value : Value}
    (h : option₀.Assigned option) (hkind : value.kind = option.current.kind)
    (hbasic : value.toBasic = option.current.toBasic) :
    option.SameBasic { option₀ with current := value } :=
  ⟨h.skeleton.symm, hkind, hbasic⟩

/-- The importer restores a plain value. -/
theorem ConfigOption.Assigned.restored {option₀ option : ConfigOption}
    (h : option₀.Assigned option) {value : BasicValue}
    (hbasic : option.current.toBasic = some value) (hplain : value.Plain)
    (hnull : option.current ≠ .null) :
    option.SameBasic (Uconfig.importValue (readValue value) option₀) := by
  have hread := toBasic_readValue hplain
  have hadmits := h.1
  by_cases hselection : option.current.kind = .selection
  · generalize hnew : option.current = new at hadmits hselection
    generalize hold : option₀.current = old at hadmits
    cases hadmits with
    | selection v selected inside =>
        rw [hnew] at hbasic
        obtain ⟨hlt, hget⟩ := List.getElem?_eq_some_iff.mp hbasic
        have hfound : (v.values.findIdx?
            (fun candidate => some candidate = (readValue value).toBasic)).isSome := by
          refine List.findIdx?_isSome.trans (List.any_eq_true.mpr ?_)
          exact ⟨value, hget ▸ List.getElem_mem hlt, by simp [hread]⟩
        obtain ⟨idx, hidx⟩ := Option.isSome_iff_exists.mp hfound
        obtain ⟨hidxlt, hmatch, _⟩ := List.findIdx?_eq_some_iff_getElem.mp hidx
        rw [hread, decide_eq_true_iff] at hmatch
        rw [importValue_selection hold, hidx]
        refine h.sameBasic (by rw [hnew]; rfl) ?_
        rw [hnew, hbasic]
        exact (List.getElem?_eq_getElem hidxlt).trans hmatch
    | _ => cases hselection
  · have hreadKind : (readValue value).kind = option.current.kind := by
      cases hnew : option.current with
      | null => exact absurd hnew hnull
      | selection v =>
          rw [hnew] at hselection
          exact absurd rfl hselection
      | _ =>
          rw [hnew] at hbasic
          cases hbasic
          rfl
    rw [importValue_eq_setCurrent (hadmits.kind.symm.trans hreadKind.symm)
      (hreadKind ▸ hselection)]
    exact h.sameBasic hreadKind (hread.trans hbasic.symm)

/-! ### The lines of one entry -/

section

variable {hashmap : Text → Option ℕ} {options : List ConfigOption} {i : ℕ}

/-- No line reaches the entry. -/
theorem foldl_restore_unread
    (h : ∀ option ∈ options, option.current = .null ∨ hashmap option.name ≠ some i)
    (entry : ConfigOption) : options.foldl (restore hashmap i) entry = entry := by
  induction options with
  | nil => rfl
  | cons option options ih =>
      have hskip : restore hashmap i entry option = entry := if_pos (h option List.mem_cons_self)
      rw [List.foldl_cons, hskip]
      exact ih fun other hother => h other (List.mem_cons_of_mem _ hother)

theorem restore_own {entry option : ConfigOption} {value : BasicValue}
    (hnull : option.current ≠ .null) (hown : hashmap option.name = some i)
    (hbasic : option.current.toBasic = some value) :
    restore hashmap i entry option = importValue (readValue value) entry := by
  rw [restore, if_neg (not_or.mpr ⟨hnull, not_not.mpr hown⟩), hbasic]

/-- Only the line of `option` reaches the entry. -/
theorem foldl_restore_own {option : ConfigOption} {value : BasicValue}
    (hnull : option.current ≠ .null) (hown : hashmap option.name = some i)
    (hbasic : option.current.toBasic = some value)
    (hothers : ∀ other ∈ options, other = option ∨ hashmap other.name ≠ some i)
    (entry : ConfigOption) :
    options.foldl (restore hashmap i) entry = entry ∧ option ∉ options ∨
      options.foldl (restore hashmap i) entry = importValue (readValue value) entry := by
  induction options using List.reverseRecOn with
  | nil => exact Or.inl ⟨rfl, List.not_mem_nil⟩
  | append_singleton options last ih =>
      have hlast := hothers last (List.mem_append_right _ (List.mem_singleton_self last))
      have hprefix := ih fun other hother => hothers other (List.mem_append_left _ hother)
      rw [List.foldl_append, List.foldl_cons, List.foldl_nil]
      rcases hlast with rfl | hskip
      · right
        rw [restore_own hnull hown hbasic]
        rcases hprefix with ⟨hfold, _⟩ | hfold
        · rw [hfold]
        · rw [hfold, importValue_importValue]
      · rw [restore, if_pos (Or.inr hskip)]
        refine hprefix.imp_left fun ⟨hfold, hnew⟩ => ⟨hfold, fun hmem => ?_⟩
        rcases List.mem_append.mp hmem with hold | heq
        · exact hnew hold
        · rw [List.mem_singleton.mp heq] at hown
          exact hskip hown

end

/-! ### The text -/

section

variable {lexers : Lexers}

theorem lex_preamble (hlex : lexers.Generated) {rest : Text} (hrest : Clear rest) :
    lexers.config (configPreamble.toList ++ rest) = lexers.config rest := by
  have hsplit : configPreamble.toList ++ rest =
      '#' :: " This file was autogenerated by uconfig, please do not edit".toList ++
        '\n' :: ('#' :: " it manually!".toList ++ '\n' :: (['\n'] ++ rest)) := by
    simp [configPreamble]
  have hclear : ∀ text, Clear ('#' :: text) := by
    intro text c hc
    cases hc
    decide
  have hblank : lexers.config ('\n' :: (['\n'] ++ rest)) = lexers.config rest :=
    lex_spaces hlex ['\n', '\n'] (by decide) hrest
  have htext : " it manually!".toList.all (· ≠ '\n') = true := by decide
  have hsecond := lex_comment hlex htext (['\n'] ++ rest)
  have hfirst := lex_newline hlex
    (hclear (" it manually!".toList ++ '\n' :: (['\n'] ++ rest)))
  rw [hsplit, lex_comment hlex (by decide)]
  exact hfirst.trans (hsecond.trans hblank)

/-- What `import` makes of the text of some options. -/
theorem import_text (hlex : lexers.Generated) (ns : Namespace) {options : List ConfigOption}
    (hnames : ∀ option ∈ options, identifierWord option.name = true ∧
      booleanWord option.name = false) :
    Restored ns (importConfig lexers ns
      (configPreamble.toList ++ options.flatMap (textOf configLine))) options := by
  obtain ⟨hlines, hclear⟩ := lex_lines hlex hnames
  have htokens : lexers.config (configPreamble.toList ++ options.flatMap (textOf configLine)) =
      options.flatMap lineTokens := (lex_preamble hlex hclear).trans hlines
  rw [importConfig, htokens]
  exact import_lines (s := ⟨ns, false, []⟩) options rfl

theorem lines_congr (ns ns' : Namespace) {indices : List ℕ}
    (h : ∀ i ∈ indices, ∃ option option', ns.vector[i]? = some option ∧
      ns'.vector[i]? = some option' ∧ option.SameBasic option') :
    (indices.filterMap (ns'.vector[·]?)).flatMap (textOf configLine) =
      (indices.filterMap (ns.vector[·]?)).flatMap (textOf configLine) := by
  induction indices with
  | nil => rfl
  | cons i indices ih =>
      obtain ⟨option, option', hoption, hoption', hsame⟩ := h i List.mem_cons_self
      rw [List.filterMap_cons_some hoption, List.filterMap_cons_some hoption', List.flatMap_cons,
        List.flatMap_cons, ih fun j hj => h j (List.mem_cons_of_mem _ hj), textOf, textOf,
        hsame.configLine]

end

namespace Namespace

variable {lexers : Lexers} {env : Environment} {ns₀ ns : Namespace}

/-- An exported option keeps its label. -/
theorem Assigned.label (h : ns₀.Assigned ns) {i : ℕ} {option : ConfigOption}
    (hoption : ns.vector[i]? = some option) (hexported : ns.Exported lexers i) :
    i ≠ 0 ∧ ns₀.labels[i]? = some (option.name, false) := by
  obtain ⟨option', hoption', hpos, hnotEnv, _⟩ := hexported
  rw [hoption] at hoption'
  cases hoption'
  obtain ⟨option₀, hoption₀, hassigned⟩ := h.entry hoption
  refine ⟨hpos, ?_⟩
  rw [labels, List.getElem?_map, hoption₀, Option.map_some, ConfigOption.label,
    ← name_eq hassigned.skeleton, ← isEnv_eq hassigned.skeleton, hnotEnv]

/-- The name still leads to the option, and what is written of it needs no escape. -/
def Restorable (ns₀ : Namespace) (i : ℕ) (option : ConfigOption) : Prop :=
  ns₀.hashmap option.name = some i ∧ ∀ value, option.current.toBasic = some value → value.Plain

open Classical in
/-- `ns` with the values of `ns₀` in the options that are not exported. -/
noncomputable def resetHidden (lexers : Lexers) (ns₀ ns : Namespace) : Namespace :=
  { ns₀ with
    vector := ns₀.vector.mapIdx fun i option₀ =>
      if ns.Exported lexers i then (ns.vector[i]?).getD option₀ else option₀ }

/-- The entries of the other options stay as they are. -/
theorem entry_eq_of_not_exported {ns' : Namespace} {indices : List ℕ}
    (hrestored : Restored ns₀ ns' (indices.filterMap (ns.vector[·]?)))
    (hindices : ∀ i, i ∈ indices ↔ ns.Exported lexers i)
    (hall : ∀ (i : ℕ) (option : ConfigOption), ns.vector[i]? = some option →
      ns.Exported lexers i → ns₀.Restorable i option)
    {i : ℕ} (hi : ¬ ns.Exported lexers i) : ns'.vector[i]? = ns₀.vector[i]? := by
  rw [hrestored.entries]
  cases ns₀.vector[i]? with
  | none => rfl
  | some option₀ =>
      rw [Option.map_some, foldl_restore_unread]
      intro other hmem
      obtain ⟨j, hj, hother⟩ := List.mem_filterMap.mp hmem
      have hexported := (hindices j).mp hj
      right
      rw [(hall j other hother hexported).1]
      rintro ⟨⟩
      exact hi hexported

section

variable (h : ns₀.Parsed lexers env) (hassigned : ns₀.Assigned ns)
include h hassigned

/-- Exported options with one name are one option. -/
theorem Parsed.exported_unique {i j : ℕ} {option other : ConfigOption}
    (hoption : ns.vector[i]? = some option) (hi : ns.Exported lexers i)
    (hother : ns.vector[j]? = some other) (hj : ns.Exported lexers j)
    (hmapped : ns₀.hashmap other.name = some i) : other = option := by
  obtain ⟨hpos, hlabel⟩ := hassigned.label hoption hi
  obtain ⟨hpos', hlabel'⟩ := hassigned.label hother hj
  obtain ⟨_, _, hkeyed⟩ := h.labelled.keyed other.name i hmapped
  have hname := hkeyed option.name hlabel
  rw [hname] at hlabel
  have hij := h.labelled.distinct i j other.name hpos hpos' hlabel hlabel'
  rw [← hij, hoption] at hother
  cases hother
  rfl

/-- The import of the exported lines restores a restorable option. -/
theorem Parsed.restored {ns' : Namespace} {indices : List ℕ}
    (hindices : ∀ i, i ∈ indices ↔ ns.Exported lexers i)
    (hrestored : Restored ns₀ ns' (indices.filterMap (ns.vector[·]?)))
    {i : ℕ} {option : ConfigOption} (hoption : ns.vector[i]? = some option)
    (hi : ns.Exported lexers i) (hrestorable : ns₀.Restorable i option) :
    ∃ option', ns'.vector[i]? = some option' ∧ option.SameBasic option' := by
  obtain ⟨option₀, hoption₀, hentry⟩ := hassigned.entry hoption
  obtain ⟨hown, hplain⟩ := hrestorable
  have hothers : ∀ other ∈ indices.filterMap (ns.vector[·]?),
      other = option ∨ ns₀.hashmap other.name ≠ some i := by
    intro other hmem
    obtain ⟨j, hj, hother⟩ := List.mem_filterMap.mp hmem
    by_cases hmapped : ns₀.hashmap other.name = some i
    · exact Or.inl
        (h.exported_unique hassigned hoption hi hother ((hindices j).mp hj) hmapped)
    · exact Or.inr hmapped
  have hwritten : option ∈ indices.filterMap (ns.vector[·]?) :=
    List.mem_filterMap.mpr ⟨i, (hindices i).mpr hi, hoption⟩
  refine ⟨_, (hrestored.entries i).trans (congrArg _ hoption₀), ?_⟩
  dsimp only
  by_cases hnull : option.current = .null
  · rw [foldl_restore_unread fun other hother => (hothers other hother).imp_left
      (fun heq => by rw [heq]; exact hnull)]
    have hkind := hentry.1.kind
    have hnull₀ : option₀.current = .null := by
      rw [← kind_eq_null_iff, ← hkind, hnull]
      rfl
    exact ⟨hentry.skeleton.symm, hkind.symm, by rw [hnull, hnull₀]⟩
  · have hevaluable := (hassigned.typed h.typed).evaluable (hassigned.sameTree.linked h.linked).mapped
    obtain ⟨value, hbasic⟩ := Option.isSome_iff_exists.mp
      (hevaluable.basic option (List.mem_of_getElem? hoption))
    rcases foldl_restore_own hnull hown hbasic hothers option₀ with ⟨_, hnew⟩ | hfold
    · exact absurd hwritten hnew
    · rw [hfold]
      exact hentry.restored hbasic (hplain value hbasic) hnull

/-- After the import the options have the values of `resetHidden`. -/
theorem Parsed.sameBasic_resetHidden {ns' : Namespace} {indices : List ℕ}
    (hindices : ∀ i, i ∈ indices ↔ ns.Exported lexers i)
    (hrestored : Restored ns₀ ns' (indices.filterMap (ns.vector[·]?)))
    (hassigned' : ns₀.Assigned ns')
    (hall : ∀ (i : ℕ) (option : ConfigOption), ns.vector[i]? = some option →
      ns.Exported lexers i → ns₀.Restorable i option) :
    (resetHidden lexers ns₀ ns).SameBasic ns' := by
  refine sameBasic_of_entries hrestored.hashmap ?_ fun i option option' hreset hoption' => ?_
  · rw [resetHidden, List.length_mapIdx]
    exact hassigned'.options.length_eq.symm
  · rw [resetHidden, List.getElem?_mapIdx] at hreset
    obtain ⟨option₀, hoption₀, hchosen⟩ := Option.map_eq_some_iff.mp hreset
    split_ifs at hchosen with hexported
    · obtain ⟨current, hcurrent, _⟩ := id hexported
      rw [hcurrent, Option.getD_some] at hchosen
      cases hchosen
      obtain ⟨restored, hat, hsame⟩ := h.restored hassigned hindices hrestored hcurrent hexported
        (hall i _ hcurrent hexported)
      rw [hat] at hoption'
      cases hoption'
      exact hsame
    · rw [entry_eq_of_not_exported hrestored hindices hall hexported, hoption₀] at hoption'
      cases hoption'
      cases hchosen
      exact ConfigOption.sameBasic_refl _

end

/-- Importing an exported text gives the exported options their basic values back, unless a
value was written with escapes or an environment variable took the option's name. If, then,
no option comes into sight or out of it when the hidden options get their defaults back, the
next export writes the same text. -/
theorem Parsed.roundTrip (hgenerated : lexers.Generated) (h : ns₀.Parsed lexers env)
    (hassigned : ns₀.Assigned ns) :
    ∃ text, exportConfig lexers ns = some text ∧
      (∀ (i : ℕ) (option : ConfigOption), ns.vector[i]? = some option → ns.Exported lexers i →
        ns₀.Restorable i option →
        ∃ option', (importConfig lexers ns₀ text).vector[i]? = some option' ∧
          option'.current.toBasic = option.current.toBasic) ∧
      ((∀ (i : ℕ) (option : ConfigOption), ns.vector[i]? = some option → ns.Exported lexers i →
          ns₀.Restorable i option) →
        (∀ i, (resetHidden lexers ns₀ ns).Exported lexers i ↔ ns.Exported lexers i) →
        exportConfig lexers (importConfig lexers ns₀ text) = some text) := by
  obtain ⟨_, indices, hsorted, hmem, options, rfl, _, hexport, _⟩ := h.exports hassigned
  have hnames : ∀ option ∈ indices.filterMap (ns.vector[·]?),
      identifierWord option.name = true ∧ booleanWord option.name = false := by
    intro option hoption
    obtain ⟨i, hi, hentry⟩ := List.mem_filterMap.mp hoption
    obtain ⟨hpos, hlabel⟩ := hassigned.label hentry ((hmem i).mp hi)
    exact hgenerated.names _ (h.labelled.ident i _ hpos hlabel).1
  have hrestored := import_text hgenerated ns₀ hnames
  have hassigned' : ns₀.Assigned (importConfig lexers ns₀ (configPreamble.toList ++
      (indices.filterMap (ns.vector[·]?)).flatMap (textOf configLine))) :=
    h.typed.assigned_self.importConfig _
  refine ⟨_, hexport, fun i option hoption hi hrestorable => ?_, fun hall hsight => ?_⟩
  · obtain ⟨option', hoption', hsame⟩ :=
      h.restored hassigned hmem hrestored hoption hi hrestorable
    exact ⟨option', hoption', hsame.basic⟩
  · obtain ⟨_, indices', hsorted', hmem', options', rfl, _, hexport', _⟩ := h.exports hassigned'
    have hreset := h.sameBasic_resetHidden hassigned hmem hrestored hassigned' hall
    have hindices : indices' = indices := by
      refine hsorted'.eq_of_mem_iff hsorted fun i => ?_
      rw [hmem', hmem, hreset.exported_iff, hsight]
    rw [hexport', hindices, lines_congr ns _ fun i hi => ?_]
    have hexported := (hmem i).mp hi
    obtain ⟨option, hoption, _⟩ := id hexported
    obtain ⟨option', hoption', hsame⟩ :=
      h.restored hassigned hmem hrestored hoption hexported (hall i option hoption hexported)
    exact ⟨option, option', hoption, hoption', hsame⟩

/-- Resetting changes nothing where only exported options have other values. -/
theorem resetHidden_sameBasic (hassigned : ns₀.Assigned ns)
    (h : ∀ (i : ℕ) (option₀ : ConfigOption), ns₀.vector[i]? = some option₀ →
      ns.Exported lexers i ∨ ns.vector[i]? = some option₀) :
    ns.SameBasic (resetHidden lexers ns₀ ns) := by
  refine sameBasic_of_entries hassigned.hashmap.symm ?_ fun i option option' hoption hreset => ?_
  · rw [resetHidden, List.length_mapIdx]
    exact hassigned.options.length_eq
  · rw [resetHidden, List.getElem?_mapIdx] at hreset
    obtain ⟨option₀, hoption₀, hchosen⟩ := Option.map_eq_some_iff.mp hreset
    split_ifs at hchosen with hexported
    · rw [hoption, Option.getD_some] at hchosen
      cases hchosen
      exact ConfigOption.sameBasic_refl _
    · have hdefault := (h i option₀ hoption₀).resolve_left hexported
      rw [hoption] at hdefault
      cases hdefault
      cases hchosen
      exact ConfigOption.sameBasic_refl _

/-- Where every entry passes its `depends`, every option is exported. -/
theorem exported_of_valid
    (h : ∀ option ∈ ns.vector, valid lexers ns option = some .passed) {i : ℕ}
    {option : ConfigOption} (hoption : ns.vector[i]? = some option) (hpos : i ≠ 0)
    (hnotEnv : option.isEnv = false) : ns.Exported lexers i := by
  refine ⟨option, hoption, hpos, hnotEnv, fun a ha => ?_⟩
  rcases ha.cases_head with rfl | ⟨b, ⟨ancestor, hancestor, _⟩, _⟩
  · exact ⟨option, hoption, h option (List.mem_of_getElem? hoption)⟩
  · exact ⟨ancestor, hancestor, h ancestor (List.mem_of_getElem? hancestor)⟩

/-- Other values for the entries, in the order of the vector. -/
def withValues (ns : Namespace) (values : List Value) : Namespace :=
  { ns with
    vector := List.zipWith (fun option value => { option with current := value }) ns.vector
      values }

theorem assigned_withValues {values : List Value}
    (h : List.Forall₂ (fun option value => option.current.Admits value) ns.vector values) :
    ns.Assigned (ns.withValues values) := by
  refine ⟨rfl, rfl, ?_⟩
  rw [withValues]
  dsimp only
  generalize ns.vector = options at h ⊢
  induction h with
  | nil => exact .nil
  | cons hadmits _ ih => exact .cons ⟨hadmits, rfl⟩ ih

end Namespace

/-! ### A hidden option that another one depends on -/

/-- The lexers on the file
```
opt CONFIG_SOUND(bool) { display: "Sound" default: true }
opt CONFIG_CARDS(null) -> menu { display: "Cards" depends: [CONFIG_SOUND] }
opt CONFIG_HDA(bool) { display: "HDA" default: false within: CONFIG_CARDS }
opt CONFIG_HDMI(bool) { display: "HDMI" default: false depends: [CONFIG_HDA] }
``` -/
def soundLexers : Lexers where
  token _ :=
    [.ok .opt, .ok (.identifier "CONFIG_SOUND".toList), .ok .parenOpen, .ok .typeBool,
      .ok .parenClose, .ok .braceOpen, .ok .display, .ok .colon, .ok (.string "Sound".toList),
      .ok .default, .ok .colon, .ok (.bool true), .ok .braceClose,
      .ok .opt, .ok (.identifier "CONFIG_CARDS".toList), .ok .parenOpen, .ok .typeNull,
      .ok .parenClose, .ok .arrow, .ok .menu, .ok .braceOpen, .ok .display, .ok .colon,
      .ok (.string "Cards".toList), .ok .depends, .ok .colon,
      .ok (.expression "CONFIG_SOUND".toList), .ok .braceClose,
      .ok .opt, .ok (.identifier "CONFIG_HDA".toList), .ok .parenOpen, .ok .typeBool,
      .ok .parenClose, .ok .braceOpen, .ok .display, .ok .colon, .ok (.string "HDA".toList),
      .ok .default, .ok .colon, .ok (.bool false), .ok .within, .ok .colon,
      .ok (.identifier "CONFIG_CARDS".toList), .ok .braceClose,
      .ok .opt, .ok (.identifier "CONFIG_HDMI".toList), .ok .parenOpen, .ok .typeBool,
      .ok .parenClose, .ok .braceOpen, .ok .display, .ok .colon, .ok (.string "HDMI".toList),
      .ok .default, .ok .colon, .ok (.bool false), .ok .depends, .ok .colon,
      .ok (.expression "CONFIG_HDA".toList), .ok .braceClose]
  expression text := [.ok (.identifier text)]
  config := LexRule.lexWith configRules (.error .unknownToken)

def soundEnvironment : Environment where
  canonicalize file := some file
  readToString _ := some []
  var _ := none

def soundNamespace : Namespace :=
  match parse soundLexers soundEnvironment 1 "Uconfig".toList Namespace.default with
  | .ok ns => ns
  | .error _ => Namespace.default

theorem soundNamespace_parsed : soundNamespace.Parsed soundLexers soundEnvironment :=
  ⟨1, "Uconfig".toList, rfl⟩

theorem soundLexers_generated : soundLexers.Generated where
  config := LexRule.lexWith_lexesBy _
  names name hname := by
    obtain ⟨_, hmem⟩ := hname
    simp only [soundLexers, List.mem_cons, Except.ok.injEq, Token.identifier.injEq, reduceCtorEq,
      List.not_mem_nil, or_false, false_or] at hmem
    rcases hmem with rfl | rfl | rfl | rfl | rfl <;> decide

/-- Everything is on. -/
def soundOn : Namespace :=
  soundNamespace.withValues [.null, .bool true, .null, .bool true, .bool true]

theorem soundOn_assigned : soundNamespace.Assigned soundOn :=
  Namespace.assigned_withValues
    (.cons .null (.cons (.bool _ _) (.cons .null (.cons (.bool _ _) (.cons (.bool _ _) .nil)))))

theorem soundOn_exported {i : ℕ} {option : ConfigOption}
    (hoption : soundOn.vector[i]? = some option) (hpos : i ≠ 0) :
    soundOn.Exported soundLexers i := by
  have hvalid : ∀ option ∈ soundOn.vector,
      valid soundLexers soundOn option = some .passed ∧ option.isEnv = false := by
    decide +kernel
  exact Namespace.exported_of_valid (fun option hmem => (hvalid option hmem).1) hoption hpos
    (hvalid option (List.mem_of_getElem? hoption)).2

theorem soundOn_restorable {i : ℕ} {option : ConfigOption}
    (hoption : soundOn.vector[i]? = some option) (hpos : i ≠ 0) :
    soundNamespace.Restorable i option := by
  have hall : ∀ i < 5, ∀ option ∈ soundOn.vector[i]?, i ≠ 0 →
      soundNamespace.hashmap option.name = some i ∧
        ∃ b : Bool, option.current.toBasic = some (.bool b) := by
    decide +kernel
  obtain ⟨hown, b, hb⟩ := hall i (Namespace.lt_length_of_getElem? hoption) option hoption hpos
  refine ⟨hown, fun value hvalue => ?_⟩
  rw [hb] at hvalue
  cases hvalue
  trivial

theorem soundOn_sight (i : ℕ) :
    (Namespace.resetHidden soundLexers soundNamespace soundOn).Exported soundLexers i ↔
      soundOn.Exported soundLexers i := by
  refine (Namespace.resetHidden_sameBasic soundOn_assigned fun i option₀ hoption₀ => ?_).exported_iff
  rcases Nat.eq_zero_or_pos i with rfl | hpos
  · have hroot : soundOn.vector[0]? = soundNamespace.vector[0]? := by decide +kernel
    exact Or.inr (hroot.trans hoption₀)
  · have hlt : i < soundOn.vector.length := by
      rw [← soundOn_assigned.options.length_eq]
      exact Namespace.lt_length_of_getElem? hoption₀
    exact Or.inl (soundOn_exported (List.getElem?_eq_getElem hlt) (Nat.ne_of_gt hpos))

/-- With everything on, the text comes back as it was. -/
theorem soundOn_roundTrip :
    ∃ text, exportConfig soundLexers soundOn = some text ∧
      exportConfig soundLexers (importConfig soundLexers soundNamespace text) = some text := by
  obtain ⟨text, hexport, _, hagain⟩ :=
    Namespace.Parsed.roundTrip soundLexers_generated soundNamespace_parsed soundOn_assigned
  refine ⟨text, hexport, hagain (fun i option hoption hi => ?_) soundOn_sight⟩
  obtain ⟨_, _, hpos, _⟩ := hi
  exact soundOn_restorable hoption hpos

/-- The sound is off, and its hidden card is on. -/
def soundOff : Namespace :=
  soundNamespace.withValues [.null, .bool false, .null, .bool true, .bool false]

/-- What the import of the text of `soundOff` leaves on: nothing. -/
def soundAllOff : Namespace :=
  soundNamespace.withValues [.null, .bool false, .null, .bool false, .bool false]

theorem soundOff_assigned : soundNamespace.Assigned soundOff :=
  Namespace.assigned_withValues
    (.cons .null (.cons (.bool _ _) (.cons .null (.cons (.bool _ _) (.cons (.bool _ _) .nil)))))

theorem soundAllOff_assigned : soundNamespace.Assigned soundAllOff :=
  Namespace.assigned_withValues
    (.cons .null (.cons (.bool _ _) (.cons .null (.cons (.bool _ _) (.cons (.bool _ _) .nil)))))

theorem soundOff_visible :
    visible soundLexers soundOff = some ([1, 4].filterMap (soundOff.vector[·]?)) := by
  decide +kernel

theorem soundAllOff_visible :
    visible soundLexers soundAllOff = some ([1].filterMap (soundAllOff.vector[·]?)) := by
  decide +kernel

theorem soundOff_restored :
    soundAllOff.vector = soundNamespace.vector.mapIdx fun i entry =>
      ([1, 4].filterMap (soundOff.vector[·]?)).foldl (restore soundNamespace.hashmap i) entry := by
  decide +kernel

/-- The card is hidden and not written, so the import turns it off, and with it the option
that depends on it: the second text has a line less. -/
theorem soundOff_not_roundTrip :
    soundLexers.Generated ∧ soundNamespace.Parsed soundLexers soundEnvironment ∧
      soundNamespace.Assigned soundOff ∧
      ∃ text text', exportConfig soundLexers soundOff = some text ∧
        exportConfig soundLexers (importConfig soundLexers soundNamespace text) = some text' ∧
        text' ≠ text := by
  refine ⟨soundLexers_generated, soundNamespace_parsed, soundOff_assigned, ?_⟩
  obtain ⟨_, _, _, _, options, _, hvisible, hexport, _⟩ :=
    soundNamespace_parsed.exports soundOff_assigned
  rw [soundOff_visible] at hvisible
  cases hvisible
  have hnames : ∀ option ∈ [1, 4].filterMap (soundOff.vector[·]?),
      identifierWord option.name = true ∧ booleanWord option.name = false := by
    decide +kernel
  have himport := (import_text soundLexers_generated soundNamespace hnames).eq
    (soundNamespace_parsed.typed.assigned_self.importConfig _).parsedFiles
  rw [← soundOff_restored] at himport
  obtain ⟨_, _, _, _, options', _, hvisible', hexport', _⟩ :=
    soundNamespace_parsed.exports soundAllOff_assigned
  rw [soundAllOff_visible] at hvisible'
  cases hvisible'
  refine ⟨_, _, hexport, (congrArg _ himport).trans hexport', fun heq => ?_⟩
  have hlines := List.append_cancel_left heq
  revert hlines
  decide +kernel

end Uconfig
end Utopia
