/-
Options stay well-typed, whatever is imported and whatever keys are pressed.
-/
import Utopia.Uconfig.Menu
import Utopia.Uconfig.Visible

namespace Utopia
namespace Uconfig

/-! ### Changes at one index -/

theorem ConfigOption.Assigned.setCurrent {option option' : ConfigOption}
    (h : option.Assigned option') {value : Value} (hvalue : option.current.Admits value) :
    option.Assigned { option' with current := value } := by
  refine ⟨hvalue, ?_⟩
  rw [h.2]

theorem ConfigOption.Assigned.importValue {option₀ option : ConfigOption}
    (h : option₀.Assigned option) (value : Value) :
    option₀.Assigned (importValue value option) := by
  have hkind := h.1.kind
  unfold Uconfig.importValue
  split
  · next selection hselection =>
      split
      · exact h
      · next selected hselected =>
          have hadmits := h.1
          rw [hselection] at hadmits
          obtain ⟨hlt, _⟩ := List.findIdx?_eq_some_iff_getElem.mp hselected
          exact h.setCurrent (hadmits.select hlt)
  · next hplain =>
      split_ifs with hother
      · exact h
      · rw [not_not] at hother
        refine h.setCurrent (Value.admits_of_kind _ (hother.symm.trans hkind) ?_)
        rw [← hkind]
        cases hcurrent : option.current with
        | selection v => exact absurd hcurrent (hplain v)
        | _ => exact Kind.noConfusion

namespace Namespace

variable {ns₀ ns ns' : Namespace}

theorem Assigned.entry (h : ns₀.Assigned ns) {i : ℕ} {option : ConfigOption}
    (hoption : ns.vector[i]? = some option) :
    ∃ option₀, ns₀.vector[i]? = some option₀ ∧ option₀.Assigned option := by
  have hlt := lt_length_of_getElem? hoption
  have hlt₀ : i < ns₀.vector.length := by
    rw [h.options.length_eq]
    exact hlt
  have hrelated := h.options.get hlt₀ hlt
  rw [List.getElem?_eq_getElem hlt] at hoption
  cases hoption
  exact ⟨_, List.getElem?_eq_getElem hlt₀, hrelated⟩

/-- A change of the entry at `idx` to another value of its type. -/
theorem Assigned.modify (h : ns₀.Assigned ns) {idx : ℕ} {f : ConfigOption → ConfigOption}
    (hf : ∀ option₀ option, ns₀.vector[idx]? = some option₀ → ns.vector[idx]? = some option →
      option₀.Assigned option → option₀.Assigned (f option)) :
    ns₀.Assigned { ns with vector := ns.vector.modify idx f } := by
  refine ⟨h.parsedFiles, h.hashmap, List.forall₂_iff_get.mpr ⟨?_, ?_⟩⟩
  · rw [h.options.length_eq, List.length_modify]
  · intro i hi hi'
    rw [List.length_modify] at hi'
    have hrelated := h.options.get hi hi'
    rw [List.get_eq_getElem, List.get_eq_getElem] at hrelated ⊢
    rw [List.getElem_modify]
    split_ifs with hidx
    · subst hidx
      exact hf _ _ (List.getElem?_eq_getElem hi) (List.getElem?_eq_getElem hi') hrelated
    · exact hrelated

theorem Assigned.setCurrent (h : ns₀.Assigned ns) {idx : ℕ} {value : Value}
    {option₀ : ConfigOption} (hoption₀ : ns₀.vector[idx]? = some option₀)
    (hvalue : option₀.current.Admits value) (hset : ns.setCurrent idx value = some ns') :
    ns₀.Assigned ns' := by
  unfold Namespace.setCurrent at hset
  split_ifs at hset
  cases hset
  refine h.modify fun option₁ option hoption₁ _ hassigned => ?_
  rw [hoption₀] at hoption₁
  cases hoption₁
  exact hassigned.setCurrent hvalue

/-! ### Import -/

variable {lexers : Lexers}

theorem Assigned.importLiteral {s : ImportState} (h : ns₀.Assigned s.ns) (value : Value) :
    ns₀.Assigned (importLiteral s value).ns := by
  unfold Uconfig.importLiteral
  split_ifs
  · split
    · exact h
    · exact h.modify fun _ _ _ _ hassigned => hassigned.importValue value
  · exact h

theorem Assigned.importToken {s : ImportState} (h : ns₀.Assigned s.ns)
    (token : Except LexError ConfigToken) : ns₀.Assigned (importToken s token).ns := by
  unfold Uconfig.importToken
  split
  · exact h
  · exact h.importLiteral _
  · exact h.importLiteral _
  · exact h.importLiteral _
  · split_ifs <;> exact h
  · exact h

/-- `import` of any text keeps every type. -/
theorem Assigned.importConfig (h : ns₀.Assigned ns) (config : Text) :
    ns₀.Assigned (importConfig lexers ns config) := by
  have hfold : ∀ (tokens : List (Except LexError ConfigToken)) {s : ImportState},
      ns₀.Assigned s.ns → ns₀.Assigned (tokens.foldl Uconfig.importToken s).ns := by
    intro tokens
    induction tokens with
    | nil => exact fun h => h
    | cons token tokens ih => exact fun h => ih (h.importToken token)
  exact hfold _ h

end Namespace

/-! ### Menus -/

/-- An open menu matches the option it edits. -/
def Menu.Fits (ns₀ : Namespace) : Menu → Prop
  | .input menu => ∃ option, ns₀.vector[menu.index]? = some option ∧
      option.current.kind = if menu.isStr then .string else .int
  | .select menu => ∃ option v, ns₀.vector[menu.index]? = some option ∧
      option.current = .selection v ∧ menu.selected < v.values.length ∧
      menu.max < v.values.length
  | .main _ | .help => True

/-- The action opens only a menu that matches its option. -/
def MenuStackAction.Fits (ns₀ : Namespace) : MenuStackAction → Prop
  | .push menu => menu.Fits ns₀
  | .none | .pop => True

section

variable {lexers : Lexers} {ns₀ ns ns' : Namespace} {code : KeyCode} {action : MenuStackAction}

theorem SelectMenu.interact_fits {menu menu' : SelectMenu} (h : ns₀.Assigned ns)
    (hmenu : (Menu.select menu).Fits ns₀)
    (hhandle : menu.interact ns = some (menu', ns', action)) :
    ns₀.Assigned ns' ∧ (Menu.select menu').Fits ns₀ ∧ action.Fits ns₀ := by
  obtain ⟨option₀, v, hoption₀, hcurrent₀, hselected, _⟩ := id hmenu
  obtain ⟨option, hoption, hhandle⟩ := Option.bind_eq_some_iff.mp hhandle
  obtain ⟨option₁, hoption₁, hassigned⟩ := h.entry hoption
  rw [hoption₀] at hoption₁
  cases hoption₁
  have hadmits := hassigned.1
  rw [hcurrent₀] at hadmits
  split at hhandle
  · next v' hcurrent =>
      obtain ⟨ns₁, hset, hret⟩ := Option.map_eq_some_iff.mp hhandle
      cases hret
      rw [hcurrent] at hadmits
      have hvalue : (Value.selection v).Admits
          (.selection { v' with selected := menu.selected }) := by
        cases hadmits
        exact .selection v menu.selected hselected
      exact ⟨h.setCurrent hoption₀ (hcurrent₀ ▸ hvalue) hset, hmenu, trivial⟩
  · cases hhandle

theorem SelectMenu.handleInput_fits {menu menu' : SelectMenu} (h : ns₀.Assigned ns)
    (hmenu : (Menu.select menu).Fits ns₀)
    (hhandle : menu.handleInput ns code = some (menu', ns', action)) :
    ns₀.Assigned ns' ∧ (Menu.select menu').Fits ns₀ ∧ action.Fits ns₀ := by
  obtain ⟨option₀, v, hoption₀, hcurrent₀, hselected, hmax⟩ := id hmenu
  cases code with
  | up =>
      cases hhandle
      exact ⟨h, ⟨option₀, v, hoption₀, hcurrent₀, Nat.lt_of_le_of_lt (Nat.sub_le _ _) hselected,
        hmax⟩, trivial⟩
  | down =>
      cases hhandle
      exact ⟨h, ⟨option₀, v, hoption₀, hcurrent₀, Nat.lt_of_le_of_lt (Nat.min_le_right _ _) hmax,
        hmax⟩, trivial⟩
  | enter => exact SelectMenu.interact_fits h hmenu hhandle
  | char c =>
      change (if c = ' ' then menu.interact ns else some (menu, ns, .none)) = _ at hhandle
      by_cases hspace : c = ' '
      · rw [if_pos hspace] at hhandle
        exact SelectMenu.interact_fits h hmenu hhandle
      · rw [if_neg hspace] at hhandle
        cases hhandle
        exact ⟨h, hmenu, trivial⟩
  | _ =>
      cases hhandle
      exact ⟨h, hmenu, trivial⟩

theorem InputMenu.commit_fits {menu menu' : InputMenu} (h : ns₀.Assigned ns)
    (hmenu : (Menu.input menu).Fits ns₀)
    (hhandle : menu.commit ns = some (menu', ns', action)) :
    ns₀.Assigned ns' ∧ (Menu.input menu').Fits ns₀ ∧ action.Fits ns₀ := by
  obtain ⟨option₀, hoption₀, hkind⟩ := id hmenu
  unfold InputMenu.commit at hhandle
  split_ifs at hhandle with hstr
  · obtain ⟨ns₁, hset, hret⟩ := Option.map_eq_some_iff.mp hhandle
    cases hret
    rw [if_pos hstr] at hkind
    have hvalue := Value.admits_of_kind (.string menu.input) hkind.symm
      (by rw [hkind]; exact Kind.noConfusion)
    exact ⟨h.setCurrent hoption₀ hvalue hset, hmenu, trivial⟩
  · rw [if_neg hstr] at hkind
    split at hhandle
    · next v _ =>
        obtain ⟨ns₁, hset, hret⟩ := Option.map_eq_some_iff.mp hhandle
        cases hret
        have hvalue := Value.admits_of_kind (.int v) hkind.symm
          (by rw [hkind]; exact Kind.noConfusion)
        exact ⟨h.setCurrent hoption₀ hvalue hset, hmenu, trivial⟩
    · cases hhandle
      exact ⟨h, ⟨option₀, hoption₀, by rw [if_neg hstr]; exact hkind⟩, trivial⟩

theorem InputMenu.handleInput_fits {menu menu' : InputMenu} (h : ns₀.Assigned ns)
    (hmenu : (Menu.input menu).Fits ns₀)
    (hhandle : menu.handleInput ns code = some (menu', ns', action)) :
    ns₀.Assigned ns' ∧ (Menu.input menu').Fits ns₀ ∧ action.Fits ns₀ := by
  cases code with
  | enter => exact InputMenu.commit_fits h hmenu hhandle
  | _ =>
      cases hhandle
      exact ⟨h, hmenu, trivial⟩

theorem SelectMenu.new_fits {menu : SelectMenu} {index : ℕ} (h : ns₀.Assigned ns)
    (htyped : ns₀.Typed) (hnew : SelectMenu.new index ns = some menu) :
    (Menu.select menu).Fits ns₀ := by
  obtain ⟨option, hoption, hnew⟩ := Option.bind_eq_some_iff.mp hnew
  obtain ⟨option₀, hoption₀, hassigned⟩ := h.entry hoption
  have hadmits := hassigned.1
  have hwell := (htyped option₀ (List.mem_of_getElem? hoption₀)).wellFormed
  split at hnew
  · next v hcurrent =>
      split_ifs at hnew with hempty
      cases hnew
      rw [hcurrent] at hadmits
      cases hcurrent₀ : option₀.current with
      | selection v₀ =>
          rw [hcurrent₀] at hadmits hwell
          have hlengths : v₀.options.length = v₀.values.length := SelectOption.WellFormed.lengths hwell
          cases hadmits with
          | selection _ selected inside =>
              refine ⟨option₀, v₀, hoption₀, hcurrent₀, inside, ?_⟩
              change v₀.options.length - 1 < _
              have hpos : v₀.options.length ≠ 0 := hempty
              omega
      | _ =>
          rw [hcurrent₀] at hadmits
          cases hadmits
  · cases hnew

theorem InputMenu.new_fits {menu : InputMenu} {index : ℕ} (h : ns₀.Assigned ns)
    (hnew : InputMenu.new index ns = some menu) : (Menu.input menu).Fits ns₀ := by
  obtain ⟨option, hoption, hnew⟩ := Option.bind_eq_some_iff.mp hnew
  obtain ⟨option₀, hoption₀, hassigned⟩ := h.entry hoption
  have hkind := hassigned.1.kind
  split at hnew
  · next v hcurrent =>
      cases hnew
      rw [hcurrent] at hkind
      exact ⟨option₀, hoption₀, hkind.symm⟩
  · next v hcurrent =>
      cases hnew
      rw [hcurrent] at hkind
      exact ⟨option₀, hoption₀, hkind.symm⟩
  · cases hnew

theorem MainMenu.interact_fits {menu menu' : MainMenu} {preferMenu : Bool}
    (h : ns₀.Assigned ns) (htyped : ns₀.Typed)
    (hhandle : menu.interact lexers ns preferMenu = some (menu', ns', action)) :
    ns₀.Assigned ns' ∧ action.Fits ns₀ := by
  obtain ⟨submenu, hsubmenu, hhandle⟩ := Option.bind_eq_some_iff.mp hhandle
  split at hhandle
  · cases hhandle
    exact ⟨h, trivial⟩
  · obtain ⟨shown, _, hhandle⟩ := Option.bind_eq_some_iff.mp hhandle
    split at hhandle
    · cases hhandle
      exact ⟨h, trivial⟩
    · next index _ =>
        obtain ⟨option, hoption, hhandle⟩ := Option.bind_eq_some_iff.mp hhandle
        split at hhandle
        · cases hhandle
          exact ⟨h, trivial⟩
        · split at hhandle
          · next v hcurrent =>
              obtain ⟨ns₁, hset, hret⟩ := Option.map_eq_some_iff.mp hhandle
              cases hret
              obtain ⟨option₀, hoption₀, hassigned⟩ := h.entry hoption
              have hkind := hassigned.1.kind
              rw [hcurrent] at hkind
              have hvalue := Value.admits_of_kind (.bool (!v)) hkind
                (by rw [← hkind]; exact Kind.noConfusion)
              exact ⟨h.setCurrent hoption₀ hvalue hset, trivial⟩
          · obtain ⟨input, hnew, hret⟩ := Option.map_eq_some_iff.mp hhandle
            cases hret
            exact ⟨h, InputMenu.new_fits h hnew⟩
          · obtain ⟨input, hnew, hret⟩ := Option.map_eq_some_iff.mp hhandle
            cases hret
            exact ⟨h, InputMenu.new_fits h hnew⟩
          · obtain ⟨select, hnew, hret⟩ := Option.map_eq_some_iff.mp hhandle
            cases hret
            exact ⟨h, SelectMenu.new_fits h htyped hnew⟩
          · split at hhandle <;>
            · cases hhandle
              exact ⟨h, trivial⟩

theorem MainMenu.handleInput_fits {menu menu' : MainMenu} (h : ns₀.Assigned ns)
    (htyped : ns₀.Typed)
    (hhandle : menu.handleInput lexers ns code = some (menu', ns', action)) :
    ns₀.Assigned ns' ∧ action.Fits ns₀ := by
  unfold MainMenu.handleInput at hhandle
  split at hhandle
  case h_4 => exact MainMenu.interact_fits h htyped hhandle
  case h_5 =>
    split_ifs at hhandle
    · exact MainMenu.interact_fits h htyped hhandle
    · cases hhandle
      exact ⟨h, trivial⟩
  all_goals
    cases hhandle
    exact ⟨h, trivial⟩

/-- A key keeps the types, and the menus match their options after it. -/
theorem Menu.handleInput_fits {menu menu' : Menu} (h : ns₀.Assigned ns) (htyped : ns₀.Typed)
    (hmenu : menu.Fits ns₀)
    (hhandle : menu.handleInput lexers ns code = some (menu', ns', action)) :
    ns₀.Assigned ns' ∧ menu'.Fits ns₀ ∧ action.Fits ns₀ := by
  cases menu with
  | main menu =>
      obtain ⟨⟨menu₁, ns₁, action₁⟩, hhandle, hret⟩ := Option.map_eq_some_iff.mp hhandle
      cases hret
      obtain ⟨hns, haction⟩ := MainMenu.handleInput_fits h htyped hhandle
      exact ⟨hns, trivial, haction⟩
  | input menu =>
      obtain ⟨⟨menu₁, ns₁, action₁⟩, hhandle, hret⟩ := Option.map_eq_some_iff.mp hhandle
      cases hret
      exact InputMenu.handleInput_fits h hmenu hhandle
  | select menu =>
      obtain ⟨⟨menu₁, ns₁, action₁⟩, hhandle, hret⟩ := Option.map_eq_some_iff.mp hhandle
      cases hret
      exact SelectMenu.handleInput_fits h hmenu hhandle
  | help =>
      simp only [Menu.handleInput] at hhandle
      split at hhandle <;>
      · cases hhandle
        exact ⟨h, trivial, trivial⟩

end

/-! ### Runs -/

/-- The values have the types of the parsed namespace, and the open menus match them. -/
structure App.Fits (ns₀ : Namespace) (app : App) : Prop where
  assigned : ns₀.Assigned app.ns
  menus : ∀ menu ∈ app.menus, menu.Fits ns₀

section

variable {lexers : Lexers} {env : Environment} {ns₀ : Namespace} {app app' : App}

theorem App.Fits.handle (h : app.Fits ns₀) (htyped : ns₀.Typed) {event : AppEvent}
    (hhandle : app.handle lexers event = some app') : app'.Fits ns₀ := by
  unfold App.handle at hhandle
  split at hhandle
  · cases hhandle
    exact ⟨h.assigned.importConfig _, h.menus⟩
  · split at hhandle
    · next menu menus hmenus =>
        cases hhandle
        refine ⟨h.assigned, fun menu' hmenu' => ?_⟩
        rcases List.mem_cons.mp hmenu' with rfl | hrest
        · trivial
        · exact h.menus menu' (by rw [hmenus]; exact List.mem_cons_of_mem _ hrest)
    · cases hhandle
      exact h
  · split at hhandle
    · cases hhandle
      exact h
    · next top menus hmenus =>
        obtain ⟨⟨top', ns', action⟩, hkey, hret⟩ := Option.map_eq_some_iff.mp hhandle
        cases hret
        have hrest : ∀ menu ∈ menus, menu.Fits ns₀ := fun menu hmenu =>
          h.menus menu (by rw [hmenus]; exact List.mem_cons_of_mem _ hmenu)
        have htop := h.menus top (by rw [hmenus]; exact List.mem_cons_self)
        obtain ⟨hns, htop', haction⟩ := Menu.handleInput_fits h.assigned htyped htop hkey
        cases action with
        | none => exact ⟨hns, List.forall_mem_cons.mpr ⟨htop', hrest⟩⟩
        | push menu =>
            exact ⟨hns, List.forall_mem_cons.mpr ⟨haction, List.forall_mem_cons.mpr ⟨htop', hrest⟩⟩⟩
        | pop => exact ⟨hns, hrest⟩

theorem App.Fits.run (h : app.Fits ns₀) (htyped : ns₀.Typed) {events : List AppEvent}
    (hrun : App.run lexers events app = some app') : app'.Fits ns₀ := by
  induction events generalizing app with
  | nil =>
      cases hrun
      exact h
  | cons event events ih =>
      rw [App.run, List.foldlM_cons] at hrun
      obtain ⟨app₁, hhandle, hrest⟩ := Option.bind_eq_some_iff.mp hrun
      exact ih (h.handle htyped hhandle) hrest

/-- After any imports and key presses every option of a parsed namespace still has a value of
its declared type, and every selection is inside its lists. -/
theorem Namespace.Parsed.run_typed {events : List AppEvent} (h : ns₀.Parsed lexers env)
    (hrun : App.run lexers events (App.start ns₀) = some app) :
    List.Forall₂ (fun option₀ option : ConfigOption =>
      option₀.current.kind = option₀.declared ∧ option.current.kind = option₀.declared ∧
      (∀ v, option.current = .selection v →
        v.options.length = v.values.length ∧ 0 < v.values.length ∧ v.selected < v.values.length) ∧
      option.current.toBasic.isSome) ns₀.vector app.ns.vector := by
  have hstart : (App.start ns₀).Fits ns₀ := by
    refine ⟨h.typed.assigned_self, fun menu hmenu => ?_⟩
    rw [List.mem_singleton.mp hmenu]
    trivial
  have hend := (hstart.run h.typed hrun).assigned
  refine forall₂_of_mem (fun option₀ option hoption₀ hassigned => ?_) hend.options
  have htyped₀ := h.typed option₀ hoption₀
  have hkind := hassigned.1.kind.trans htyped₀.kind
  have hwell := hassigned.1.wellFormed htyped₀.wellFormed
  refine ⟨htyped₀.kind, hkind, fun v hv => ?_, Value.toBasic_isSome hwell⟩
  rw [hv] at hwell
  have hselected : v.selected < v.values.length := SelectOption.WellFormed.selected hwell
  exact ⟨SelectOption.WellFormed.lengths hwell, by omega, hselected⟩

def modeSource : Text :=
  ("opt CONFIG_MODE(select) \x7b display: \"Mode\" options: \x7b \"Slow\", \"Fast\" \x7d " ++
    "values: \x7b 1, 2 \x7d default: \"Slow\" \x7d").toList

/-- The lexers on this text and on `CONFIG_MODE=3`. -/
def modeLexers : Lexers where
  token _ :=
    [.ok .opt, .ok (.identifier "CONFIG_MODE".toList), .ok .parenOpen, .ok .select,
      .ok .parenClose, .ok .braceOpen, .ok .display, .ok .colon, .ok (.string "Mode".toList),
      .ok .options, .ok .colon, .ok .braceOpen, .ok (.string "Slow".toList), .ok .comma,
      .ok (.string "Fast".toList), .ok .braceClose, .ok .values, .ok .colon, .ok .braceOpen,
      .ok (.number 1), .ok .comma, .ok (.number 2), .ok .braceClose, .ok .default, .ok .colon,
      .ok (.string "Slow".toList), .ok .braceClose]
  expression _ := []
  config _ := [.ok (.identifier "CONFIG_MODE".toList), .ok .equals, .ok (.number 3)]

def modeNamespace : Namespace :=
  match parse modeLexers ⟨some, fun _ => some modeSource, fun _ => none⟩ 1 "Uconfig".toList
    Namespace.default with
  | .ok ns => ns
  | .error _ => Namespace.default

/-- A value that the selection does not have is imported; then its menu is opened, and the
option behind the last one is chosen. -/
def modeEvents : List AppEvent :=
  [.importText "CONFIG_MODE=3".toList, .key .enter, .key .down, .key .down, .key (.char ' ')]

theorem modeNamespace_run_typed : ∃ app,
    App.run modeLexers modeEvents (App.start modeNamespace) = some app ∧
      app.ns.vector.map ConfigOption.current = [.null, .selection
        ⟨1, ["Slow".toList, "Fast".toList], [.int 1, .int 2]⟩] ∧
    List.Forall₂ (fun option₀ option : ConfigOption =>
      option₀.current.kind = option₀.declared ∧ option.current.kind = option₀.declared ∧
      (∀ v, option.current = .selection v →
        v.options.length = v.values.length ∧ 0 < v.values.length ∧ v.selected < v.values.length) ∧
      option.current.toBasic.isSome) modeNamespace.vector app.ns.vector := by
  have hparsed : modeNamespace.Parsed modeLexers
      ⟨some, fun _ => some modeSource, fun _ => none⟩ := ⟨1, "Uconfig".toList, rfl⟩
  obtain ⟨app, hrun, hcurrent⟩ : ∃ app,
      App.run modeLexers modeEvents (App.start modeNamespace) = some app ∧
        app.ns.vector.map ConfigOption.current = [.null, .selection
          ⟨1, ["Slow".toList, "Fast".toList], [.int 1, .int 2]⟩] :=
    ⟨_, rfl, rfl⟩
  exact ⟨app, hrun, hcurrent, Namespace.Parsed.run_typed hparsed hrun⟩

end

end Uconfig
end Utopia
