/-
The menus of `tools/uconfig/src`: `components/{main,input,select}.rs` and `input.rs`.
-/
import Utopia.Uconfig.Config

namespace Utopia
namespace Uconfig

/-- The keys that a menu distinguishes. -/
inductive KeyCode where
  | up
  | down
  | left
  | right
  | enter
  | esc
  | backspace
  | delete
  | tab
  | char (c : Char)
  | other
deriving DecidableEq, Repr

/-- `selected` is the position of the list widget. -/
structure MainMenu where
  selected : Option ℕ
  submenuStack : List ℕ
  selectedStack : List ℕ

/-- `cursor` counts characters; the source counts bytes and stays between characters. -/
structure InputMenu where
  index : ℕ
  input : Text
  cursor : ℕ
  isStr : Bool
  msg : Option String

structure SelectMenu where
  index : ℕ
  max : ℕ
  selected : ℕ

/-- The components that handle keys. -/
inductive Menu where
  | main (menu : MainMenu)
  | input (menu : InputMenu)
  | select (menu : SelectMenu)
  | help

inductive MenuStackAction where
  | none
  | push (menu : Menu)
  | pop

/-- What handling a key does: the menu and the namespace after it, and the action; `none` is
a panic. -/
abbrev Handled (α : Type) := Option (α × Namespace × MenuStackAction)

/-- `namespace.vector[index].current = value`. -/
def Namespace.setCurrent (ns : Namespace) (index : ℕ) (value : Value) : Option Namespace :=
  if index < ns.vector.length then
    some { ns with
      vector := ns.vector.modify index fun option => { option with current := value } }
  else none

namespace SelectMenu

/-- `SelectMenu::new`. -/
def new (index : ℕ) (ns : Namespace) : Option SelectMenu :=
  (ns.vector[index]?).bind fun option =>
    match option.current with
    | .selection v =>
        if v.options.length = 0 then Option.none
        else some ⟨index, v.options.length - 1, v.selected⟩
    | _ => Option.none

def interact (menu : SelectMenu) (ns : Namespace) : Handled SelectMenu :=
  (ns.vector[menu.index]?).bind fun option =>
    match option.current with
    | .selection v =>
        (ns.setCurrent menu.index (.selection { v with selected := menu.selected })).map
          fun ns => (menu, ns, .pop)
    | _ => Option.none

def handleInput (menu : SelectMenu) (ns : Namespace) : KeyCode → Handled SelectMenu
  | .up => some ({ menu with selected := menu.selected - 1 }, ns, .none)
  | .down => some ({ menu with selected := min (menu.selected + 1) menu.max }, ns, .none)
  | .enter => menu.interact ns
  | .char c => if c = ' ' then menu.interact ns else some (menu, ns, .none)
  | .esc | .backspace => some (menu, ns, .pop)
  | _ => some (menu, ns, .none)

end SelectMenu

namespace InputMenu

/-- `InputMenu::new`. -/
def new (index : ℕ) (ns : Namespace) : Option InputMenu :=
  (ns.vector[index]?).bind fun option =>
    match option.current with
    | .int v => some ⟨index, displayI64 v, (displayI64 v).length, false, none⟩
    | .string v => some ⟨index, v, v.length, true, none⟩
    | _ => none

def commit (menu : InputMenu) (ns : Namespace) : Handled InputMenu :=
  if menu.isStr then
    (ns.setCurrent menu.index (.string menu.input)).map fun ns => (menu, ns, .pop)
  else
    match parseI64 menu.input with
    | some v => (ns.setCurrent menu.index (.int v)).map fun ns => (menu, ns, .pop)
    | none => some ({ menu with msg := some "Input is not a valid number" }, ns, .none)

def insert (menu : InputMenu) (c : Char) : InputMenu :=
  { menu with
    input := menu.input.take menu.cursor ++ c :: menu.input.drop menu.cursor
    cursor := menu.cursor + 1 }

def left (menu : InputMenu) : InputMenu := { menu with cursor := menu.cursor - 1 }

def right (menu : InputMenu) : InputMenu :=
  { menu with cursor := min (menu.cursor + 1) menu.input.length }

def backspace (menu : InputMenu) : InputMenu :=
  let start := menu.cursor - 1
  { menu with
    input := menu.input.take start ++ menu.input.drop menu.cursor
    cursor := start }

def delete (menu : InputMenu) : InputMenu :=
  let stop := min (menu.cursor + 1) menu.input.length
  { menu with input := menu.input.take menu.cursor ++ menu.input.drop stop }

def handleInput (menu : InputMenu) (ns : Namespace) : KeyCode → Handled InputMenu
  | .esc => some (menu, ns, .pop)
  | .enter => menu.commit ns
  | .char c => some ({ menu.insert c with msg := none }, ns, .none)
  | .backspace => some ({ menu.backspace with msg := none }, ns, .none)
  | .delete => some ({ menu.delete with msg := none }, ns, .none)
  | .left => some ({ menu.left with msg := none }, ns, .none)
  | .right => some ({ menu.right with msg := none }, ns, .none)
  | _ => some ({ menu with msg := none }, ns, .none)

end InputMenu

namespace MainMenu

def new : MainMenu := ⟨some 0, [], []⟩

def submenuIndex (menu : MainMenu) : ℕ := menu.submenuStack.head?.getD 0

/-- The menu one level down, at `index`. -/
def enter (menu : MainMenu) (index : ℕ) : MainMenu :=
  { menu with
    submenuStack := index :: menu.submenuStack
    selectedStack := menu.selected.getD 0 :: menu.selectedStack }

/-- The children that are shown: those that do not fail their `depends`. -/
def shownChildren (lexers : Lexers) (ns : Namespace) (submenu : ConfigOption) :
    Option (List ℕ) :=
  (submenu.children.mapM fun child =>
    (ns.vector[child]?).bind fun option =>
      (valid lexers ns option).map fun result => (child, result)).map fun results =>
        (results.filter fun entry => entry.2 ≠ .failed).map Prod.fst

def interact (lexers : Lexers) (menu : MainMenu) (ns : Namespace) (preferMenu : Bool) :
    Handled MainMenu :=
  (ns.vector[menu.submenuIndex]?).bind fun submenu =>
    match menu.selected with
    | none => some (menu, ns, .none)
    | some v =>
        (shownChildren lexers ns submenu).bind fun shown =>
          match shown[v]? with
          | none => some (menu, ns, .none)
          | some index =>
              (ns.vector[index]?).bind fun option =>
                if option.isMenu && preferMenu then some (menu.enter index, ns, .none)
                else
                  match option.current with
                  | .bool v => (ns.setCurrent index (.bool (!v))).map fun ns => (menu, ns, .none)
                  | .int _ | .string _ =>
                      (InputMenu.new index ns).map fun input => (menu, ns, .push (.input input))
                  | .selection _ =>
                      (SelectMenu.new index ns).map fun select => (menu, ns, .push (.select select))
                  | .null =>
                      if option.isMenu then some (menu.enter index, ns, .none)
                      else some (menu, ns, .none)

def exitSubmenu (menu : MainMenu) : MainMenu :=
  match menu.submenuStack with
  | [] => menu
  | _ :: submenuStack => ⟨menu.selectedStack.head?, submenuStack, menu.selectedStack.tail⟩

/-- `handle_input`; the keys that only move the list widget are the event `move` below. -/
def handleInput (lexers : Lexers) (menu : MainMenu) (ns : Namespace) : KeyCode → Handled MainMenu
  | .backspace | .esc => some (menu.exitSubmenu, ns, .none)
  | .tab => some (menu, ns, .push .help)
  | .enter => menu.interact lexers ns true
  | .char c => if c = ' ' then menu.interact lexers ns false else some (menu, ns, .none)
  | _ => some (menu, ns, .none)

end MainMenu

namespace Menu

/-- Another menu of the same component. -/
def wrap {α : Type} (make : α → Menu) (handled : Handled α) : Handled Menu :=
  handled.map fun (menu, ns, action) => (make menu, ns, action)

def handleInput (lexers : Lexers) (ns : Namespace) (code : KeyCode) : Menu → Handled Menu
  | .main menu => wrap .main (menu.handleInput lexers ns code)
  | .input menu => wrap .input (menu.handleInput ns code)
  | .select menu => wrap .select (menu.handleInput ns code)
  | .help =>
      match code with
      | .tab | .backspace | .esc => some (.help, ns, .pop)
      | _ => some (.help, ns, .none)

end Menu

/-- The namespace and the stack of menus, the top one first. -/
structure App where
  ns : Namespace
  menus : List Menu

inductive AppEvent where
  /-- `import` of a `.config` text. -/
  | importText (config : Text)
  /-- The list widget of the main menu moves, by a key or when it is drawn. -/
  | move (selected : Option ℕ)
  | key (code : KeyCode)

namespace App

def start (ns : Namespace) : App := ⟨ns, [.main MainMenu.new]⟩

def act (menus : List Menu) (top : Menu) (ns : Namespace) : MenuStackAction → App
  | .none => ⟨ns, top :: menus⟩
  | .push menu => ⟨ns, menu :: top :: menus⟩
  | .pop => ⟨ns, menus⟩

/-- One event; `none` is a panic. -/
def handle (lexers : Lexers) (app : App) : AppEvent → Option App
  | .importText config => some { app with ns := importConfig lexers app.ns config }
  | .move selected =>
      match app.menus with
      | .main menu :: menus => some { app with menus := .main { menu with selected } :: menus }
      | _ => some app
  | .key code =>
      match app.menus with
      | [] => some app
      | top :: menus =>
          (top.handleInput lexers app.ns code).map fun (top, ns, action) => act menus top ns action

def run (lexers : Lexers) (events : List AppEvent) (app : App) : Option App :=
  events.foldlM (handle lexers) app

end App

end Uconfig
end Utopia
