/-
Printing text with colour escapes: `parse_ansi` and the two printing loops of `lib/screen.c`.
-/
import Utopia.Drivers.Framebuffer

namespace Utopia

/-- The bytes from the printed pointer on: the caller's, then whatever lies behind them. -/
abbrev Text := ℕ → Byte

def escape : Byte := 0x1B
def openBracket : Byte := 0x5B
def semicolon : Byte := 0x3B
def letterM : Byte := 0x6D

/-- `is_char_digit`; bytes from 0x80 on are no digits for either signedness of `char`. -/
abbrev IsCharDigit (c : Byte) : Prop := 0x30 ≤ c ∧ c ≤ 0x39

/-- `ansi_colors` -/
def ansiColors : List Word32 :=
  [0x000000, 0xAA0000, 0x00AA00, 0xAA5500, 0x0000AA, 0xAA00AA, 0x00AAAA, 0xAAAAAA,
    0x555555, 0xFF0000, 0x55FF55, 0xFFFF55, 0x5555FF, 0xFF55FF, 0x55FFFF, 0xFFFFFF]

/-- `ansi_colors[i]`, where `around` holds the words before and behind the array. -/
def ansiColor (around : ℤ → Word32) (i : ℤ) : Word32 :=
  if 0 ≤ i ∧ i < 16 then ansiColors.getD i.toNat 0 else around i

/-- The read position, the two current colours and the characters drawn so far; with them,
newest first, the positions read, the indices of `ansi_colors` evaluated, and the position
before and after each round of the outer loops. -/
structure Printer where
  s : ℕ
  currentFg : Word32
  currentBg : Word32
  glyphs : List Framebuffer.Glyph
  reads : List ℕ
  lookups : List ℤ
  rounds : List (ℕ × ℕ)
deriving DecidableEq, Repr

namespace Printer

def lookAt (i : ℕ) (p : Printer) : Printer := { p with reads := i :: p.reads }

/-- Evaluating `*s`. -/
def look (p : Printer) : Printer := p.lookAt p.s

def next (p : Printer) : Printer := { p with s := p.s + 1 }

/-- `if (*s == c) s++;` -/
def skip (text : Text) (c : Byte) (p : Printer) : Printer :=
  if text p.s = c then p.look.next else p.look

def reset (p : Printer) : Printer := { p with currentFg := 0xFFFFFF, currentBg := 0x000000 }

def setFg (color : Word32) (p : Printer) : Printer := { p with currentFg := color }

def setBg (color : Word32) (p : Printer) : Printer := { p with currentBg := color }

def noteIndex (i : ℤ) (p : Printer) : Printer := { p with lookups := i :: p.lookups }

/-- `if (val == 38) current_fg = color; else current_bg = color;` -/
def paint (val color : Word32) (p : Printer) : Printer :=
  if val = 38 then p.setFg color else p.setBg color

/-- After a loop test, which may evaluate `*str`. -/
def tested (testReads : Bool) (p : Printer) : Printer := if testReads then p.look else p

def putchar (c : Byte) (p : Printer) : Printer :=
  { p with glyphs := p.glyphs ++ [⟨c, p.currentFg, p.currentBg⟩] }

def noteRound (start : ℕ) (p : Printer) : Printer :=
  { p with rounds := (start, p.s) :: p.rounds }

end Printer

section Ansi

variable (text : Text) (around : ℤ → Word32)

/-- `while (is_char_digit(*s)) { n = n * 10 + (*s - '0'); s++; }` -/
def digits : ℕ → Word32 → Printer → Except Printer (Word32 × Printer)
  | 0, _, p => .error p
  | fuel + 1, n, p =>
      let p := p.look
      if IsCharDigit (text p.s) then
        digits fuel (n * 10 + ((text p.s).setWidth 32 - 0x30)) p.next
      else .ok (n, p)

/-- `if (is_char_digit(*s)) { while (is_char_digit(*s)) … }`: the parameter's number, 0 where
no digit stands. `has_val` is set in either case. -/
def parameterValue (fuel : ℕ) (p : Printer) : Except Printer (Word32 × Printer) :=
  let p := p.look
  if IsCharDigit (text p.s) then digits text fuel 0 p else .ok (0, p)

/-- `if (*s == ';') { s++; while (is_char_digit(*s)) … }` -/
def component (fuel : ℕ) (p : Printer) : Except Printer (Word32 × Printer) :=
  let p := p.look
  if text p.s = semicolon then digits text fuel 0 p.next else .ok (0, p)

/-- What follows `38;5` or `48;5`. The range test has no lower bound. -/
def indexedColor (fuel : ℕ) (val : Word32) (p : Printer) : Except Printer Printer :=
  let p := p.look
  if text p.s = semicolon then do
    let (colorIdx, p) ← digits text fuel 0 p.next
    if colorIdx.toInt < 16 then
      .ok ((p.noteIndex colorIdx.toInt).paint val (ansiColor around colorIdx.toInt))
    else .ok p
  else .ok p

/-- What follows `38;2` or `48;2`. -/
def directColor (fuel : ℕ) (val : Word32) (p : Printer) : Except Printer Printer := do
  let (r, p) ← component text fuel p
  let (g, p) ← component text fuel p
  let (b, p) ← component text fuel p
  .ok (p.paint val (r <<< 16 ||| g <<< 8 ||| b))

/-- What follows `38` or `48`. -/
def extendedColor (fuel : ℕ) (val : Word32) (p : Printer) : Except Printer Printer :=
  let p := p.look
  if text p.s = semicolon then do
    let (mode, p) ← digits text fuel 0 p.next
    if mode = 5 then indexedColor text around fuel val p
    else if mode = 2 then directColor text fuel val p
    else .ok p
  else .ok p

/-- One of the sixteen colours, by its index. -/
def Printer.paletteFg (i : ℤ) (p : Printer) : Printer :=
  (p.noteIndex i).setFg (ansiColor around i)

def Printer.paletteBg (i : ℤ) (p : Printer) : Printer :=
  (p.noteIndex i).setBg (ansiColor around i)

/-- The effect of the parameter `val`. -/
def applyValue (fuel : ℕ) (val : Word32) (p : Printer) : Except Printer Printer :=
  let v := val.toInt
  if v = 0 then .ok p.reset
  else if 30 ≤ v ∧ v ≤ 37 then .ok (p.paletteFg around (v - 30))
  else if 40 ≤ v ∧ v ≤ 47 then .ok (p.paletteBg around (v - 40))
  else if 90 ≤ v ∧ v ≤ 97 then .ok (p.paletteFg around (v - 90 + 8))
  else if 100 ≤ v ∧ v ≤ 107 then .ok (p.paletteBg around (v - 100 + 8))
  else if v = 39 then .ok (p.setFg 0xFFFFFF)
  else if v = 49 then .ok (p.setBg 0x000000)
  else if v = 38 ∨ v = 48 then extendedColor text around fuel val p
  else .ok p

/-- A round of the outer loop of `parse_ansi`. -/
def ansiRound (fuel : ℕ) (p : Printer) : Except Printer Printer := do
  let (val, p) ← parameterValue text fuel p
  let p ← applyValue text around fuel val p
  .ok (p.skip text semicolon)

/-- `while (*s && *s != 'm')` -/
def ansiLoop : ℕ → Printer → Except Printer Printer
  | 0, p => .error p
  | fuel + 1, p =>
      let p := p.look
      if text p.s = 0 ∨ text p.s = letterM then .ok p
      else do
        let q ← ansiRound text around fuel p
        ansiLoop fuel (q.noteRound p.s)

/-- `parse_ansi` -/
def parseAnsi (fuel : ℕ) (p : Printer) : Except Printer Printer := do
  let p ← ansiLoop text around fuel ((p.skip text escape).skip text openBracket)
  .ok (p.skip text letterM)

/-- A round of the printing loops: `str[1]` may be read where `canOpen` holds. -/
def printRound (fuel : ℕ) (canOpen : Bool) (p : Printer) : Except Printer Printer :=
  let p := p.look
  if canOpen ∧ text p.s = escape then
    let p := p.lookAt (p.s + 1)
    if text (p.s + 1) = openBracket then parseAnsi text around fuel p
    else .ok (p.putchar (text p.s)).next
  else .ok (p.putchar (text p.s)).next

/-- The loop of both printers, over `more`; `testReads` where its test evaluates `*str`. -/
def printLoop (more canOpen : ℕ → Bool) (testReads : Bool) : ℕ → Printer → Except Printer Printer
  | 0, p => .error p
  | fuel + 1, p =>
      let p := p.tested testReads
      if more p.s then do
        let q ← printRound text around fuel (canOpen p.s) p
        printLoop more canOpen testReads fuel (q.noteRound p.s)
      else .ok p

/-- `print_string_internal` -/
def printStringInternal : ℕ → Printer → Except Printer Printer :=
  printLoop text around (fun i => text i ≠ 0) (fun _ => true) true

/-- `print_string_internal_limit` with `size` bytes behind the first pointer. -/
def printStringInternalLimit (size : ℕ) : ℕ → Printer → Except Printer Printer :=
  printLoop text around (fun i => i < size) (fun i => i + 1 < size) false

end Ansi

/-- At the start of the text, with the colours that earlier text has left. -/
def Printer.start (fg bg : Word32) : Printer := ⟨0, fg, bg, [], [], [], []⟩

/-- `user_print`, between taking and releasing the lock of the console. -/
def userPrint (text : Text) (around : ℤ → Word32) (size : ℕ) (fg bg : Word32) (fuel : ℕ) :
    Except Printer Printer :=
  printStringInternalLimit text around size fuel (.start fg bg)

end Utopia
