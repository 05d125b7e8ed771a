/-
The text console of `drivers/framebuffer/main.c`, with and without its back buffer.
-/
import Utopia.Lib.Memory
import Mathlib.Data.List.Range

namespace Utopia

/-- The bytes behind an address, by offset. -/
abbrev Buffer := ℕ → Byte

abbrev Word32 := BitVec 32

namespace Buffer

/-- `n` stores of `unit` bytes each from `start` on, every one from the same place of
`src`. -/
def copyUnits (src : Buffer) (unit start : ℕ) : ℕ → Buffer → Buffer
  | 0, dest => dest
  | n + 1, dest => fun o =>
      if start + unit * n ≤ o ∧ o < start + unit * n + unit then src o
      else copyUnits src unit start n dest o

/-- `n` stores of `unit` bytes each from `start` on, every one from `off` bytes further up
in the same buffer. -/
def moveUnits (off unit start : ℕ) : ℕ → Buffer → Buffer
  | 0, b => b
  | n + 1, b => fun o =>
      if start + unit * n ≤ o ∧ o < start + unit * n + unit then
        moveUnits off unit start n b (o + off)
      else moveUnits off unit start n b o

/-- `n` stores of `unit` zero bytes each from `start` on. -/
def clearUnits (unit start : ℕ) : ℕ → Buffer → Buffer
  | 0, b => b
  | n + 1, b => fun o =>
      if start + unit * n ≤ o ∧ o < start + unit * n + unit then 0
      else clearUnits unit start n b o

/-- The low `n` bytes of a colour. -/
def storeColor (b : Buffer) (start n : ℕ) (color : Word32) : Buffer := fun o =>
  if start ≤ o ∧ o < start + n then (color >>> (8 * (o - start))).setWidth 8 else b o

end Buffer

/-- `for (i = 0; i < n; i++) body(i)`. -/
def countUp {σ : Type} (n : ℕ) (body : ℕ → σ → σ) (s : σ) : σ :=
  (List.range n).foldl (fun s i => body i s) s

/-- A font in the PSF1 format; `glyphs` is what follows the header. -/
structure Psf1 where
  mode : Byte
  charsize : Byte
  glyphs : ℕ → Byte

def psf1Mode512 : Byte := 0x01

/-- What does not change while the console runs. -/
structure Framebuffer where
  /-- `fb_addr != NULL`. -/
  present : Bool
  width : Word32
  height : Word32
  pitch : Word32
  bpp : Byte
  currentFont : Option Psf1
  font8x8Basic : Byte → ℕ → Byte

/-- The memory behind `fb_addr` and `backbuffer`, and the cursor. -/
structure Screen where
  vram : Buffer
  backbuffer : Option Buffer
  cursorX : Word32
  cursorY : Word32

def fontWidth : Word32 := 8

def newline : Byte := 0x0A

namespace Framebuffer

variable (f : Framebuffer)

def fontHeight : Word32 :=
  match f.currentFont with
  | some font => font.charsize.setWidth 32
  | none => 8

/-- Bytes of a pixel; for other depths than 32 and 24 bits nothing is drawn. -/
def pixelBytes : ℕ := if f.bpp = 32 then 4 else if f.bpp = 24 then 3 else 0

/-- The offset of the pixel at `(x, y)`, in 32-bit arithmetic as far as the source has it. -/
def pixelOffset (x y : Word32) : ℕ :=
  (y * f.pitch).toNat + (x * BitVec.ofNat 32 f.pixelBytes).toNat

def storePixel (x y color : Word32) (b : Buffer) : Buffer :=
  b.storeColor (f.pixelOffset x y) f.pixelBytes color

/-- A row of `framebuffer_flush`, with its eight-byte copies and its odd tail. -/
def flushRow (src : Buffer) (start : ℕ) (width : Word32) (dest : Buffer) : Buffer :=
  if f.bpp = 32 then
    let words := width.toNat
    let dest := Buffer.copyUnits src 8 start (words / 2) dest
    if words % 2 ≠ 0 then Buffer.copyUnits src 4 (start + 4 * (words - 1)) 1 dest else dest
  else if f.bpp = 24 then
    let bytes := (width * 3).toNat
    let dest := Buffer.copyUnits src 8 start (bytes / 8) dest
    Buffer.copyUnits src 1 (start + bytes / 8 * 8) (bytes % 8) dest
  else dest

/-- `framebuffer_flush`, from the back buffer `src` to video memory. -/
def flush (src : Buffer) (x y width height : Word32) (dest : Buffer) : Buffer :=
  if f.width ≤ x ∨ f.height ≤ y then dest
  else
    let width := if f.width < x + width then f.width - x else width
    let height := if f.height < y + height then f.height - y else height
    countUp height.toNat
      (fun row => f.flushRow src (f.pixelOffset x (y + BitVec.ofNat 32 row)) width) dest

def putpixel (x y color : Word32) (s : Screen) : Screen :=
  if f.present = false ∨ f.width ≤ x ∨ f.height ≤ y then s
  else
    { s with
      vram := f.storePixel x y color s.vram
      backbuffer := s.backbuffer.map (f.storePixel x y color) }

/-- A row that `framebuffer_scroll` clears. -/
def clearRow (y : Word32) (b : Buffer) : Buffer :=
  let start := (y * f.pitch).toNat
  if f.bpp = 32 then
    let b := Buffer.clearUnits 8 start (f.width.toNat / 2) b
    if f.width.toNat % 2 ≠ 0 then Buffer.clearUnits 4 (start + 4 * (f.width.toNat - 1)) 1 b
    else b
  else if f.bpp = 24 then Buffer.clearUnits 3 start f.width.toNat b
  else b

/-- The part of `framebuffer_scroll` that is written out once for the back buffer and
once for video memory. -/
def scrollBuffer (fontHeight : Word32) (b : Buffer) : Buffer :=
  let off := (fontHeight * f.pitch).toNat
  let size := ((f.height - fontHeight) * f.pitch).toNat
  let b := Buffer.moveUnits off 8 0 (size / 8) b
  let b := Buffer.moveUnits off 1 (size / 8 * 8) (size % 8) b
  countUp fontHeight.toNat (fun i => f.clearRow (f.height - fontHeight + BitVec.ofNat 32 i)) b

def scroll (s : Screen) : Screen :=
  if f.present = false then s
  else
    let fontHeight := if f.height < f.fontHeight then f.height else f.fontHeight
    let s :=
      match s.backbuffer with
      | some back =>
          let back := f.scrollBuffer fontHeight back
          { s with
            vram := f.flush back 0 0 f.width f.height s.vram
            backbuffer := some back }
      | none => { s with vram := f.scrollBuffer fontHeight s.vram }
    { s with cursorY := if fontHeight ≤ s.cursorY then s.cursorY - fontHeight else 0 }

/-- Row `row` of the glyph of `ch`. -/
def glyphRow (ch : Byte) (row : ℕ) : Byte :=
  match f.currentFont with
  | some font =>
      let glyphCount : ℕ := if font.mode &&& psf1Mode512 ≠ 0 then 512 else 256
      let ch := if glyphCount ≤ ch.toNat then 0x3F else ch
      font.glyphs (ch.toNat * font.charsize.toNat + row)
  | none => f.font8x8Basic ch row

/-- The two formats start a row at different ends. -/
def glyphBit (ch : Byte) (row col : ℕ) : Bool :=
  if f.currentFont.isNone then (f.glyphRow ch row).getLsbD col
  else (f.glyphRow ch row).getLsbD (7 - col)

/-- The loops of `framebuffer_draw_char`. -/
def drawGlyph (x y : Word32) (ch : Byte) (fg bg : Word32) (b : Buffer) : Buffer :=
  countUp f.fontHeight.toNat
    (fun row =>
      countUp fontWidth.toNat fun col =>
        f.storePixel (x + BitVec.ofNat 32 col) (y + BitVec.ofNat 32 row)
          (if f.glyphBit ch row col then fg else bg))
    b

def drawChar (x y : Word32) (c : Byte) (fg bg : Word32) (s : Screen) : Screen :=
  if f.present = false then s
  else
    let ch := if (128 : Byte) ≤ c then 0x3F else c
    if f.width < x + fontWidth ∨ f.height < y + f.fontHeight then s
    else
      match s.backbuffer with
      | some back =>
          let back := f.drawGlyph x y ch fg bg back
          { s with
            vram := f.flush back x y fontWidth f.fontHeight s.vram
            backbuffer := some back }
      | none => { s with vram := f.drawGlyph x y ch fg bg s.vram }

/-- `framebuffer_putchar` without the serial port. -/
def putchar (c : Byte) (fg bg : Word32) (s : Screen) : Screen :=
  let s :=
    if c = newline then { s with cursorX := 0, cursorY := s.cursorY + f.fontHeight }
    else
      let s := f.drawChar s.cursorX s.cursorY c fg bg s
      let s := { s with cursorX := s.cursorX + fontWidth }
      if f.width < s.cursorX + fontWidth then
        { s with cursorX := 0, cursorY := s.cursorY + f.fontHeight }
      else s
  if f.height ≤ s.cursorY + f.fontHeight then f.scroll s else s

/-- A character in its colours. -/
structure Glyph where
  c : Byte
  fg : Word32
  bg : Word32
deriving DecidableEq, Repr

/-- `framebuffer_enable_backbuffer` when `malloc` returns a block with the bytes `block`,
or null; then `printk` puts the characters `line` on the screen. -/
def enableBackbuffer (block : Option Buffer) (line : List Glyph) (s : Screen) : Screen :=
  if f.present = false then s
  else
    match block with
    | some block =>
        let size := (f.height * f.pitch).toNat
        { s with backbuffer := some (Buffer.copyUnits s.vram 1 0 size block) }
    | none => line.foldl (fun s g => f.putchar g.c g.fg g.bg s) { s with backbuffer := none }

end Framebuffer

/-- A call of one of the three drawing functions. -/
inductive ConsoleCall where
  | putchar (c : Byte) (fg bg : Word32)
  | putpixel (x y color : Word32)
  | scroll

namespace Framebuffer

variable (f : Framebuffer)

def call : ConsoleCall → Screen → Screen
  | .putchar c fg bg => f.putchar c fg bg
  | .putpixel x y color => f.putpixel x y color
  | .scroll => f.scroll

def calls (list : List ConsoleCall) (s : Screen) : Screen :=
  list.foldl (fun s call => f.call call s) s

end Framebuffer

end Utopia
