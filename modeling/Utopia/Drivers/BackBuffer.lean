/-
The back buffer does not show: the run with it and the run without it draw the same
visible pixels.
-/
import Utopia.Drivers.Framebuffer

namespace Utopia

/-! ### Counted loops and bulk stores -/

theorem countUp_succ {σ : Type} (n : ℕ) (body : ℕ → σ → σ) (s : σ) :
    countUp (n + 1) body s = body n (countUp n body s) := by
  rw [countUp, List.range_succ, List.foldl_append]
  rfl

theorem countUp_invariant {σ : Type} {n : ℕ} {body : ℕ → σ → σ} {s : σ} (Inv : σ → Prop)
    (hinit : Inv s) (hround : ∀ i < n, ∀ s, Inv s → Inv (body i s)) :
    Inv (countUp n body s) := by
  induction n with
  | zero => exact hinit
  | succ n ih =>
      rw [countUp_succ]
      exact hround n (Nat.lt_succ_self n) _ (ih fun i hi => hround i (by omega))

/-- What one round establishes and the others keep. -/
theorem countUp_reaches {σ : Type} {n i : ℕ} {body : ℕ → σ → σ} (Inv : σ → Prop)
    (hi : i < n) (hreach : ∀ s, Inv (body i s))
    (hround : ∀ j < n, ∀ s, Inv s → Inv (body j s)) (s : σ) : Inv (countUp n body s) := by
  induction n with
  | zero => exact absurd hi (Nat.not_lt_zero i)
  | succ n ih =>
      rw [countUp_succ]
      rcases Nat.lt_succ_iff_lt_or_eq.mp hi with hlt | rfl
      · exact hround n (Nat.lt_succ_self n) _ (ih hlt fun j hj => hround j (by omega))
      · exact hreach _

/-- Two loops with related states and rounds. -/
theorem countUp_related {σ : Type} {n : ℕ} {body body' : ℕ → σ → σ} {s s' : σ}
    (Rel : σ → σ → Prop) (hinit : Rel s s')
    (hround : ∀ i < n, ∀ s s', Rel s s' → Rel (body i s) (body' i s')) :
    Rel (countUp n body s) (countUp n body' s') := by
  induction n with
  | zero => exact hinit
  | succ n ih =>
      rw [countUp_succ, countUp_succ]
      exact hround n (Nat.lt_succ_self n) _ _ (ih fun i hi => hround i (by omega))

namespace Buffer

variable {src b b' : Buffer} {unit start off n o : ℕ}

theorem copyUnits_apply :
    copyUnits src unit start n b o =
      if start ≤ o ∧ o < start + unit * n then src o else b o := by
  induction n with
  | zero =>
      rw [copyUnits, if_neg (by omega)]
  | succ n ih =>
      rw [copyUnits]
      dsimp only
      rw [ih, Nat.mul_succ]
      by_cases hlast : start + unit * n ≤ o ∧ o < start + unit * n + unit
      · rw [if_pos hlast, if_pos (by omega)]
      · rw [if_neg hlast]
        by_cases hearly : start ≤ o ∧ o < start + unit * n
        · rw [if_pos hearly, if_pos (by omega)]
        · rw [if_neg hearly, if_neg (by omega)]

/-- A forward move reads no byte that it wrote before. -/
theorem moveUnits_apply :
    moveUnits off unit start n b o =
      if start ≤ o ∧ o < start + unit * n then b (o + off) else b o := by
  induction n generalizing o with
  | zero =>
      rw [moveUnits, if_neg (by omega)]
  | succ n ih =>
      rw [moveUnits]
      dsimp only
      rw [ih, ih, Nat.mul_succ]
      by_cases hlast : start + unit * n ≤ o ∧ o < start + unit * n + unit
      · rw [if_pos hlast, if_neg (by omega), if_pos (by omega)]
      · rw [if_neg hlast]
        by_cases hearly : start ≤ o ∧ o < start + unit * n
        · rw [if_pos hearly, if_pos (by omega)]
        · rw [if_neg hearly, if_neg (by omega)]

theorem clearUnits_congr (h : b o = b' o) :
    clearUnits unit start n b o = clearUnits unit start n b' o := by
  induction n with
  | zero => exact h
  | succ n ih =>
      rw [clearUnits, clearUnits]
      dsimp only
      rw [ih]

theorem storeColor_congr {color : Word32} (h : b o = b' o) :
    b.storeColor start n color o = b'.storeColor start n color o := by
  rw [storeColor, storeColor, h]

theorem storeColor_of_outside {color : Word32} (h : o < start ∨ start + n ≤ o) :
    b.storeColor start n color o = b o :=
  if_neg (by omega)

end Buffer

/-! ### Visible bytes -/

namespace Framebuffer

variable {f : Framebuffer}

/-- The geometries that the console draws on: 24 or 32 bits a pixel, rows that fit into the
pitch, and less than 4 GiB in all. -/
structure Geometry (f : Framebuffer) : Prop where
  depth : f.bpp = 32 ∨ f.bpp = 24
  rows : f.width.toNat * f.pixelBytes ≤ f.pitch.toNat
  fits : f.height.toNat * f.pitch.toNat < 2 ^ 32

/-- The bytes of the pixels from `(x, y)` on, `width` to the right and `height` down. -/
def rect (f : Framebuffer) (x y width height : ℕ) : Set ℕ :=
  { o | ∃ row < height, (y + row) * f.pitch.toNat + x * f.pixelBytes ≤ o ∧
    o < (y + row) * f.pitch.toNat + x * f.pixelBytes + width * f.pixelBytes }

/-- The bytes of the visible pixels. -/
def visible (f : Framebuffer) : Set ℕ := f.rect 0 0 f.width.toNat f.height.toNat

theorem mem_visible {o : ℕ} : o ∈ f.visible ↔ ∃ y < f.height.toNat,
    y * f.pitch.toNat ≤ o ∧ o < y * f.pitch.toNat + f.width.toNat * f.pixelBytes := by
  simp [visible, rect]

theorem Geometry.pixelBytes_le (h : f.Geometry) : 3 ≤ f.pixelBytes ∧ f.pixelBytes ≤ 4 := by
  rw [pixelBytes]
  rcases h.depth with hbpp | hbpp <;> rw [hbpp] <;> decide

theorem Geometry.row_lt (h : f.Geometry) {y : ℕ} (hy : y < f.height.toNat) :
    y * f.pitch.toNat < 2 ^ 32 :=
  lt_of_le_of_lt (Nat.mul_le_mul_right _ hy.le) h.fits

theorem Geometry.row_toNat (h : f.Geometry) {y : Word32} (hy : y.toNat < f.height.toNat) :
    (y * f.pitch).toNat = y.toNat * f.pitch.toNat := by
  rw [BitVec.toNat_mul, Nat.mod_eq_of_lt (h.row_lt hy)]

theorem Geometry.pixelOffset_eq (h : f.Geometry) {x y : Word32}
    (hx : x.toNat ≤ f.width.toNat) (hy : y.toNat < f.height.toNat) :
    f.pixelOffset x y = y.toNat * f.pitch.toNat + x.toNat * f.pixelBytes := by
  have hbytes := h.pixelBytes_le
  have hcol : x.toNat * f.pixelBytes ≤ f.pitch.toNat :=
    le_trans (Nat.mul_le_mul_right _ hx) h.rows
  have hpitch := f.pitch.isLt
  rw [pixelOffset, h.row_toNat hy, BitVec.toNat_mul, BitVec.toNat_ofNat,
    Nat.mod_eq_of_lt (show f.pixelBytes < 2 ^ 32 by omega), Nat.mod_eq_of_lt (by omega)]

/-! ### Flushing -/

theorem Geometry.flushRow_apply (h : f.Geometry) {src dest : Buffer} {start o : ℕ}
    {width : Word32} (hwidth : width.toNat ≤ f.width.toNat) :
    f.flushRow src start width dest o =
      if start ≤ o ∧ o < start + width.toNat * f.pixelBytes then src o else dest o := by
  have hpitch := f.pitch.isLt
  have hcol : width.toNat * f.pixelBytes ≤ f.pitch.toNat :=
    le_trans (Nat.mul_le_mul_right _ hwidth) h.rows
  rw [flushRow]
  rcases h.depth with hbpp | hbpp
  · have hbytes : f.pixelBytes = 4 := by rw [pixelBytes, hbpp]; rfl
    rw [if_pos hbpp, hbytes]
    by_cases hodd : width.toNat % 2 ≠ 0
    · rw [if_pos hodd, Buffer.copyUnits_apply, Buffer.copyUnits_apply]
      by_cases hlast : start + 4 * (width.toNat - 1) ≤ o ∧
          o < start + 4 * (width.toNat - 1) + 4 * 1
      · rw [if_pos hlast, if_pos (by omega)]
      · rw [if_neg hlast]
        congr 1
        rw [eq_iff_iff]
        omega
    · rw [if_neg hodd, Buffer.copyUnits_apply]
      congr 1
      rw [eq_iff_iff]
      omega
  · have hbytes : f.pixelBytes = 3 := by rw [pixelBytes, hbpp]; rfl
    have h32 : f.bpp ≠ 32 := by rw [hbpp]; decide
    have hthree : (width * 3).toNat = width.toNat * 3 := by
      rw [hbytes] at hcol
      rw [BitVec.toNat_mul]
      exact Nat.mod_eq_of_lt (lt_of_le_of_lt hcol hpitch)
    rw [if_neg h32, if_pos hbpp, hbytes, hthree]
    rw [Buffer.copyUnits_apply, Buffer.copyUnits_apply]
    by_cases htail : start + width.toNat * 3 / 8 * 8 ≤ o ∧
        o < start + width.toNat * 3 / 8 * 8 + 1 * (width.toNat * 3 % 8)
    · rw [if_pos htail, if_pos (by omega)]
    · rw [if_neg htail]
      congr 1
      rw [eq_iff_iff]
      omega

theorem add_ofNat_toNat {y : Word32} {n row : ℕ} (hrow : row < n) (hy : y.toNat + n < 2 ^ 32) :
    (y + BitVec.ofNat 32 row).toNat = y.toNat + row := by
  rw [BitVec.toNat_add, BitVec.toNat_ofNat]
  omega

theorem toNat_add_lt {x y : Word32} (h : x.toNat + y.toNat < 2 ^ 32) :
    (x + y).toNat = x.toNat + y.toNat := by
  rw [BitVec.toNat_add, Nat.mod_eq_of_lt h]

/-- Row `row` of a flush inside the screen. -/
theorem Geometry.flushRow_rect (h : f.Geometry) {src dest : Buffer} {x y width : Word32}
    {height row o : ℕ} (hx : x.toNat + width.toNat ≤ f.width.toNat)
    (hy : y.toNat + height ≤ f.height.toNat) (hrow : row < height) :
    f.flushRow src (f.pixelOffset x (y + BitVec.ofNat 32 row)) width dest o =
      if (y.toNat + row) * f.pitch.toNat + x.toNat * f.pixelBytes ≤ o ∧
        o < (y.toNat + row) * f.pitch.toNat + x.toNat * f.pixelBytes +
          width.toNat * f.pixelBytes then src o else dest o := by
  have hheight := f.height.isLt
  have hline : (y + BitVec.ofNat 32 row).toNat = y.toNat + row :=
    add_ofNat_toNat hrow (by omega)
  rw [h.flushRow_apply (by omega), h.pixelOffset_eq (by omega) (by omega), hline]

/-- A flush of a rectangle inside the screen copies its bytes. -/
theorem Geometry.flush_apply (h : f.Geometry) (src dest : Buffer) {x y width height : Word32}
    (hx : x.toNat + width.toNat ≤ f.width.toNat)
    (hy : y.toNat + height.toNat ≤ f.height.toNat) (o : ℕ) :
    (o ∈ f.rect x.toNat y.toNat width.toNat height.toNat →
      f.flush src x y width height dest o = src o) ∧
      (dest o = src o → f.flush src x y width height dest o = src o) := by
  rw [flush]
  by_cases hout : f.width ≤ x ∨ f.height ≤ y
  · rw [if_pos hout]
    rw [BitVec.le_def, BitVec.le_def] at hout
    refine ⟨fun hmem => ?_, fun hsame => hsame⟩
    obtain ⟨row, hrow, hlow, hhigh⟩ := hmem
    have hwidth : width.toNat = 0 := by omega
    rw [hwidth] at hhigh
    omega
  · have hwide := f.width.isLt
    have hhigh := f.height.isLt
    have hclampx : ¬ f.width < x + width := by
      rw [BitVec.lt_def, BitVec.toNat_add]
      omega
    have hclampy : ¬ f.height < y + height := by
      rw [BitVec.lt_def, BitVec.toNat_add]
      omega
    rw [if_neg hout, if_neg hclampx, if_neg hclampy]
    have hkeep (n : ℕ) (hn : n < height.toNat) (b : Buffer) (hb : b o = src o) :
        f.flushRow src (f.pixelOffset x (y + BitVec.ofNat 32 n)) width b o = src o := by
      rw [h.flushRow_rect hx hy hn, hb, ite_self]
    refine ⟨?_, fun hsame => countUp_invariant (fun b : Buffer => b o = src o) hsame hkeep⟩
    rintro ⟨row, hrow, hmem⟩
    have hupto (n : ℕ) (hn : n ≤ height.toNat) (hlt : row < n) :
        countUp n (fun row => f.flushRow src (f.pixelOffset x (y + BitVec.ofNat 32 row)) width)
          dest o = src o := by
      induction n with
      | zero => omega
      | succ n ih =>
          rw [countUp_succ]
          by_cases hlast : row = n
          · rw [← hlast, h.flushRow_rect hx hy hrow, if_pos hmem]
          · exact hkeep n hn _ (ih (by omega) (by omega))
    exact hupto height.toNat le_rfl hrow

/-! ### Drawing -/

theorem storePixel_congr {x y color : Word32} {b b' : Buffer} {o : ℕ} (h : b o = b' o) :
    f.storePixel x y color b o = f.storePixel x y color b' o :=
  Buffer.storeColor_congr h

theorem drawGlyph_congr {x y fg bg : Word32} {ch : Byte} {b b' : Buffer} {o : ℕ}
    (h : b o = b' o) : f.drawGlyph x y ch fg bg b o = f.drawGlyph x y ch fg bg b' o := by
  rw [drawGlyph, drawGlyph]
  refine countUp_related (fun b b' : Buffer => b o = b' o) h fun row _ s s' hs => ?_
  exact countUp_related (fun b b' : Buffer => b o = b' o) hs fun col _ t t' ht => storePixel_congr ht

/-- A glyph inside the screen changes no byte outside its rectangle. -/
theorem Geometry.drawGlyph_of_outside (h : f.Geometry) {x y fg bg : Word32} {ch : Byte}
    {b : Buffer} {o : ℕ} (hx : x.toNat + 8 ≤ f.width.toNat)
    (hy : y.toNat + f.fontHeight.toNat ≤ f.height.toNat)
    (hout : o ∉ f.rect x.toNat y.toNat 8 f.fontHeight.toNat) :
    f.drawGlyph x y ch fg bg b o = b o := by
  have hwide := f.width.isLt
  have hhigh := f.height.isLt
  rw [drawGlyph]
  refine countUp_invariant (fun b' : Buffer => b' o = b o) rfl fun row hrow s hs => ?_
  refine countUp_invariant (fun b' : Buffer => b' o = b o) hs fun col hcol t ht => ?_
  have hcol8 : col < 8 := hcol
  have hline : (y + BitVec.ofNat 32 row).toNat = y.toNat + row := add_ofNat_toNat hrow (by omega)
  have hplace : (x + BitVec.ofNat 32 col).toNat = x.toNat + col :=
    add_ofNat_toNat hcol8 (by omega)
  rw [← ht, storePixel, h.pixelOffset_eq (by omega) (by omega), hline, hplace]
  apply Buffer.storeColor_of_outside
  by_contra hin
  apply hout
  refine ⟨row, hrow, ?_, ?_⟩
  · have : x.toNat * f.pixelBytes ≤ (x.toNat + col) * f.pixelBytes :=
      Nat.mul_le_mul_right _ (by omega)
    omega
  · have : (x.toNat + col) * f.pixelBytes + f.pixelBytes ≤ x.toNat * f.pixelBytes +
        8 * f.pixelBytes := by
      rw [← Nat.add_mul, ← Nat.succ_mul]
      exact Nat.mul_le_mul_right _ (by omega)
    omega

/-! ### Scrolling -/

theorem clearRow_congr {y : Word32} {b b' : Buffer} {o : ℕ} (h : b o = b' o) :
    f.clearRow y b o = f.clearRow y b' o := by
  rw [clearRow, clearRow]
  split_ifs
  · exact Buffer.clearUnits_congr (Buffer.clearUnits_congr h)
  · exact Buffer.clearUnits_congr h
  · exact Buffer.clearUnits_congr h
  · exact h

/-- The two moves of `framebuffer_scroll` together. -/
theorem move_apply (b : Buffer) (off size o : ℕ) :
    Buffer.moveUnits off 1 (size / 8 * 8) (size % 8) (Buffer.moveUnits off 8 0 (size / 8) b) o =
      if o < size then b (o + off) else b o := by
  rw [Buffer.moveUnits_apply, Buffer.moveUnits_apply, Buffer.moveUnits_apply]
  by_cases htail : size / 8 * 8 ≤ o ∧ o < size / 8 * 8 + 1 * (size % 8)
  · rw [if_pos htail, if_neg (by omega), if_pos (by omega)]
  · rw [if_neg htail]
    congr 1
    rw [eq_iff_iff]
    omega

/-- What scrolling makes of the visible bytes depends on the visible bytes only. -/
theorem Geometry.scrollBuffer_congr (h : f.Geometry) {fontHeight : Word32} {b b' : Buffer}
    (hfont : fontHeight.toNat ≤ f.height.toNat) (hsame : Set.EqOn b b' f.visible) :
    Set.EqOn (f.scrollBuffer fontHeight b) (f.scrollBuffer fontHeight b') f.visible := by
  intro o ho
  have hoff : (fontHeight * f.pitch).toNat = fontHeight.toNat * f.pitch.toNat := by
    rw [BitVec.toNat_mul]
    exact Nat.mod_eq_of_lt (lt_of_le_of_lt (Nat.mul_le_mul_right _ hfont) h.fits)
  have hrest : (f.height - fontHeight).toNat = f.height.toNat - fontHeight.toNat :=
    BitVec.toNat_sub_of_le (BitVec.le_def.mpr hfont)
  have hsize : ((f.height - fontHeight) * f.pitch).toNat =
      (f.height.toNat - fontHeight.toNat) * f.pitch.toNat := by
    rw [BitVec.toNat_mul, hrest]
    exact Nat.mod_eq_of_lt (lt_of_le_of_lt (Nat.mul_le_mul_right _ (Nat.sub_le _ _)) h.fits)
  rw [scrollBuffer, scrollBuffer, hoff, hsize]
  refine countUp_related (fun b b' : Buffer => b o = b' o) ?_ fun _ _ _ _ hs => clearRow_congr hs
  rw [move_apply, move_apply]
  by_cases hmoved : o < (f.height.toNat - fontHeight.toNat) * f.pitch.toNat
  · rw [if_pos hmoved, if_pos hmoved]
    -- the byte comes from the same column of a row further down
    apply hsame
    obtain ⟨row, hrow, hlow, hhigh⟩ := mem_visible.mp ho
    have hrows : row < f.height.toNat - fontHeight.toNat :=
      lt_of_mul_lt_mul_right (lt_of_le_of_lt hlow hmoved) (Nat.zero_le _)
    refine mem_visible.mpr ⟨row + fontHeight.toNat, by omega, ?_, ?_⟩
    · rw [Nat.add_mul]
      omega
    · rw [Nat.add_mul]
      omega
  · rw [if_neg hmoved, if_neg hmoved]
    exact hsame ho

/-! ### The run with the back buffer and the run without it -/

/-- The run without a back buffer is in state `s'` when the run with it is in `s`. -/
structure Shadows (f : Framebuffer) (s s' : Screen) : Prop where
  cursorX : s.cursorX = s'.cursorX
  cursorY : s.cursorY = s'.cursorY
  direct : s'.backbuffer = none
  screen : Set.EqOn s.vram s'.vram f.visible
  back : ∀ b, s.backbuffer = some b → Set.EqOn b s.vram f.visible

theorem Geometry.visible_flush (h : f.Geometry) (src dest : Buffer) :
    Set.EqOn (f.flush src 0 0 f.width f.height dest) src f.visible := by
  intro o ho
  have hzero : (0 : Word32).toNat = 0 := rfl
  exact (h.flush_apply src dest (by omega) (by omega) o).1 ho

theorem Geometry.shadows_scroll (h : f.Geometry) {s s' : Screen} (hs : f.Shadows s s') :
    f.Shadows (f.scroll s) (f.scroll s') := by
  obtain ⟨hx, hy, hdirect, hscreen, hback⟩ := id hs
  have hfont : (if f.height < f.fontHeight then f.height else f.fontHeight).toNat ≤
      f.height.toNat := by
    split_ifs with hlt
    · exact le_rfl
    · exact BitVec.le_def.mp (BitVec.not_lt.mp hlt)
  rw [scroll, scroll]
  generalize (if f.height < f.fontHeight then f.height else f.fontHeight) = fontHeight at *
  by_cases hpresent : f.present = false
  · rw [if_pos hpresent, if_pos hpresent]
    exact hs
  · rw [if_neg hpresent, if_neg hpresent, hdirect]
    cases hcase : s.backbuffer with
    | none =>
        refine ⟨hx, ?_, rfl, h.scrollBuffer_congr hfont hscreen, fun b hb => ?_⟩
        · dsimp only
          rw [hy]
        · cases hb
    | some back =>
        have hmoved := h.scrollBuffer_congr hfont ((hback back hcase).trans hscreen)
        have hshown := h.visible_flush (f.scrollBuffer fontHeight back) s.vram
        refine ⟨hx, ?_, rfl, hshown.trans hmoved, fun b hb => ?_⟩
        · dsimp only
          rw [hy]
        · obtain rfl := Option.some.inj hb
          exact hshown.symm

/-- The rectangle of a glyph inside the screen. -/
theorem Geometry.shadows_drawChar (h : f.Geometry) {s s' : Screen} (hs : f.Shadows s s')
    {x y fg bg : Word32} {c : Byte} (hx : x.toNat + 8 < 2 ^ 32)
    (hy : y.toNat + f.fontHeight.toNat < 2 ^ 32) :
    f.Shadows (f.drawChar x y c fg bg s) (f.drawChar x y c fg bg s') := by
  obtain ⟨hcx, hcy, hdirect, hscreen, hback⟩ := id hs
  have hright : (x + fontWidth).toNat = x.toNat + 8 := toNat_add_lt hx
  have hdown : (y + f.fontHeight).toNat = y.toNat + f.fontHeight.toNat := toNat_add_lt hy
  rw [drawChar, drawChar]
  by_cases hpresent : f.present = false
  · rw [if_pos hpresent, if_pos hpresent]
    exact hs
  · rw [if_neg hpresent, if_neg hpresent, hdirect]
    by_cases hout : f.width < x + fontWidth ∨ f.height < y + f.fontHeight
    · simp only [if_pos hout]
      exact hs
    · simp only [if_neg hout]
      generalize (if (128 : Byte) ≤ c then 0x3F else c) = ch
      rw [BitVec.lt_def, BitVec.lt_def, hright, hdown] at hout
      cases hcase : s.backbuffer with
      | none =>
          refine ⟨hcx, hcy, rfl, fun o ho => drawGlyph_congr (hscreen ho), fun b hb => ?_⟩
          cases hb
      | some back =>
          have hwidth : x.toNat + fontWidth.toNat ≤ f.width.toNat := by
            change x.toNat + 8 ≤ _
            omega
          have hflush (o : ℕ) := h.flush_apply (f.drawGlyph x y ch fg bg back) s.vram hwidth
            (show y.toNat + f.fontHeight.toNat ≤ f.height.toNat by omega) o
          have hshown : Set.EqOn
              (f.flush (f.drawGlyph x y ch fg bg back) x y fontWidth f.fontHeight s.vram)
              (f.drawGlyph x y ch fg bg back) f.visible := by
            intro o ho
            by_cases hin : o ∈ f.rect x.toNat y.toNat 8 f.fontHeight.toNat
            · exact (hflush o).1 hin
            · apply (hflush o).2
              rw [h.drawGlyph_of_outside (by omega) (by omega) hin]
              exact (hback back hcase ho).symm
          refine ⟨hcx, hcy, rfl, fun o ho => ?_, fun b hb => ?_⟩
          · exact (hshown ho).trans (drawGlyph_congr ((hback back hcase ho).trans (hscreen ho)))
          · obtain rfl := Option.some.inj hb
            exact hshown.symm

theorem shadows_putpixel {s s' : Screen} (hs : f.Shadows s s') (x y color : Word32) :
    f.Shadows (f.putpixel x y color s) (f.putpixel x y color s') := by
  obtain ⟨hcx, hcy, hdirect, hscreen, hback⟩ := id hs
  rw [putpixel, putpixel]
  by_cases hout : f.present = false ∨ f.width ≤ x ∨ f.height ≤ y
  · rw [if_pos hout, if_pos hout]
    exact hs
  · rw [if_neg hout, if_neg hout]
    refine ⟨hcx, hcy, by rw [hdirect]; rfl, fun o ho => storePixel_congr (hscreen ho), ?_⟩
    intro b hb o ho
    obtain ⟨back, hcase, rfl⟩ := Option.map_eq_some_iff.mp hb
    exact storePixel_congr (hback back hcase ho)

/-! ### Calls and runs -/

/-- The cursor is at the left edge or leaves room for a glyph. -/
def ColumnFits (f : Framebuffer) (s : Screen) : Prop :=
  s.cursorX = 0 ∨ s.cursorX.toNat + 8 ≤ f.width.toNat

/-- The call does not draw a glyph whose last line lies beyond 2^32. -/
def LineFits (f : Framebuffer) (s : Screen) : ConsoleCall → Prop
  | .putchar c _ _ => c = newline ∨ s.cursorY.toNat + f.fontHeight.toNat < 2 ^ 32
  | _ => True

/-- Every call of the list draws on lines below 2^32. -/
def LinesFit (f : Framebuffer) : List ConsoleCall → Screen → Prop
  | [], _ => True
  | call :: list, s => f.LineFits s call ∧ LinesFit f list (f.call call s)

theorem Geometry.width_lt (h : f.Geometry) : f.width.toNat + 16 < 2 ^ 32 := by
  have hbytes := h.pixelBytes_le
  have hpitch := f.pitch.isLt
  have hwide : f.width.toNat * 3 ≤ f.width.toNat * f.pixelBytes :=
    Nat.mul_le_mul_left _ hbytes.1
  have hrows := h.rows
  omega

@[simp]
theorem scroll_cursorX (s : Screen) : (f.scroll s).cursorX = s.cursorX := by
  rw [scroll]
  split
  · rfl
  · cases s.backbuffer <;> rfl

@[simp]
theorem drawChar_cursor (x y : Word32) (c : Byte) (fg bg : Word32) (s : Screen) :
    (f.drawChar x y c fg bg s).cursorX = s.cursorX ∧
      (f.drawChar x y c fg bg s).cursorY = s.cursorY := by
  rw [drawChar]
  split
  · exact ⟨rfl, rfl⟩
  · dsimp only
    split
    · exact ⟨rfl, rfl⟩
    · cases s.backbuffer <;> exact ⟨rfl, rfl⟩

/-- The cursor after `c`, before the screen scrolls. -/
def advance (f : Framebuffer) (c : Byte) (s : Screen) : Word32 × Word32 :=
  if c = newline then (0, s.cursorY + f.fontHeight)
  else if f.width < s.cursorX + fontWidth + fontWidth then (0, s.cursorY + f.fontHeight)
  else (s.cursorX + fontWidth, s.cursorY)

/-- `c` is drawn and the cursor moves on. -/
def typed (f : Framebuffer) (c : Byte) (fg bg : Word32) (s : Screen) : Screen :=
  { (if c = newline then s else f.drawChar s.cursorX s.cursorY c fg bg s) with
    cursorX := (f.advance c s).1
    cursorY := (f.advance c s).2 }

theorem putchar_eq (c : Byte) (fg bg : Word32) (s : Screen) :
    f.putchar c fg bg s =
      if f.height ≤ (f.advance c s).2 + f.fontHeight then f.scroll (f.typed c fg bg s)
      else f.typed c fg bg s := by
  have htyped : f.typed c fg bg s =
      (if c = newline then { s with cursorX := 0, cursorY := s.cursorY + f.fontHeight }
      else
        let s := f.drawChar s.cursorX s.cursorY c fg bg s
        let s := { s with cursorX := s.cursorX + fontWidth }
        if f.width < s.cursorX + fontWidth then
          { s with cursorX := 0, cursorY := s.cursorY + f.fontHeight }
        else s) := by
    obtain ⟨hx, hy⟩ := drawChar_cursor (f := f) s.cursorX s.cursorY c fg bg s
    rw [typed, advance]
    by_cases hc : c = newline
    · simp only [if_pos hc]
    · simp only [if_neg hc, hx, hy]
      by_cases hwrap : f.width < s.cursorX + fontWidth + fontWidth
      · simp only [if_pos hwrap]
      · simp only [if_neg hwrap]
  have hline : (f.typed c fg bg s).cursorY = (f.advance c s).2 := rfl
  rw [putchar, ← htyped, ← hline]

theorem Geometry.columnFits_typed (h : f.Geometry) {s : Screen} (hs : f.ColumnFits s)
    (c : Byte) (fg bg : Word32) : f.ColumnFits (f.typed c fg bg s) := by
  have hwidth := h.width_lt
  change (f.advance c s).1 = 0 ∨ (f.advance c s).1.toNat + 8 ≤ f.width.toNat
  rw [advance]
  split_ifs with hc hwrap
  · exact Or.inl rfl
  · exact Or.inl rfl
  · right
    have hsmall : s.cursorX.toNat + 16 < 2 ^ 32 := by
      rcases hs with hzero | hfits
      · rw [hzero]
        decide
      · omega
    have hnext : (s.cursorX + fontWidth).toNat = s.cursorX.toNat + 8 :=
      toNat_add_lt (show s.cursorX.toNat + 8 < 2 ^ 32 by omega)
    have hafter : (s.cursorX + fontWidth + fontWidth).toNat = s.cursorX.toNat + 8 + 8 := by
      rw [toNat_add_lt (show (s.cursorX + fontWidth).toNat + 8 < 2 ^ 32 by omega), hnext]
      rfl
    rw [BitVec.lt_def, hafter] at hwrap
    change (s.cursorX + fontWidth).toNat + 8 ≤ _
    omega

theorem Geometry.columnFits_call (h : f.Geometry) {s : Screen} (hs : f.ColumnFits s)
    (call : ConsoleCall) : f.ColumnFits (f.call call s) := by
  cases call with
  | putchar c fg bg =>
      rw [call, putchar_eq]
      split
      · rw [ColumnFits, scroll_cursorX]
        exact h.columnFits_typed hs c fg bg
      · exact h.columnFits_typed hs c fg bg
  | putpixel x y color =>
      rw [call, putpixel]
      split <;> exact hs
  | scroll =>
      rw [call, ColumnFits, scroll_cursorX]
      exact hs

theorem Geometry.shadows_typed (h : f.Geometry) {s s' : Screen} (hs : f.Shadows s s')
    (hcolumn : f.ColumnFits s) {c : Byte} {fg bg : Word32}
    (hline : f.LineFits s (.putchar c fg bg)) :
    f.Shadows (f.typed c fg bg s) (f.typed c fg bg s') := by
  have hcursor : f.advance c s = f.advance c s' := by
    rw [advance, advance, hs.cursorX, hs.cursorY]
  have hdrawn : f.Shadows (if c = newline then s else f.drawChar s.cursorX s.cursorY c fg bg s)
      (if c = newline then s' else f.drawChar s'.cursorX s'.cursorY c fg bg s') := by
    by_cases hc : c = newline
    · rw [if_pos hc, if_pos hc]
      exact hs
    · have hwidth := h.width_lt
      have hx : s.cursorX.toNat + 8 < 2 ^ 32 := by
        rcases hcolumn with hzero | hfits
        · rw [hzero]
          decide
        · omega
      rw [if_neg hc, if_neg hc, ← hs.cursorX, ← hs.cursorY]
      exact h.shadows_drawChar hs hx (hline.resolve_left hc)
  rw [typed, typed, hcursor]
  exact ⟨rfl, rfl, hdrawn.direct, hdrawn.screen, hdrawn.back⟩

theorem Geometry.shadows_call (h : f.Geometry) {s s' : Screen} (hs : f.Shadows s s')
    (hcolumn : f.ColumnFits s) {call : ConsoleCall} (hline : f.LineFits s call) :
    f.Shadows (f.call call s) (f.call call s') := by
  cases call with
  | putchar c fg bg =>
      have hcursor : f.advance c s = f.advance c s' := by
        rw [advance, advance, hs.cursorX, hs.cursorY]
      have htyped := h.shadows_typed hs hcolumn hline
      rw [call, putchar_eq, putchar_eq, hcursor]
      split
      · exact h.shadows_scroll htyped
      · exact htyped
  | putpixel x y color => exact shadows_putpixel hs x y color
  | scroll => exact h.shadows_scroll hs

theorem Geometry.shadows_calls (h : f.Geometry) {s s' : Screen} (hs : f.Shadows s s')
    (hcolumn : f.ColumnFits s') {list : List ConsoleCall} (hlines : f.LinesFit list s') :
    f.Shadows (f.calls list s) (f.calls list s') := by
  induction list generalizing s s' with
  | nil => exact hs
  | cons call list ih =>
      have hcolumn' : f.ColumnFits s := by
        rw [ColumnFits, hs.cursorX]
        exact hcolumn
      have hline : f.LineFits s call := by
        cases call with
        | putchar c fg bg =>
            rw [LineFits, hs.cursorY]
            exact hlines.1
        | putpixel x y color => trivial
        | scroll => trivial
      exact ih (h.shadows_call hs hcolumn' hline) (h.columnFits_call hcolumn call) hlines.2

theorem Geometry.columnFits_calls (h : f.Geometry) {s : Screen} (hs : f.ColumnFits s)
    (list : List ConsoleCall) : f.ColumnFits (f.calls list s) := by
  induction list generalizing s with
  | nil => exact hs
  | cons call list ih => exact ih (h.columnFits_call hs call)

/-- The console at boot, over video memory with any content. -/
def initialScreen (vram : Buffer) : Screen := ⟨vram, none, 0, 0⟩

theorem shadows_self {s : Screen} (hback : s.backbuffer = none) : f.Shadows s s :=
  ⟨rfl, rfl, hback, fun _ _ => rfl, fun b hb => by rw [hback] at hb; cases hb⟩

theorem Geometry.shadows_enable (h : f.Geometry) {s : Screen} (hback : s.backbuffer = none)
    (block : Buffer) (line : List Glyph) :
    f.Shadows (f.enableBackbuffer (some block) line s) s := by
  rw [enableBackbuffer]
  by_cases hpresent : f.present = false
  · rw [if_pos hpresent]
    exact shadows_self hback
  · rw [if_neg hpresent]
    refine ⟨rfl, rfl, hback, fun _ _ => rfl, fun b hb o ho => ?_⟩
    obtain rfl := Option.some.inj hb
    obtain ⟨row, hrow, hlow, hhigh⟩ := mem_visible.mp ho
    have hsize : (f.height * f.pitch).toNat = f.height.toNat * f.pitch.toNat := by
      rw [BitVec.toNat_mul, Nat.mod_eq_of_lt h.fits]
    have hrows := h.rows
    have hlast : (row + 1) * f.pitch.toNat ≤ f.height.toNat * f.pitch.toNat :=
      Nat.mul_le_mul_right _ hrow
    rw [Nat.add_mul] at hlast
    rw [Buffer.copyUnits_apply, hsize, if_pos (by omega)]

theorem linesFit_append {before after : List ConsoleCall} {s : Screen} :
    f.LinesFit (before ++ after) s ↔
      f.LinesFit before s ∧ f.LinesFit after (f.calls before s) := by
  induction before generalizing s with
  | nil => exact ⟨fun h => ⟨trivial, h⟩, fun h => h.2⟩
  | cons call before ih =>
      rw [List.cons_append, LinesFit, ih, LinesFit, and_assoc]
      rfl

/-! ### Fonts that fit on the screen -/

/-- The cursor leaves room for a line. -/
def RowFits (f : Framebuffer) (s : Screen) : Prop :=
  s.cursorY.toNat + f.fontHeight.toNat ≤ f.height.toNat

theorem Geometry.height_lt (h : f.Geometry) (hwidth : 0 < f.width.toNat) :
    f.height.toNat * 3 < 2 ^ 32 := by
  have hpitch : 1 * f.pixelBytes ≤ f.pitch.toNat :=
    le_trans (Nat.mul_le_mul_right _ hwidth) h.rows
  have hbytes := h.pixelBytes_le
  have hrows : f.height.toNat * 3 ≤ f.height.toNat * f.pitch.toNat :=
    Nat.mul_le_mul_left _ (by omega)
  exact lt_of_le_of_lt hrows h.fits

theorem fontHeight_lt : f.fontHeight.toNat < 256 := by
  rw [fontHeight]
  cases f.currentFont with
  | none => decide
  | some font =>
      dsimp only
      rw [BitVec.toNat_setWidth]
      have := font.charsize.isLt
      omega

/-- One line less, or the top. -/
theorem scroll_cursorY_le (hpresent : f.present = true)
    (hfont : f.fontHeight.toNat ≤ f.height.toNat) (s : Screen) :
    (f.scroll s).cursorY.toNat ≤ s.cursorY.toNat - f.fontHeight.toNat := by
  have hclamp : ¬ f.height < f.fontHeight := by
    rw [BitVec.lt_def]
    omega
  have hpart : (f.scroll s).cursorY =
      if f.fontHeight ≤ s.cursorY then s.cursorY - f.fontHeight else 0 := by
    rw [scroll, if_neg (by simp [hpresent]), if_neg hclamp]
    cases s.backbuffer <;> rfl
  rw [hpart]
  split_ifs with hle
  · rw [BitVec.toNat_sub_of_le hle]
  · exact Nat.zero_le _

theorem Geometry.rowFits_typed (h : f.Geometry) (hpresent : f.present = true)
    (hwidth : 0 < f.width.toNat) {s : Screen} (hs : f.RowFits s) (c : Byte) (fg bg : Word32) :
    f.RowFits (f.putchar c fg bg s) := by
  have hheight := h.height_lt hwidth
  have hfont := fontHeight_lt (f := f)
  rw [RowFits] at hs
  have hline : (s.cursorY + f.fontHeight).toNat = s.cursorY.toNat + f.fontHeight.toNat :=
    toNat_add_lt (by omega)
  have hnext : (f.advance c s).2.toNat ≤ s.cursorY.toNat + f.fontHeight.toNat := by
    rw [advance]
    split_ifs
    · exact hline.le
    · exact hline.le
    · exact Nat.le_add_right _ _
  have hbelow : ((f.advance c s).2 + f.fontHeight).toNat =
      (f.advance c s).2.toNat + f.fontHeight.toNat := toNat_add_lt (by omega)
  have hcursor : (f.typed c fg bg s).cursorY = (f.advance c s).2 := rfl
  rw [putchar_eq]
  split_ifs with hend
  · have hscroll := scroll_cursorY_le hpresent (by omega) (f.typed c fg bg s)
    rw [hcursor] at hscroll
    rw [RowFits]
    omega
  · rw [RowFits, hcursor]
    rw [BitVec.le_def, hbelow] at hend
    omega

theorem Geometry.rowFits_call (h : f.Geometry) (hpresent : f.present = true)
    (hwidth : 0 < f.width.toNat) {s : Screen} (hs : f.RowFits s) (call : ConsoleCall) :
    f.RowFits (f.call call s) := by
  cases call with
  | putchar c fg bg => exact h.rowFits_typed hpresent hwidth hs c fg bg
  | putpixel x y color =>
      rw [call, putpixel]
      split <;> exact hs
  | scroll =>
      rw [RowFits] at hs
      have hscroll := scroll_cursorY_le hpresent (by omega) s
      change (f.scroll s).cursorY.toNat + _ ≤ _
      omega

/-- A font that is not higher than the screen never leaves the screen. -/
theorem Geometry.linesFit (h : f.Geometry) (hpresent : f.present = true)
    (hwidth : 0 < f.width.toNat) {s : Screen} (hs : f.RowFits s) (list : List ConsoleCall) :
    f.LinesFit list s := by
  induction list generalizing s with
  | nil => trivial
  | cons call list ih =>
      refine ⟨?_, ih (h.rowFits_call hpresent hwidth hs call)⟩
      have hheight := f.height.isLt
      rw [RowFits] at hs
      cases call with
      | putchar c fg bg => exact Or.inr (by omega)
      | putpixel x y color => trivial
      | scroll => trivial

/-! ### The back buffer does not show -/

/-- A run with the back buffer shows what the run shows that never enables it, and keeps
the same cursor, as long as no glyph is drawn beyond line 2^32; the back buffer equals
video memory on the visible bytes. -/
theorem backBuffer_invisible (h : f.Geometry) (vram block : Buffer) (line : List Glyph)
    (before after : List ConsoleCall)
    (hlines : f.LinesFit (before ++ after) (initialScreen vram)) :
    f.Shadows
      (f.calls after (f.enableBackbuffer (some block) line
        (f.calls before (initialScreen vram))))
      (f.calls after (f.calls before (initialScreen vram))) := by
  obtain ⟨hbefore, hafter⟩ := linesFit_append.mp hlines
  have hstart : f.ColumnFits (initialScreen vram) := Or.inl rfl
  have hdirect := (h.shadows_calls (shadows_self rfl) hstart hbefore).direct
  exact h.shadows_calls (h.shadows_enable hdirect block line)
    (h.columnFits_calls hstart before) hafter

/-- A full HD screen with the built-in font. -/
def fullHd : Framebuffer :=
  ⟨true, 1920, 1080, 7680, 32, none, fun _ _ => 0⟩

theorem fullHd_geometry : fullHd.Geometry := ⟨Or.inl rfl, by decide, by decide⟩

/-- A console that prints a character, enables the back buffer and prints another one. -/
theorem backBuffer_invisible_fullHd :
    fullHd.Shadows
      (fullHd.calls [.putchar 0x42 0xFFFFFF 0] (fullHd.enableBackbuffer (some fun _ => 0) []
        (fullHd.calls [.putchar 0x41 0xFFFFFF 0] (initialScreen fun _ => 0))))
      (fullHd.calls [.putchar 0x42 0xFFFFFF 0]
        (fullHd.calls [.putchar 0x41 0xFFFFFF 0] (initialScreen fun _ => 0))) :=
  backBuffer_invisible fullHd_geometry _ _ [] _ _
    (fullHd_geometry.linesFit rfl (by decide) (by rw [RowFits]; decide) _)

def plainLine (text : String) : List Glyph :=
  text.toList.map fun c => ⟨BitVec.ofNat 8 c.toNat, 0xFFFFFF, 0⟩

/-- What `framebuffer_enable_backbuffer` prints when `malloc` fails. -/
def failureLine : List Glyph :=
  plainLine "[0.000] LOG: Framebuffer: Failed to allocate backbuffer, using direct access to VRAM.\n"

theorem failureLine_cursorY :
    (fullHd.enableBackbuffer none failureLine (initialScreen fun _ => 0)).cursorY = 8 := by
  decide +kernel

/-- A font of 7 lines on a screen of 2. -/
def tallFont : Framebuffer :=
  ⟨true, 16, 2, 64, 32, some ⟨0, 7, fun _ => 0⟩, fun _ _ => 0⟩

theorem tallFont_geometry : tallFont.Geometry := ⟨Or.inl rfl, by decide, by decide⟩

theorem isSome_scroll (s : Screen) :
    (f.scroll s).backbuffer.isSome = s.backbuffer.isSome := by
  rw [scroll]
  split
  · rfl
  · cases s.backbuffer <;> rfl

/-- Every newline moves the cursor five lines further below the screen. -/
theorem tallFont_newline {s : Screen} {n : ℕ} (hn : n < 858993458)
    (hy : s.cursorY.toNat = 5 * n) :
    let t := tallFont.putchar newline 0 0 s
    t.cursorX = 0 ∧ t.cursorY.toNat = 5 * (n + 1) ∧
      t.backbuffer.isSome = s.backbuffer.isSome := by
  have hadv : tallFont.advance newline s = (0, s.cursorY + 7) := rfl
  have hline : (s.cursorY + 7).toNat = 5 * n + 7 := by
    rw [BitVec.toNat_add, hy]
    change (5 * n + 7) % 2 ^ 32 = _
    omega
  have hbelow : tallFont.height ≤ (tallFont.advance newline s).2 + tallFont.fontHeight := by
    rw [hadv, BitVec.le_def, BitVec.toNat_add, hline]
    change 2 ≤ (5 * n + 7 + 7) % 2 ^ 32
    rcases Nat.lt_succ_iff_lt_or_eq.mp hn with hlt | rfl
    · rw [Nat.mod_eq_of_lt (by omega)]
      omega
    · decide
  have htyped : (2 : Word32) ≤ s.cursorY + 7 := by
    rw [BitVec.le_def, hline]
    change 2 ≤ _
    omega
  dsimp only
  rw [putchar_eq, if_pos hbelow]
  refine ⟨scroll_cursorX _, ?_, isSome_scroll _⟩
  have hscroll : ∀ s, (tallFont.scroll s).cursorY =
      if (2 : Word32) ≤ s.cursorY then s.cursorY - 2 else 0 := by
    intro s
    rw [scroll, if_neg (by decide)]
    cases s.backbuffer <;> rfl
  have hcursor : (tallFont.typed newline 0 0 s).cursorY = s.cursorY + 7 := rfl
  rw [hscroll, hcursor, if_pos htyped, BitVec.toNat_sub_of_le htyped, hline]
  change 5 * n + 7 - 2 = _
  omega

def newlines (n : ℕ) : List ConsoleCall := List.replicate n (.putchar newline 0 0)

theorem tallFont_newlines {s : Screen} {m n : ℕ} (hn : m + n ≤ 858993458)
    (hx : s.cursorX = 0) (hy : s.cursorY.toNat = 5 * m) :
    let t := tallFont.calls (newlines n) s
    t.cursorX = 0 ∧ t.cursorY.toNat = 5 * (m + n) ∧
      t.backbuffer.isSome = s.backbuffer.isSome := by
  induction n generalizing m s with
  | zero => exact ⟨hx, hy, rfl⟩
  | succ n ih =>
      obtain ⟨hx', hy', hback⟩ := tallFont_newline (by omega) hy
      obtain ⟨hend, hline, hsome⟩ := ih (m := m + 1) (by omega) hx' hy'
      refine ⟨hend, ?_, hsome.trans hback⟩
      rw [Nat.add_right_comm, Nat.add_assoc] at hline
      exact hline

/-- Drawing a glyph in one colour puts that colour at the start of the buffer when one of
its rows wraps around to the first line. -/
theorem tallFont_drawGlyph (color : Word32) (ch : Byte) (b : Buffer) :
    tallFont.drawGlyph 0 (BitVec.ofNat 32 4294967290) ch color color b 0 =
      color.setWidth 8 := by
  have hkeep : ∀ (x y : Word32) (b : Buffer), b 0 = color.setWidth 8 →
      tallFont.storePixel x y color b 0 = color.setWidth 8 := by
    intro x y b hb
    rw [storePixel, Buffer.storeColor]
    split_ifs with hin
    · rw [Nat.zero_sub]
      simp
    · exact hb
  refine countUp_reaches (n := 7) (i := 6) (fun b : Buffer => b 0 = color.setWidth 8)
    (by decide) ?_ ?_ b
  · intro b
    refine countUp_reaches (n := 8) (i := 0) (fun b : Buffer => b 0 = color.setWidth 8)
      (by decide) ?_ ?_ b
    · intro b
      rw [ite_self]
      change tallFont.storePixel 0 0 color b 0 = _
      rw [storePixel, Buffer.storeColor, if_pos (by decide)]
      simp
    · intro j _ b hb
      rw [ite_self]
      exact hkeep _ _ b hb
  · intro row _ b hb
    refine countUp_invariant (fun b : Buffer => b 0 = color.setWidth 8) hb ?_
    intro col _ b hb
    rw [ite_self]
    exact hkeep _ _ b hb

/-- Below line 2^32 - 7 the direct path draws on the first line and the buffered path does
not. -/
theorem tallFont_wrapped {s : Screen} (hx : s.cursorX = 0)
    (hy : s.cursorY = BitVec.ofNat 32 4294967290) (color : Word32) :
    let t := tallFont.putchar 0x41 color color s
    t.vram 0 = if s.backbuffer.isSome then s.vram 0 else color.setWidth 8 := by
  have hadv : tallFont.advance 0x41 s = (8, BitVec.ofNat 32 4294967290) := by
    rw [advance, hx, hy]
    rfl
  have hstay : ¬ tallFont.height ≤ (tallFont.advance 0x41 s).2 + tallFont.fontHeight := by
    rw [hadv]
    decide
  have htyped : (tallFont.typed 0x41 color color s).vram =
      (tallFont.drawChar 0 (BitVec.ofNat 32 4294967290) 0x41 color color s).vram := by
    rw [typed, hx, hy]
    rfl
  dsimp only
  rw [putchar_eq, if_neg hstay, htyped, drawChar, if_neg (by decide)]
  dsimp only
  rw [if_neg (by decide)]
  cases s.backbuffer with
  | none => exact tallFont_drawGlyph color _ s.vram
  | some back => rfl

theorem tallFont_not_shadows {s s' : Screen} (hx : s.cursorX = 0)
    (hy : s.cursorY.toNat = 4294967290) (hback : s.backbuffer.isSome = true)
    (hx' : s'.cursorX = 0) (hy' : s'.cursorY.toNat = 4294967290)
    (hback' : s'.backbuffer.isSome = false) :
    ¬ ∀ color, tallFont.Shadows (tallFont.putchar 0x41 color color s)
      (tallFont.putchar 0x41 color color s') := by
  intro hall
  -- the first pixel has the glyph's colour in the direct run, whatever that is
  have hfirst : ∀ color : Word32, s.vram 0 = color.setWidth 8 := by
    intro color
    have hpixel := (hall color).screen (x := 0)
      (mem_visible.mpr ⟨0, by decide, by decide, by decide⟩)
    have hbuffered := tallFont_wrapped hx (BitVec.eq_of_toNat_eq hy) color
    have hdirect := tallFont_wrapped hx' (BitVec.eq_of_toNat_eq hy') color
    dsimp only at hbuffered hdirect
    rw [hback, if_pos rfl] at hbuffered
    rw [hback', if_neg (by decide)] at hdirect
    rw [← hbuffered, hpixel, hdirect]
  have hblack := hfirst 0
  have hwhite := hfirst 0xFFFFFF
  rw [hblack] at hwhite
  exact absurd hwhite (by decide)

theorem calls_concat (list : List ConsoleCall) (c : Byte) (fg bg : Word32) (s : Screen) :
    f.calls (list ++ [.putchar c fg bg]) s = f.putchar c fg bg (f.calls list s) := by
  rw [calls, List.foldl_append]
  rfl

theorem not_shadows_wrapped :
    ¬ ∀ after : List ConsoleCall, tallFont.Shadows
      (tallFont.calls after (tallFont.enableBackbuffer (some fun _ => 0) []
        (initialScreen fun _ => 0)))
      (tallFont.calls after (initialScreen fun _ => 0)) := by
  intro hall
  obtain ⟨hx, hy, hback⟩ := tallFont_newlines (m := 0) (n := 858993458) (by omega)
    (s := tallFont.enableBackbuffer (some fun _ => 0) [] (initialScreen fun _ => 0)) rfl rfl
  obtain ⟨hx', hy', hback'⟩ := tallFont_newlines (m := 0) (n := 858993458) (by omega)
    (s := initialScreen fun _ => 0) rfl rfl
  refine tallFont_not_shadows hx hy hback hx' hy' hback' fun color => ?_
  have hshadows := hall (newlines 858993458 ++ [.putchar 0x41 color color])
  rw [calls_concat, calls_concat] at hshadows
  exact hshadows

/-- The run in which the allocation fails shows the failure message as well; and a font that
is higher than the screen lets the direct run draw what the buffered run does not. -/
theorem not_backBuffer_invisible :
    (fullHd.Geometry ∧
      (fullHd.enableBackbuffer (some fun _ => 0) failureLine
        (initialScreen fun _ => 0)).cursorY ≠
      (fullHd.enableBackbuffer none failureLine (initialScreen fun _ => 0)).cursorY) ∧
    tallFont.Geometry ∧ ¬ ∀ after : List ConsoleCall, tallFont.Shadows
      (tallFont.calls after (tallFont.enableBackbuffer (some fun _ => 0) []
        (initialScreen fun _ => 0)))
      (tallFont.calls after (initialScreen fun _ => 0)) := by
  refine ⟨⟨fullHd_geometry, ?_⟩, tallFont_geometry, not_shadows_wrapped⟩
  rw [failureLine_cursorY]
  change (0 : Word32) ≠ 8
  decide

end Framebuffer

end Utopia
