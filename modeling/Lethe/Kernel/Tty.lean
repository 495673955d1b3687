import Lethe.Lib.Raster
import Mathlib.Algebra.Group.Int.Defs

/-!
# The terminal

`terminal/tty.c` and `terminal/pixel.c`: characters are drawn from a font of 8 by 16 points into the
framebuffer. `Console` is what is on the screen: a grid of characters, with the same calls. The lemmas
about `Draws` say which points each function of `terminal/pixel.c` and each loop of `tty_putc`
writes.
-/

namespace Lethe

/-- The globals of both files, the memory, the font at `_binary_font_psf_start` and the bytes that
have been sent to `SERIAL_PORT`, the last one in front. -/
structure Display where
  mem : BitVec 64 → UInt8
  font : Int → UInt8
  fbBase : BitVec 64
  fbPitch : BitVec 32
  fbYres : Int
  fbXres : Int
  initialized : Bool
  cursor : BitVec 32
  line : BitVec 32
  serial : List (BitVec 8)

/-- The bytes of a colour. -/
def colorBytes (color : BitVec 32) : List UInt8 := encodeNat 4 color.toNat

@[simp] theorem length_colorBytes (color : BitVec 32) : (colorBytes color).length = 4 :=
  length_encodeNat ..

namespace Display

/-- `fb_base + (fb_pitch * y) + (4 * x)`. -/
def pointAddress (d : Display) (x y : Int) : BitVec 64 :=
  d.fbBase + (d.fbPitch * BitVec.ofInt 32 y).setWidth 64 + BitVec.ofInt 64 (4 * x)

/-- The assignment to a point. -/
def store (d : Display) (x y : Int) (color : BitVec 32) : Display :=
  { d with mem := writeBytes d.mem (d.pointAddress x y) (colorBytes color) }

/-- `put_pixel`. -/
def putPixel (d : Display) (x y : Int) (color : BitVec 32) : Display :=
  if d.initialized then d.store x y color else d

/-- The inner loop of `fill`, with the number of its rounds. -/
def fillColumn (color : BitVec 32) (x : Int) : Nat → Int → Display → Display
  | 0, _, d => d
  | rounds + 1, y, d => fillColumn color x rounds (y + 1) (d.store x y color)

/-- The outer loop of `fill`. -/
def fillLoop (color : BitVec 32) (startY height : Int) : Nat → Int → Display → Display
  | 0, _, d => d
  | rounds + 1, x, d =>
    fillLoop color startY height rounds (x + 1) (fillColumn color x height.toNat startY d)

/-- `fill`. -/
def fill (d : Display) (startX startY width height : Int) (color : BitVec 32) : Display :=
  if d.initialized then fillLoop color startY height width.toNat startX d else d

/-- `set_cursor`. -/
def setCursor (d : Display) (newCursor newLine : BitVec 32) : Display :=
  { d with cursor := newCursor, line := newLine }

/-- `clear_screen`. -/
def clearScreen (d : Display) : Display := (d.fill 0 0 d.fbXres d.fbYres 0).setCursor 1 1

/-- The inner loop of `tty_putc`: a row of a glyph. -/
def putRow (glyph : UInt8) (y : Int) : Nat → Int → Nat → Display → Display
  | 0, _, _, d => d
  | rounds + 1, x, mask, d =>
    putRow glyph y rounds (x + 1) (mask >>> 1)
      (d.putPixel x y (if glyph.toNat &&& mask ≠ 0 then 0xFFFFFF else 0))

/-- The outer loop of `tty_putc`; `glyph` is the place of the row in the font. -/
def putGlyph (x : Int) : Nat → Int → Int → Display → Display
  | 0, _, _, d => d
  | rounds + 1, y, glyph, d =>
    putGlyph x rounds (y + 1) (glyph + 1) (putRow (d.font glyph) y 8 x 0b10000000 d)

/-- `outb(SERIAL_PORT, ch)`. -/
def send (d : Display) (ch : BitVec 8) : Display := { d with serial := ch :: d.serial }

/-- The part of `tty_putc` that moves to the next line or to an empty screen. -/
def wrap (d : Display) : Display :=
  let d := if d.cursor ≥ 80 then d.setCursor 1 (d.line + 1) else d
  if d.line ≥ 25 then d.clearScreen.setCursor 1 1 else d

/-- The part of `tty_putc` that draws the glyph. The cursor is on the screen, so that the loops make
16 and 8 rounds. -/
def drawGlyph (d : Display) (ch : BitVec 8) : Display :=
  putGlyph (d.cursor * 8).toInt 16 (d.line * 16).toInt (32 + ch.toInt * 16) d

/-- `tty_putc`. -/
def putc (d : Display) (ch : BitVec 8) : Display :=
  let d := d.send ch
  if ch = 10 then d.setCursor 1 (d.line + 1)
  else if ch = 9 then d.setCursor (d.cursor + 4) d.line
  else
    let d := d.wrap.drawGlyph ch
    d.setCursor (d.cursor + 1) d.line

/-- `tty_putc(' ')` and the step back. -/
def putBlank (d : Display) : Display :=
  let d := d.putc 32
  d.setCursor (d.cursor - 1) d.line

/-- `tty_delc`. -/
def delc (d : Display) : Display :=
  if d.cursor = 0 then
    if d.line = 0 then d.putBlank else (d.setCursor 79 (d.line - 1)).putBlank
  else (d.setCursor (d.cursor - 1) d.line).putBlank

end Display

/-- The calls. -/
inductive TtyOp where
  | putc (ch : BitVec 8)
  | delc
  | clearScreen
  | setCursor (cursor line : BitVec 32)
  deriving DecidableEq

def Display.step (d : Display) : TtyOp → Display
  | .putc ch => d.putc ch
  | .delc => d.delc
  | .clearScreen => d.clearScreen
  | .setCursor cursor line => d.setCursor cursor line

/-! ## The console -/

/-- A grid of characters, by line and column, in front of a background. -/
structure Console where
  cell : Nat → Nat → Option (BitVec 8)
  background : Nat → Nat → List UInt8
  cursor : BitVec 32
  line : BitVec 32
  serial : List (BitVec 8)

namespace Console

def moveTo (c : Console) (cursor line : BitVec 32) : Console := { c with cursor, line }

def send (c : Console) (ch : BitVec 8) : Console := { c with serial := ch :: c.serial }

/-- An empty grid on black. -/
def clear (c : Console) : Console :=
  { c with cell := fun _ _ => none, background := fun _ _ => colorBytes 0, cursor := 1, line := 1 }

/-- The next place for a character. -/
def wrap (c : Console) : Console :=
  let c := if c.cursor ≥ 80 then c.moveTo 1 (c.line + 1) else c
  if c.line ≥ 25 then c.clear else c

/-- The cell at the cursor is written. -/
def put (c : Console) (ch : BitVec 8) : Console :=
  { c with cell := fun row col =>
      if row = c.line.toNat ∧ col = c.cursor.toNat then some ch else c.cell row col }

def putc (c : Console) (ch : BitVec 8) : Console :=
  let c := c.send ch
  if ch = 10 then c.moveTo 1 (c.line + 1)
  else if ch = 9 then c.moveTo (c.cursor + 4) c.line
  else
    let c := c.wrap.put ch
    c.moveTo (c.cursor + 1) c.line

def putBlank (c : Console) : Console :=
  let c := c.putc 32
  c.moveTo (c.cursor - 1) c.line

def delc (c : Console) : Console :=
  if c.cursor = 0 then
    if c.line = 0 then c.putBlank else (c.moveTo 79 (c.line - 1)).putBlank
  else (c.moveTo (c.cursor - 1) c.line).putBlank

def step (c : Console) : TtyOp → Console
  | .putc ch => c.putc ch
  | .delc => c.delc
  | .clearScreen => c.clear
  | .setCursor cursor line => c.moveTo cursor line

/-- The colour of the point of a glyph in column `i` of row `j`. -/
def glyphPoint (font : Int → UInt8) (ch : BitVec 8) (i j : Nat) : List UInt8 :=
  colorBytes (if (font (32 + ch.toInt * 16 + j)).toNat &&& (0b10000000 >>> i) ≠ 0 then 0xFFFFFF
    else 0)

/-- The colour of a point of the screen. -/
def point (c : Console) (font : Int → UInt8) (x y : Nat) : List UInt8 :=
  match c.cell (y / 16) (x / 8) with
  | some ch => glyphPoint font ch (x % 8) (y % 16)
  | none => c.background x y

end Console

/-! ## What is drawn -/

namespace Display

/-- The framebuffer. -/
def raster (d : Display) : Raster 64 := ⟨d.fbBase, d.fbPitch.toNat, d.fbXres.toNat, d.fbYres.toNat, 4⟩

/-- `init_fb` has been called, and the grid of 80 by 25 characters is in the framebuffer. -/
structure Ready (d : Display) : Prop where
  initialized : d.initialized = true
  fits : d.raster.Fits
  size_le : d.fbPitch.toNat * d.fbYres.toNat ≤ 2 ^ 32
  xres_ge : 640 ≤ d.fbXres
  yres_ge : 400 ≤ d.fbYres

/-- Points of the framebuffer are written, and nothing else has changed. -/
def Draws (d d' : Display) (f : Nat → Nat → Option (List UInt8)) : Prop :=
  ∃ mem, d' = { d with mem } ∧ d.raster.Painted d.mem mem f

variable {d d' d'' : Display} {f g : Nat → Nat → Option (List UInt8)} {x y x' y' n : Nat}

namespace Draws

theorem refl : Draws d d fun _ _ => none := ⟨d.mem, rfl, .refl⟩

theorem trans (h : Draws d d' f) (h' : Draws d' d'' g) :
    Draws d d'' fun x y => (g x y).or (f x y) := by
  obtain ⟨mem, rfl, hmem⟩ := h
  obtain ⟨mem', rfl, hmem'⟩ := h'
  exact ⟨mem', rfl, hmem.trans hmem'⟩

theorem congr (h : Draws d d' f)
    (hf : ∀ x y, x < d.fbXres.toNat → y < d.fbYres.toNat → g x y = f x y) : Draws d d' g := by
  obtain ⟨mem, rfl, hmem⟩ := h
  exact ⟨mem, rfl, hmem.congr hf⟩

theorem ready (h : Draws d d' f) (hd : d.Ready) : d'.Ready := by
  obtain ⟨mem, rfl, -⟩ := h
  exact ⟨hd.initialized, hd.fits, hd.size_le, hd.xres_ge, hd.yres_ge⟩

theorem xres (h : Draws d d' f) : d'.fbXres = d.fbXres := by
  obtain ⟨mem, rfl, -⟩ := h
  rfl

theorem yres (h : Draws d d' f) : d'.fbYres = d.fbYres := by
  obtain ⟨mem, rfl, -⟩ := h
  rfl

theorem font (h : Draws d d' f) : d'.font = d.font := by
  obtain ⟨mem, rfl, -⟩ := h
  rfl

end Draws

/-- The address does not wrap at 32 bits. -/
theorem pointAddress_eq (h : d.Ready) (hy : y < d.fbYres.toNat) :
    d.pointAddress x y = d.raster.address x y := by
  have hle : d.fbPitch.toNat * (y + 1) ≤ d.fbPitch.toNat * d.fbYres.toNat := Nat.mul_le_mul_left _ hy
  have hsize := h.size_le
  have hpitch := d.fbPitch.isLt
  rw [Nat.mul_add_one] at hle
  have hrow : (d.fbPitch * BitVec.ofInt 32 y).setWidth 64 =
      BitVec.ofNat 64 (d.fbPitch.toNat * y) := by
    apply BitVec.eq_of_toNat_eq
    rw [BitVec.ofInt_natCast, BitVec.toNat_setWidth, BitVec.toNat_mul, BitVec.toNat_ofNat,
      BitVec.toNat_ofNat, Nat.mul_mod_mod]
    rcases Nat.eq_zero_or_pos d.fbPitch.toNat with hz | hpos
    · simp [hz]
    · omega
  have hcol : BitVec.ofInt 64 (4 * (x : Int)) = BitVec.ofNat 64 (4 * x) := by
    rw [← BitVec.ofInt_natCast]
    rfl
  rw [pointAddress, hrow, hcol, BitVec.add_assoc, ← BitVec.ofNat_add]
  rfl

theorem store_draws (color : BitVec 32) (h : d.Ready) (hx : x < d.fbXres.toNat)
    (hy : y < d.fbYres.toNat) : Draws d (d.store x y color)
      fun x' y' => if x' = x ∧ y' = y then some (colorBytes color) else none := by
  refine ⟨_, rfl, ?_⟩
  rw [pointAddress_eq h hy]
  exact .write h.fits hx hy (by decide : 0 < 4) (length_colorBytes color)

theorem putPixel_draws (color : BitVec 32) (h : d.Ready) (hx : x < d.fbXres.toNat)
    (hy : y < d.fbYres.toNat) : Draws d (d.putPixel x y color)
      fun x' y' => if x' = x ∧ y' = y then some (colorBytes color) else none := by
  rw [putPixel, if_pos h.initialized]
  exact store_draws color h hx hy

theorem fillColumn_draws (color : BitVec 32) (h : d.Ready) (hx : x < d.fbXres.toNat)
    (hy : y + n ≤ d.fbYres.toNat) : Draws d (fillColumn color x n y d)
      fun x' y' => if x' = x ∧ y ≤ y' ∧ y' < y + n then some (colorBytes color) else none := by
  induction n generalizing d y with
  | zero =>
    refine .congr .refl fun x' y' _ _ => if_neg ?_
    omega
  | succ n ih =>
    have hstore := store_draws color h hx (y := y) (by omega)
    have hrest := ih (y := y + 1) (hstore.ready h) (by rwa [hstore.xres])
      (by rw [hstore.yres]; omega)
    refine (hstore.trans hrest).congr fun x' y' _ _ => ?_
    grind

theorem fillLoop_draws (color : BitVec 32) {height : Nat} (h : d.Ready) (hx : x + n ≤ d.fbXres.toNat)
    (hy : y + height ≤ d.fbYres.toNat) : Draws d (fillLoop color y height n x d)
      fun x' y' => if x ≤ x' ∧ x' < x + n ∧ y ≤ y' ∧ y' < y + height then some (colorBytes color)
        else none := by
  induction n generalizing d x with
  | zero =>
    refine .congr .refl fun x' y' _ _ => if_neg ?_
    omega
  | succ n ih =>
    have hcolumn := fillColumn_draws color h (x := x) (by omega) hy
    have hrest := ih (x := x + 1) (hcolumn.ready h) (by rw [hcolumn.xres]; omega)
      (by rwa [hcolumn.yres])
    refine (hcolumn.trans hrest).congr fun x' y' _ _ => ?_
    grind

/-- `fill` of the whole framebuffer. -/
theorem fill_draws (color : BitVec 32) (h : d.Ready) : Draws d (d.fill 0 0 d.fbXres d.fbYres color)
    fun _ _ => some (colorBytes color) := by
  have hloop := fillLoop_draws (x := 0) (y := 0) color h (Nat.le_of_eq (Nat.zero_add d.fbXres.toNat))
    (Nat.le_of_eq (Nat.zero_add d.fbYres.toNat))
  have hheight : ((d.fbYres.toNat : Nat) : Int) = d.fbYres := by
    have := h.yres_ge
    omega
  rw [fill, if_pos h.initialized]
  rw [hheight] at hloop
  refine hloop.congr fun x y hx hy => (if_pos ?_).symm
  omega

/-- A row of a glyph: the bits of the byte from the highest one on. -/
theorem putRow_draws (glyph : UInt8) (mask : Nat) (h : d.Ready) (hx : x + n ≤ d.fbXres.toNat)
    (hy : y < d.fbYres.toNat) : Draws d (putRow glyph y n x mask d)
      fun x' y' => if y' = y ∧ x ≤ x' ∧ x' < x + n then
        some (colorBytes (if glyph.toNat &&& (mask >>> (x' - x)) ≠ 0 then 0xFFFFFF else 0))
      else none := by
  induction n generalizing d x mask with
  | zero =>
    refine .congr .refl fun x' y' _ _ => if_neg ?_
    omega
  | succ n ih =>
    have hpoint := putPixel_draws (if glyph.toNat &&& mask ≠ 0 then 0xFFFFFF else 0) h (x := x)
      (by omega) hy
    have hrest := ih (x := x + 1) (mask >>> 1) (hpoint.ready h) (by rw [hpoint.xres]; omega)
      (by rwa [hpoint.yres])
    refine (hpoint.trans hrest).congr fun x' y' _ _ => ?_
    have hshift (hlt : x + 1 ≤ x') : mask >>> 1 >>> (x' - (x + 1)) = mask >>> (x' - x) := by
      rw [← Nat.shiftRight_add, show 1 + (x' - (x + 1)) = x' - x by omega]
    rcases Nat.lt_trichotomy x' x with hlt | rfl | hlt
    · rw [if_neg (by omega), if_neg (by omega), if_neg (by omega)]
      rfl
    · rw [Nat.sub_self, if_neg (by omega : ¬(y' = y ∧ x' + 1 ≤ x' ∧ _)), Option.none_or]
      refine if_congr ?_ rfl rfl
      omega
    · rw [if_neg (by omega : ¬(x' = x ∧ y' = y)), Option.or_none, hshift hlt]
      refine if_congr ?_ rfl rfl
      omega

theorem putGlyph_draws (glyph : Int) (h : d.Ready) (hx : x + 8 ≤ d.fbXres.toNat)
    (hy : y + n ≤ d.fbYres.toNat) : Draws d (putGlyph x n y glyph d)
      fun x' y' => if x ≤ x' ∧ x' < x + 8 ∧ y ≤ y' ∧ y' < y + n then
        some (colorBytes (if (d.font (glyph + (y' - y : Nat))).toNat &&& (0b10000000 >>> (x' - x)) ≠ 0
          then 0xFFFFFF else 0))
      else none := by
  induction n generalizing d y glyph with
  | zero =>
    refine .congr .refl fun x' y' _ _ => if_neg ?_
    omega
  | succ n ih =>
    have hrow := putRow_draws (d.font glyph) 0b10000000 h hx (y := y) (by omega)
    have hrest := ih (y := y + 1) (glyph + 1) (hrow.ready h) (by rwa [hrow.xres])
      (by rw [hrow.yres]; omega)
    rw [hrow.font] at hrest
    refine (hrow.trans hrest).congr fun x' y' _ _ => ?_
    have hnext (hlt : y + 1 ≤ y') : glyph + 1 + ((y' - (y + 1) : Nat) : Int) =
        glyph + ((y' - y : Nat) : Int) := by omega
    rcases Nat.lt_trichotomy y' y with hlt | rfl | hlt
    · rw [if_neg (by omega), if_neg (by omega), if_neg (by omega)]
      rfl
    · rw [Nat.sub_self, Int.natCast_zero, Int.add_zero,
        if_neg (by omega : ¬(x ≤ x' ∧ x' < x + 8 ∧ y' + 1 ≤ y' ∧ _)), Option.none_or]
      refine if_congr ?_ rfl rfl
      omega
    · rw [if_neg (by omega : ¬(y' = y ∧ _)), Option.or_none, hnext hlt]
      refine if_congr ?_ rfl rfl
      omega

end Display

end Lethe
