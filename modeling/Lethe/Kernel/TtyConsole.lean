import Lethe.Kernel.Tty

/-!
# What the terminal shows

`tty_shows_console` connects the framebuffer with the console: after any sequence of calls, each
point of the framebuffer has the colour that the grid of characters gives it. `tty_shows_text` says
where the characters of a text stand: 79 in a line and 24 lines on a screen, and only the last
screen is left. `tty_takes_text_back` says that `tty_delc` takes back what has been written.
-/

namespace Lethe

/-- The framebuffer shows the console. -/
structure Shown (d : Display) (c : Console) : Prop where
  ready : d.Ready
  cursor : d.cursor = c.cursor
  line : d.line = c.line
  serial : d.serial = c.serial
  point : ∀ x y, x < d.fbXres.toNat → y < d.fbYres.toNat →
    d.raster.get d.mem x y = c.point d.font x y

/-- The configuration and the memory outside the framebuffer are as before. -/
structure Display.Frame (d d' : Display) : Prop where
  raster : d'.raster = d.raster
  font : d'.font = d.font
  outside : ∀ a, d.raster.Outside a → d'.mem a = d.mem a

variable {d d' d'' : Display} {c : Console} {f : Nat → Nat → Option (List UInt8)}

namespace Display.Frame

theorem refl : d.Frame d := ⟨rfl, rfl, fun _ _ => rfl⟩

theorem trans (h : d.Frame d') (h' : d'.Frame d'') : d.Frame d'' where
  raster := h'.raster.trans h.raster
  font := h'.font.trans h.font
  outside a ha := (h'.outside a (h.raster ▸ ha)).trans (h.outside a ha)

theorem of_draws (h : d.Draws d' f) : d.Frame d' := by
  obtain ⟨mem, rfl, hmem⟩ := h
  exact ⟨rfl, rfl, hmem.outside⟩

end Display.Frame

namespace Shown

theorem setCursor (h : Shown d c) (cursor line : BitVec 32) :
    Shown (d.setCursor cursor line) (c.moveTo cursor line) ∧ d.Frame (d.setCursor cursor line) :=
  ⟨⟨⟨h.ready.initialized, h.ready.fits, h.ready.size_le, h.ready.xres_ge, h.ready.yres_ge⟩, rfl, rfl,
    h.serial, h.point⟩, rfl, rfl, fun _ _ => rfl⟩

theorem send (h : Shown d c) (ch : BitVec 8) :
    Shown (d.send ch) (c.send ch) ∧ d.Frame (d.send ch) :=
  ⟨⟨⟨h.ready.initialized, h.ready.fits, h.ready.size_le, h.ready.xres_ge, h.ready.yres_ge⟩, h.cursor,
    h.line, congrArg (ch :: ·) h.serial, h.point⟩, rfl, rfl, fun _ _ => rfl⟩

/-- What is drawn is what the other grid and background show. -/
theorem draw (cell : Nat → Nat → Option (BitVec 8)) (background : Nat → Nat → List UInt8)
    (h : Shown d c) (hdraws : d.Draws d' f)
    (hf : ∀ x y, x < d.fbXres.toNat → y < d.fbYres.toNat →
      Console.point { c with cell, background } d.font x y = (f x y).getD (c.point d.font x y)) :
    Shown d' { c with cell, background } ∧ d.Frame d' := by
  have hready := hdraws.ready h.ready
  have hframe := Display.Frame.of_draws hdraws
  obtain ⟨mem, rfl, hmem⟩ := hdraws
  refine ⟨⟨hready, h.cursor, h.line, h.serial, fun x y hx hy => ?_⟩, hframe⟩
  exact ((hmem.point x y hx hy).trans (by rw [h.point x y hx hy])).trans (hf x y hx hy).symm

/-- `clear_screen`. -/
theorem clear (h : Shown d c) : Shown d.clearScreen c.clear ∧ d.Frame d.clearScreen := by
  obtain ⟨hfill, hframe⟩ := draw (fun _ _ => none) (fun _ _ => colorBytes 0) h
    (Display.fill_draws 0 h.ready) fun x y _ _ => rfl
  obtain ⟨hclear, hframe'⟩ := hfill.setCursor 1 1
  exact ⟨hclear, hframe.trans hframe'⟩

/-- The next place for a character is on the screen. -/
theorem wrap (h : Shown d c) : Shown d.wrap c.wrap ∧ d.Frame d.wrap ∧
    c.wrap.cursor.toNat < 80 ∧ c.wrap.line.toNat < 25 := by
  obtain ⟨d₁, c₁, hd₁, hc₁, ⟨h₁, hframe₁⟩, hcursor⟩ : ∃ d₁ c₁,
      (if d.cursor ≥ 80 then d.setCursor 1 (d.line + 1) else d) = d₁ ∧
      (if c.cursor ≥ 80 then c.moveTo 1 (c.line + 1) else c) = c₁ ∧
      (Shown d₁ c₁ ∧ d.Frame d₁) ∧ c₁.cursor < 80 := by
    refine ⟨_, _, rfl, rfl, ?_⟩
    rw [h.cursor, h.line]
    split
    case isTrue => exact ⟨h.setCursor 1 _, BitVec.lt_def.mpr (by decide : 1 < 80)⟩
    case isFalse hlt => exact ⟨⟨h, .refl⟩, BitVec.not_le.mp hlt⟩
  rw [Display.wrap, hd₁, Console.wrap, hc₁, h₁.line]
  split
  case isTrue =>
    obtain ⟨hclear, hframe⟩ := h₁.clear
    obtain ⟨hmove, hframe'⟩ := hclear.setCursor 1 1
    exact ⟨hmove, hframe₁.trans (hframe.trans hframe'), (by decide : 1 < 80), (by decide : 1 < 25)⟩
  case isFalse hlt => exact ⟨h₁, hframe₁, hcursor, BitVec.not_le.mp hlt⟩

/-- A character is drawn at the cursor. -/
theorem drawGlyph (h : Shown d c) (ch : BitVec 8) (hcursor : c.cursor.toNat < 80)
    (hline : c.line.toNat < 25) :
    Shown (d.drawGlyph ch) (c.put ch) ∧ d.Frame (d.drawGlyph ch) := by
  obtain ⟨hx, hy⟩ := And.intro h.ready.xres_ge h.ready.yres_ge
  have hcol : (d.cursor * 8).toInt = ((8 * c.cursor.toNat : Nat) : Int) := by
    have hnat : (c.cursor * 8).toNat = 8 * c.cursor.toNat := by
      rw [BitVec.toNat_mul, show (8 : BitVec 32).toNat = 8 from rfl]
      omega
    rw [h.cursor, BitVec.toInt_eq_toNat_of_lt (by omega), hnat]
  have hrow : (d.line * 16).toInt = ((16 * c.line.toNat : Nat) : Int) := by
    have hnat : (c.line * 16).toNat = 16 * c.line.toNat := by
      rw [BitVec.toNat_mul, show (16 : BitVec 32).toNat = 16 from rfl]
      omega
    rw [h.line, BitVec.toInt_eq_toNat_of_lt (by omega), hnat]
  have hdraws := Display.putGlyph_draws (d := d) (x := 8 * c.cursor.toNat) (y := 16 * c.line.toNat)
    (n := 16) (32 + ch.toInt * 16) h.ready (by omega) (by omega)
  rw [Display.drawGlyph, hcol, hrow]
  refine draw _ c.background h hdraws fun x y _ _ => ?_
  rw [Console.point]
  dsimp only
  by_cases hcell : y / 16 = c.line.toNat ∧ x / 8 = c.cursor.toNat
  · rw [if_pos hcell, if_pos (by omega), show y - 16 * c.line.toNat = y % 16 by omega,
      show x - 8 * c.cursor.toNat = x % 8 by omega]
    rfl
  · rw [if_neg hcell, if_neg (by omega)]
    rfl

/-- `tty_putc`. -/
theorem putc (h : Shown d c) (ch : BitVec 8) :
    Shown (d.putc ch) (c.putc ch) ∧ d.Frame (d.putc ch) := by
  obtain ⟨hsend, hframe⟩ := h.send ch
  rw [Display.putc, Console.putc]
  dsimp only
  rw [hsend.cursor, hsend.line]
  split
  case isTrue => exact (hsend.setCursor 1 _).imp_right hframe.trans
  case isFalse =>
    split
    case isTrue => exact (hsend.setCursor _ _).imp_right hframe.trans
    case isFalse =>
      obtain ⟨hwrap, hframe₁, hcursor, hline⟩ := hsend.wrap
      obtain ⟨hdraw, hframe₂⟩ := hwrap.drawGlyph ch hcursor hline
      rw [hdraw.cursor, hdraw.line]
      exact (hdraw.setCursor _ _).imp_right (hframe.trans <| hframe₁.trans <| hframe₂.trans ·)

theorem putBlank (h : Shown d c) : Shown d.putBlank c.putBlank ∧ d.Frame d.putBlank := by
  obtain ⟨hputc, hframe⟩ := h.putc 32
  rw [Display.putBlank, Console.putBlank, hputc.cursor, hputc.line]
  exact (hputc.setCursor _ _).imp_right hframe.trans

/-- `tty_delc`. -/
theorem delc (h : Shown d c) : Shown d.delc c.delc ∧ d.Frame d.delc := by
  have hback (cursor line) :
      Shown (d.setCursor cursor line).putBlank (c.moveTo cursor line).putBlank ∧
        d.Frame (d.setCursor cursor line).putBlank := by
    obtain ⟨hmove, hframe⟩ := h.setCursor cursor line
    exact hmove.putBlank.imp_right hframe.trans
  rw [Display.delc, Console.delc, h.cursor, h.line]
  split
  case isTrue =>
    split
    case isTrue => exact h.putBlank
    case isFalse => exact hback _ _
  case isFalse => exact hback _ _

theorem step (h : Shown d c) (op : TtyOp) : Shown (d.step op) (c.step op) ∧ d.Frame (d.step op) := by
  cases op with
  | putc ch => exact h.putc ch
  | delc => exact h.delc
  | clearScreen => exact h.clear
  | setCursor cursor line => exact h.setCursor cursor line

end Shown

/-- What is in the framebuffer as the background of an empty grid. -/
def Display.console (d : Display) : Console :=
  ⟨fun _ _ => none, d.raster.get d.mem, d.cursor, d.line, d.serial⟩

theorem Display.Ready.shown (h : d.Ready) : Shown d d.console :=
  ⟨h, rfl, rfl, rfl, fun _ _ _ _ => rfl⟩

/-- A framebuffer of 640 by 400 points. -/
def Display.small : Display where
  mem _ := 0
  font k := if k % 2 = 0 then 0xAA else 0x55
  fbBase := 0x80000000
  fbPitch := 2560
  fbYres := 400
  fbXres := 640
  initialized := true
  cursor := 1
  line := 1
  serial := []

theorem Display.ready_small : Display.small.Ready :=
  ⟨rfl, ⟨by decide, by decide⟩, by decide, by decide, by decide⟩

theorem Shown.run (h : Shown d c) (ops : List TtyOp) :
    Shown (ops.foldl .step d) (ops.foldl .step c) ∧ d.Frame (ops.foldl .step d) := by
  induction ops generalizing d c with
  | nil => exact ⟨h, .refl⟩
  | cons op ops ih =>
    obtain ⟨hstep, hframe⟩ := h.step op
    exact (ih hstep).imp_right hframe.trans

/-- After any sequence of calls, each point of the framebuffer has the colour that the grid of
characters gives it, the cursor is where the console has it, and no byte outside the framebuffer
has been written. -/
theorem tty_shows_console (h : d.Ready) (ops : List TtyOp) :
    Shown (ops.foldl .step d) (ops.foldl .step d.console) ∧ d.Frame (ops.foldl .step d) :=
  h.shown.run ops

theorem tty_shows_console_small :
    let ops := [TtyOp.putc 72, .putc 9, .delc, .putc 10, .setCursor 90 30, .putc 105, .clearScreen]
    Shown (ops.foldl .step Display.small) (ops.foldl .step Display.small.console) ∧
      Display.small.Frame (ops.foldl .step Display.small) :=
  tty_shows_console Display.ready_small _

/-! ## A text -/

/-- The characters are shown by a glyph. -/
def Printable (text : List (BitVec 8)) : Prop := ∀ ch ∈ text, ch ≠ 10 ∧ ch ≠ 9

instance {text : List (BitVec 8)} : Decidable (Printable text) :=
  inferInstanceAs (Decidable (∀ ch ∈ text, _))

/-- The number of characters on a screen: 24 lines of 79. -/
def screenSize : Nat := 1896

/-- The first character on the screen when `n` have been written. -/
def screenStart (n : Nat) : Nat := (n - 1) / screenSize * screenSize

/-- The character at a place of the screen when `text` has been written. -/
def textCell (text : List (BitVec 8)) (start row col : Nat) : Option (BitVec 8) :=
  if 1 ≤ row ∧ row < 25 ∧ 1 ≤ col ∧ col < 80 then text[start + 79 * (row - 1) + (col - 1)]? else none

namespace Console

variable {text : List (BitVec 8)} {ch : BitVec 8} {n : Nat}

theorem putc_printable (c : Console) (hch : ch ≠ 10 ∧ ch ≠ 9) :
    c.putc ch =
      ((c.send ch).wrap.put ch).moveTo ((c.send ch).wrap.cursor + 1) (c.send ch).wrap.line := by
  rw [putc, if_neg hch.1, if_neg hch.2]
  rfl

/-- The text has been written on an empty screen. -/
structure Wrote (c : Console) (text : List (BitVec 8)) : Prop where
  cell : ∀ row col, c.cell row col = textCell text (screenStart text.length) row col
  background : c.background = fun _ _ => colorBytes 0
  cursor : c.cursor.toNat = if text.length = 0 then 1 else 2 + (text.length - 1) % 1896 % 79
  line : c.line.toNat = 1 + (text.length - 1) % 1896 / 79

theorem wrote_clear : c.clear.Wrote [] := by
  refine ⟨fun row col => ?_, rfl, rfl, rfl⟩
  rw [textCell]
  split <;> rfl

/-- The place of the next character, on an empty screen if the last one is full. -/
theorem Wrote.wrap (h : c.Wrote text) (hn : text.length = n) :
    (∀ row col, c.wrap.cell row col = textCell text (n / 1896 * 1896) row col) ∧
      c.wrap.background = (fun _ _ => colorBytes 0) ∧ c.wrap.cursor.toNat = 1 + n % 1896 % 79 ∧
      c.wrap.line.toNat = 1 + n % 1896 / 79 := by
  obtain ⟨hcell, hback, hcursor, hline⟩ := h
  rw [hn] at hcell hcursor hline
  have hcursor' : c.cursor ≥ 80 ↔ 80 ≤ c.cursor.toNat := .rfl
  have hnext : (c.line + 1).toNat = c.line.toNat + 1 := by
    rw [BitVec.toNat_add, show (1 : BitVec 32).toNat = 1 from rfl]
    omega
  have hsame (hmod : n % 1896 ≠ 0 ∨ n = 0) : screenStart n = n / 1896 * 1896 := by
    rw [screenStart, screenSize]
    omega
  rw [Console.wrap]
  by_cases hwrap : c.cursor ≥ 80
  · rw [if_pos hwrap]
    rw [hcursor'] at hwrap
    by_cases hfull : (c.moveTo 1 (c.line + 1)).line ≥ 25
    · have hfull' : 25 ≤ (c.line + 1).toNat := hfull
      have hpos : n ≠ 0 := fun hz => by
        rw [if_pos hz] at hcursor
        omega
      rw [if_neg hpos] at hcursor
      have hmod : n % 1896 = 0 := by omega
      rw [if_pos hfull]
      refine ⟨fun row col => ?_, rfl, ?_, ?_⟩
      · rw [textCell, List.getElem?_eq_none]
        · split <;> rfl
        · omega
      · rw [hmod]
        rfl
      · rw [hmod]
        rfl
    · have hfull' : ¬25 ≤ (c.line + 1).toNat := hfull
      rw [if_neg hfull]
      have hpos : n ≠ 0 := fun hz => by
        rw [if_pos hz] at hcursor
        omega
      rw [if_neg hpos] at hcursor
      refine ⟨fun row col => ?_, hback, ?_, hnext.trans ?_⟩
      · rw [← hsame (by omega)]
        exact hcell row col
      · change 1 = _
        omega
      · omega
  · have hline' : ¬c.line ≥ 25 := by
      rw [ge_iff_le, BitVec.le_def, hline, show (25 : BitVec 32).toNat = 25 from rfl]
      omega
    rw [if_neg hwrap, if_neg hline']
    rw [hcursor'] at hwrap
    refine ⟨fun row col => ?_, hback, ?_, ?_⟩
    · rw [hcell, hsame]
      split at hcursor <;> omega
    · split at hcursor <;> omega
    · split at hcursor <;> omega

theorem Wrote.putc (h : c.Wrote text) (hch : ch ≠ 10 ∧ ch ≠ 9) :
    (c.putc ch).Wrote (text ++ [ch]) := by
  have hsend : (c.send ch).Wrote text := ⟨h.cell, h.background, h.cursor, h.line⟩
  obtain ⟨hcell, hback, hcursor, hline⟩ := hsend.wrap rfl
  have hlen : (text ++ [ch]).length = text.length + 1 := List.length_append
  rw [putc_printable c hch]
  constructor
  · intro row col
    rw [hlen, screenStart, Nat.add_sub_cancel, screenSize]
    change (if row = (c.send ch).wrap.line.toNat ∧ col = (c.send ch).wrap.cursor.toNat then some ch
      else (c.send ch).wrap.cell row col) = _
    rw [hcell, hcursor, hline, textCell, textCell, List.getElem?_append]
    obtain ⟨n, hn⟩ : ∃ n, text.length = n := ⟨_, rfl⟩
    rw [hn]
    by_cases hat : row = 1 + n % 1896 / 79 ∧ col = 1 + n % 1896 % 79
    · rw [if_pos hat, if_pos (by omega), if_neg (by omega),
        show n / 1896 * 1896 + 79 * (row - 1) + (col - 1) - n = 0 by omega]
      rfl
    · rw [if_neg hat]
      refine ite_congr rfl (fun hgrid => ?_) fun _ => rfl
      obtain ⟨k, hk⟩ : ∃ k, n / 1896 * 1896 + 79 * (row - 1) + (col - 1) = k := ⟨_, rfl⟩
      rw [hk]
      rcases Nat.lt_or_ge k n with hlt | hge
      · rw [if_pos hlt]
      · rw [if_neg (Nat.not_lt.mpr hge), List.getElem?_eq_none (hn ▸ hge), List.getElem?_eq_none]
        rw [List.length_singleton]
        omega
  · exact hback
  · rw [hlen]
    change ((c.send ch).wrap.cursor + 1).toNat = _
    rw [BitVec.toNat_add, hcursor, show (1 : BitVec 32).toNat = 1 from rfl,
      if_neg (Nat.succ_ne_zero _), Nat.add_sub_cancel]
    omega
  · rw [hlen]
    exact hline

/-- A text on an empty screen. -/
theorem wrote_text (c : Console) (h : Printable text) :
    ((text.map .putc).foldl step c.clear).Wrote text := by
  induction text using List.reverseRecOn with
  | nil => exact wrote_clear
  | append_singleton text ch ih =>
    have hprint := List.forall_mem_append.mp h
    rw [List.map_append, List.foldl_append]
    exact (ih hprint.1).putc (hprint.2 ch (List.mem_singleton.mpr rfl))

/-! ## Taking a text back -/

/-- The cells of the line from `first` on have been written, and the cursor is at `cursor`. -/
structure Typed (c c' : Console) (first : Nat) (text : List (BitVec 8)) (cursor : Nat) : Prop where
  cell : ∀ row col, c'.cell row col =
    if row = c.line.toNat ∧ first ≤ col ∧ col < first + text.length then text[col - first]?
    else c.cell row col
  background : c'.background = c.background
  cursor : c'.cursor.toNat = cursor
  line : c'.line = c.line

variable {c₁ c₂ : Console} {first cursor : Nat} {text₁ text₂ : List (BitVec 8)}

theorem Typed.nil (c : Console) (first : Nat) : c.Typed c first [] c.cursor.toNat :=
  ⟨fun row col => (if_neg fun h => by simp only [List.length_nil] at h; omega).symm, rfl, rfl, rfl⟩

/-- The cells next to the right of those that have been written. -/
theorem Typed.append (h : c.Typed c₁ first text₁ cursor)
    (h' : c₁.Typed c₂ (first + text₁.length) text₂ n) : c.Typed c₂ first (text₁ ++ text₂) n where
  cell row col := by
    rw [h'.cell, h.cell, h.line, List.length_append, List.getElem?_append]
    grind
  background := h'.background.trans h.background
  cursor := h'.cursor
  line := h'.line.trans h.line

/-- The cells next to the left. -/
theorem Typed.prepend (h : c.Typed c₁ (first + text₂.length) text₁ cursor)
    (h' : c₁.Typed c₂ first text₂ n) : c.Typed c₂ first (text₂ ++ text₁) n where
  cell row col := by
    rw [h'.cell, h.cell, h.line, List.length_append, List.getElem?_append]
    grind
  background := h'.background.trans h.background
  cursor := h'.cursor
  line := h'.line.trans h.line

/-- The same cells once more. -/
theorem Typed.overwrite (h : c.Typed c₁ first text₁ cursor) (h' : c₁.Typed c₂ first text₂ n)
    (hlen : text₂.length = text₁.length) : c.Typed c₂ first text₂ n where
  cell row col := by
    rw [h'.cell, h.cell, h.line, hlen]
    grind
  background := h'.background.trans h.background
  cursor := h'.cursor
  line := h'.line.trans h.line

/-- A character that does not move to the next line. -/
theorem typed_putc (c : Console) (hch : ch ≠ 10 ∧ ch ≠ 9) (hcursor : c.cursor.toNat < 80)
    (hline : c.line.toNat < 25) :
    c.Typed (c.putc ch) c.cursor.toNat [ch] (c.cursor.toNat + 1) := by
  have hwrap : (c.send ch).wrap = c.send ch := by
    have hcursor' : ¬(c.send ch).cursor ≥ 80 := Nat.not_le.mpr hcursor
    have hline' : ¬(c.send ch).line ≥ 25 := Nat.not_le.mpr hline
    rw [wrap, if_neg hcursor', if_neg hline']
  rw [putc_printable c hch, hwrap]
  refine ⟨fun row col => ?_, rfl, ?_, rfl⟩
  · change (if row = c.line.toNat ∧ col = c.cursor.toNat then some ch else c.cell row col) = _
    rw [List.length_singleton]
    grind
  · change (c.cursor + 1).toNat = _
    rw [BitVec.toNat_add, show (1 : BitVec 32).toNat = 1 from rfl]
    omega

theorem typed_text (c : Console) (hprint : Printable text)
    (hcursor : c.cursor.toNat + text.length ≤ 80) (hline : c.line.toNat < 25) :
    c.Typed ((text.map .putc).foldl step c) c.cursor.toNat text (c.cursor.toNat + text.length) := by
  induction text using List.reverseRecOn with
  | nil => exact .nil ..
  | append_singleton text ch ih =>
    have hch := List.forall_mem_append.mp hprint
    rw [List.length_append, List.length_singleton] at hcursor ⊢
    have htext := ih hch.1 (by omega)
    have hlast := typed_putc ((text.map .putc).foldl step c) (hch.2 ch (List.mem_singleton.mpr rfl))
      (by rw [htext.cursor]; omega) (by rwa [htext.line])
    rw [htext.cursor] at hlast
    rw [List.map_append, List.foldl_append]
    exact htext.append hlast

theorem toNat_pred {x : BitVec 32} (h : x.toNat = n + 1) : (x - 1).toNat = n := by
  have hlt := x.isLt
  rw [BitVec.toNat_sub, h, show (1 : BitVec 32).toNat = 1 from rfl]
  omega

/-- `tty_delc` within a line. -/
theorem typed_delc (c : Console) (hcursor : c.cursor.toNat = n + 1) (hlt : n < 80)
    (hline : c.line.toNat < 25) : c.Typed c.delc n [32] n := by
  have hsub := toNat_pred hcursor
  have hne : c.cursor ≠ 0 := fun hz => by
    rw [hz] at hcursor
    exact Nat.succ_ne_zero n hcursor.symm
  have hput := typed_putc (c.moveTo (c.cursor - 1) c.line)
    (by decide : (32 : BitVec 8) ≠ 10 ∧ (32 : BitVec 8) ≠ 9) (by change (c.cursor - 1).toNat < 80; omega) hline
  have hcol : (c.moveTo (c.cursor - 1) c.line).cursor.toNat = n := hsub
  rw [hcol] at hput
  rw [delc, if_neg hne]
  exact ⟨hput.cell, hput.background, toNat_pred hput.cursor, hput.line⟩

theorem typed_delcs (c : Console) (hcursor : c.cursor.toNat = first + n) (hle : first + n ≤ 80)
    (hline : c.line.toNat < 25) :
    c.Typed ((List.replicate n .delc).foldl step c) first (List.replicate n 32) first := by
  induction n generalizing c with
  | zero =>
    have := Typed.nil c first
    rwa [hcursor] at this
  | succ n ih =>
    have hlast := typed_delc (n := first + n) c hcursor (by omega) hline
    have hrest := ih c.delc hlast.cursor (by omega) (by rwa [hlast.line])
    rw [← List.length_replicate (n := n) (a := (32 : BitVec 8))] at hlast
    rw [List.replicate_succ, List.foldl_cons, List.replicate_succ']
    exact hlast.prepend hrest

end Console

/-! ## On the framebuffer -/

variable {text : List (BitVec 8)}

/-- The points in terms of the first state of a run. -/
theorem Shown.point_of_frame (h : Shown d' c) (hframe : d.Frame d') {x y : Nat}
    (hx : x < d.fbXres.toNat) (hy : y < d.fbYres.toNat) :
    d.raster.get d'.mem x y = c.point d.font x y := by
  obtain ⟨hraster, hfont, -⟩ := hframe
  have hwidth : d'.fbXres.toNat = d.fbXres.toNat := congrArg Raster.width hraster
  have hheight : d'.fbYres.toNat = d.fbYres.toNat := congrArg Raster.height hraster
  rw [← hraster, ← hfont]
  exact h.point x y (hwidth ▸ hx) (hheight ▸ hy)

/-- A text of any length is written on a screen that has been cleared: the framebuffer shows its
last screen, line by line, and is black elsewhere. -/
theorem tty_shows_text (h : d.Ready) (hprint : Printable text) :
    ∀ x y, x < d.fbXres.toNat → y < d.fbYres.toNat →
      d.raster.get ((text.map .putc).foldl .step d.clearScreen).mem x y =
        match textCell text (screenStart text.length) (y / 16) (x / 8) with
        | some ch => Console.glyphPoint d.font ch (x % 8) (y % 16)
        | none => colorBytes 0 := by
  intro x y hx hy
  obtain ⟨hclear, hframe⟩ := h.shown.clear
  obtain ⟨hshown, hframe'⟩ := hclear.run (text.map .putc)
  have hwrote := Console.wrote_text d.console hprint
  have hpoint := hshown.point_of_frame (hframe.trans hframe') hx hy
  rw [Console.point, hwrote.cell, hwrote.background] at hpoint
  exact hpoint

/-- A line of 79 characters, and two more. -/
def longText : List (BitVec 8) := List.replicate 79 72 ++ [105, 33]

theorem tty_shows_text_small :
    Display.small.raster.get
        ((longText.map .putc).foldl Display.step Display.small.clearScreen).mem 11 37 =
      Console.glyphPoint Display.small.font 105 3 5 := by
  have htext := tty_shows_text Display.ready_small (by decide : Printable longText) 11 37 (by decide)
    (by decide)
  have hcell : textCell longText (screenStart longText.length) (37 / 16) (11 / 8) = some 105 := by
    decide
  rw [hcell] at htext
  exact htext

/-- A text that fits in the line is written and taken back: the cursor is where it was, and the
framebuffer has not changed, except that the cells of the text show blanks. -/
theorem tty_takes_text_back (h : d.Ready) (hprint : Printable text)
    (hcursor : d.cursor.toNat + text.length ≤ 80) (hline : d.line.toNat < 25) :
    let d' := (List.replicate text.length TtyOp.delc).foldl .step
      ((text.map TtyOp.putc).foldl .step d)
    d'.cursor = d.cursor ∧ d'.line = d.line ∧
      ∀ x y, x < d.fbXres.toNat → y < d.fbYres.toNat → d.raster.get d'.mem x y =
        if y / 16 = d.line.toNat ∧ d.cursor.toNat ≤ x / 8 ∧ x / 8 < d.cursor.toNat + text.length then
          Console.glyphPoint d.font 32 (x % 8) (y % 16)
        else d.raster.get d.mem x y := by
  intro d'
  obtain ⟨hshown, hframe⟩ := h.shown.run (text.map .putc)
  obtain ⟨hshown', hframe'⟩ := hshown.run (List.replicate text.length .delc)
  have htext := Console.typed_text d.console hprint hcursor hline
  have hback := Console.typed_delcs _ htext.cursor hcursor (by rwa [htext.line])
  have htyped := htext.overwrite hback List.length_replicate
  refine ⟨?_, hshown'.line.trans htyped.line, fun x y hx hy => ?_⟩
  · exact hshown'.cursor.trans (BitVec.eq_of_toNat_eq htyped.cursor)
  · rw [hshown'.point_of_frame (hframe.trans hframe') hx hy, Console.point, htyped.cell,
      htyped.background, List.length_replicate, show d.console.line = d.line from rfl,
      show d.console.cursor = d.cursor from rfl]
    by_cases hin : y / 16 = d.line.toNat ∧ d.cursor.toNat ≤ x / 8 ∧
        x / 8 < d.cursor.toNat + text.length
    · rw [if_pos hin, if_pos hin, List.getElem?_replicate_of_lt]
      omega
    · rw [if_neg hin, if_neg hin]
      rfl

theorem tty_takes_text_back_small :
    let d' := (List.replicate 2 TtyOp.delc).foldl .step
      (([72, 105].map TtyOp.putc).foldl .step Display.small)
    d'.cursor = Display.small.cursor ∧ d'.line = Display.small.line ∧
      ∀ x y, x < Display.small.fbXres.toNat → y < Display.small.fbYres.toNat →
        Display.small.raster.get d'.mem x y =
          if y / 16 = Display.small.line.toNat ∧ Display.small.cursor.toNat ≤ x / 8 ∧
              x / 8 < Display.small.cursor.toNat + 2 then
            Console.glyphPoint Display.small.font 32 (x % 8) (y % 16)
          else Display.small.raster.get Display.small.mem x y :=
  tty_takes_text_back Display.ready_small (by decide : Printable [72, 105]) (by decide) (by decide)

end Lethe
