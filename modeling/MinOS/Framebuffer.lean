/-
# MinOS.Framebuffer — drawing, `kernel/framebuffer.c`.

Coordinates and sizes are 32 bits wide. They are numbers here, reduced where the code can wrap; on a framebuffer
that is not larger than 2^32 pixels and inside its bounds nothing does. `Paints` says what a function does to the
picture, pixel by pixel.
-/
import Mathlib.Algebra.Group.Nat.Defs
import MinOS.Lib.Raster

namespace MinOS

open Raster

/-! ## Functions of `framebuffer.c` -/

/-- `g_fb`, `g_width`, `g_height`, `g_pitch_pixels`, `g_is_bgr` and the memory at `g_fb` -/
structure Framebuffer where
  base : UInt64
  width : Nat
  height : Nat
  pitch : Nat
  isBgr : UInt32
  pixels : Nat → UInt32

/-- `font_8x16_basic`: 16 rows of 8 bits for every character -/
abbrev Font := Nat → Nat → UInt8

/-- `uint32_t` -/
def u32 (n : Nat) : Nat := n % 2 ^ 32

/-- `convert_color` -/
def convertColor (isBgr argb : UInt32) : UInt32 :=
  if isBgr = 0 then
    let a := (argb >>> 24) &&& 0xFF
    let r := (argb >>> 16) &&& 0xFF
    let g := (argb >>> 8) &&& 0xFF
    let b := argb &&& 0xFF
    (a <<< 24) ||| (b <<< 16) ||| (g <<< 8) ||| r
  else argb

/-- `fb_put_pixel` -/
def fbPutPixel (x y : Nat) (argb : UInt32) (fb : Framebuffer) : Framebuffer :=
  if fb.base = 0 ∨ fb.width ≤ x ∨ fb.height ≤ y then fb
  else { fb with pixels := Function.update fb.pixels (u32 (y * fb.pitch + x)) (convertColor fb.isBgr argb) }

/-- `fb_clear` -/
def fbClear (argb : UInt32) (fb : Framebuffer) : Framebuffer :=
  if fb.base = 0 then fb
  else
    let c := convertColor fb.isBgr argb
    let pixels := loop (fun y => fillRow c (u32 (y * fb.pitch)) fb.width) fb.height fb.pixels
    { fb with pixels }

/-- `fb_fill_rect` -/
def fbFillRect (x y w h : Nat) (argb : UInt32) (fb : Framebuffer) : Framebuffer :=
  if fb.base = 0 then fb
  else if fb.width ≤ x ∨ fb.height ≤ y then fb
  else
    let w := if fb.width < u32 (x + w) then fb.width - x else w
    let h := if fb.height < u32 (y + h) then fb.height - y else h
    let c := convertColor fb.isBgr argb
    let pixels := loop (fun i => fillRow c (u32 ((y + i) * fb.pitch + x)) w) (u32 (y + h) - y) fb.pixels
    { fb with pixels }

/-- A bit of a row of a glyph, from the left -/
def glyphBit (font : Font) (c : UInt8) (cx cy : Nat) : Prop := (font (c.toNat - 32) cy).toNat &&& (0x80 >>> cx) ≠ 0

instance (font : Font) (c : UInt8) (cx cy : Nat) : Decidable (glyphBit font c cx cy) :=
  inferInstanceAs (Decidable (_ ≠ _))

/-- `if (c < 32 || c > 126) c = '?';` -/
def shownChar (c : UInt8) : UInt8 := if c < 32 ∨ 126 < c then 63 else c

/-- `fb_draw_char` -/
def fbDrawChar (font : Font) (x y : Nat) (c : UInt8) (fg bg : UInt32) (fb : Framebuffer) : Framebuffer :=
  let c := shownChar c
  loop (fun cy => loop (fun cx fb =>
    if glyphBit font c cx cy then fbPutPixel (u32 (x + cx)) (u32 (y + cy)) fg fb
    else if bg ≠ 0 then fbPutPixel (u32 (x + cx)) (u32 (y + cy)) bg fb
    else fb) 8) 16 fb

/-- `fb_draw_string`, with `x` the column lines start in and `cx` the one of the next character -/
def fbDrawString (font : Font) (x : Nat) (fg bg : UInt32) :
    (cx y : Nat) → (str : List UInt8) → Framebuffer → Framebuffer
  | _, _, [], fb => fb
  | cx, y, c :: str, fb =>
    if c = 10 then fbDrawString font x fg bg x (u32 (y + 18)) str fb
    else fbDrawString font x fg bg (u32 (cx + 9)) y str (fbDrawChar font cx y c fg bg fb)

/-- `fb_scroll_up` -/
def fbScrollUp (y height lines : Nat) (color : UInt32) (fb : Framebuffer) : Framebuffer :=
  if fb.base = 0 ∨ fb.height ≤ y ∨ height = 0 ∨ lines = 0 then fb
  else
    let height := if fb.height < u32 (y + height) then fb.height - y else height
    let distance := u32 (lines * 18)
    if height ≤ distance then fbFillRect 0 y fb.width height color fb
    else
      let pixels := loop (fun i =>
        copyRow (u32 (u32 (y + i) * fb.pitch)) (u32 (u32 (y + i + distance) * fb.pitch)) fb.width)
        (u32 (y + height) - u32 (y + distance)) fb.pixels
      fbFillRect 0 (u32 (y + height - distance)) fb.width distance color { fb with pixels }

/-! ## The picture -/

/-- The pixel in a column and a row -/
def Framebuffer.pixel (fb : Framebuffer) (x y : Nat) : UInt32 := fb.pixels (index fb.pitch x y)

/-- A framebuffer that is there, with rows that do not overlap, of less than 2^32 pixels -/
structure Framebuffer.Usable (fb : Framebuffer) : Prop where
  base : fb.base ≠ 0
  width : fb.width ≤ fb.pitch
  size : fb.pitch * fb.height < 2 ^ 32

/-- The second framebuffer is the first one with this picture. -/
structure Paints (fb fb' : Framebuffer) (picture : Nat → Nat → UInt32) : Prop where
  shape : fb' = { fb with pixels := fb'.pixels }
  pixel : ∀ a b, a < fb.width → b < fb.height → fb'.pixel a b = picture a b

theorem paints_self (fb : Framebuffer) : Paints fb fb fb.pixel := ⟨rfl, fun _ _ _ _ => rfl⟩

section Twice

variable {fb fb' fb'' : Framebuffer} {f g : Nat → Nat → UInt32}

theorem Paints.width_eq (h : Paints fb fb' f) : fb'.width = fb.width := by rw [h.shape]

theorem Paints.height_eq (h : Paints fb fb' f) : fb'.height = fb.height := by rw [h.shape]

theorem Paints.isBgr_eq (h : Paints fb fb' f) : fb'.isBgr = fb.isBgr := by rw [h.shape]

theorem Paints.usable (h : Paints fb fb' f) (hfb : fb.Usable) : fb'.Usable := by
  rw [h.shape]
  exact ⟨hfb.base, hfb.width, hfb.size⟩

/-- Painting over a picture -/
theorem Paints.trans {k : Nat → Nat → UInt32} (h : Paints fb fb' f) (h' : Paints fb' fb'' g)
    (hk : ∀ a b, a < fb.width → b < fb.height → fb'.pixel a b = f a b → g a b = k a b) : Paints fb fb'' k := by
  refine ⟨?_, fun a b ha hb => ?_⟩
  · rw [h'.shape, h.shape]
  · rw [h'.pixel a b (h.width_eq ▸ ha) (h.height_eq ▸ hb)]
    exact hk a b ha hb (h.pixel a b ha hb)

end Twice

theorem fbFillRect_shape (fb : Framebuffer) (x y w n : Nat) (argb : UInt32) :
    fbFillRect x y w n argb fb = { fb with pixels := (fbFillRect x y w n argb fb).pixels } := by
  unfold fbFillRect
  split
  · rfl
  · split <;> rfl

theorem fbScrollUp_shape (fb : Framebuffer) (y n lines : Nat) (color : UInt32) :
    fbScrollUp y n lines color fb = { fb with pixels := (fbScrollUp y n lines color fb).pixels } := by
  unfold fbScrollUp
  split
  · rfl
  · dsimp only
    generalize (if fb.height < u32 (y + n) then fb.height - y else n) = left
    split <;> rw [fbFillRect_shape]

section Painting

variable {fb : Framebuffer} (h : fb.Usable)
include h

theorem Framebuffer.Usable.height_lt (hpitch : 0 < fb.pitch) : fb.height < 2 ^ 32 :=
  Nat.lt_of_le_of_lt (Nat.le_mul_of_pos_left _ hpitch) h.size

theorem Framebuffer.Usable.pitch_lt (hheight : 0 < fb.height) : fb.pitch < 2 ^ 32 :=
  Nat.lt_of_le_of_lt (Nat.le_mul_of_pos_right _ hheight) h.size

theorem Framebuffer.Usable.sizes_lt (hx : 0 < fb.width) (hy : 0 < fb.height) :
    fb.pitch < 2 ^ 32 ∧ fb.height < 2 ^ 32 :=
  ⟨h.pitch_lt hy, h.height_lt (Nat.lt_of_lt_of_le hx h.width)⟩

theorem Framebuffer.Usable.setPixels (pixels : Nat → UInt32) : ({ fb with pixels } : Framebuffer).Usable :=
  ⟨h.base, h.width, h.size⟩

theorem Framebuffer.Usable.index_lt {x y : Nat} (hx : x < fb.pitch) (hy : y < fb.height) :
    index fb.pitch x y < 2 ^ 32 := by
  have hle := Nat.mul_le_mul_right fb.pitch (Nat.succ_le_of_lt hy)
  have hsize := h.size
  rw [Nat.succ_mul] at hle
  rw [Nat.mul_comm] at hsize
  unfold index
  omega

/-- Inside the framebuffer no address wraps. -/
theorem Framebuffer.Usable.u32_index {x y : Nat} (hx : x < fb.pitch) (hy : y < fb.height) :
    u32 (y * fb.pitch + x) = index fb.pitch x y := Nat.mod_eq_of_lt (h.index_lt hx hy)

theorem paints_putPixel (x y : Nat) (argb : UInt32) :
    Paints fb (fbPutPixel x y argb fb) fun a b =>
      if a = x ∧ b = y then convertColor fb.isBgr argb else fb.pixel a b := by
  have hpitch := h.width
  rw [fbPutPixel]
  by_cases hout : fb.width ≤ x ∨ fb.height ≤ y
  · -- no pixel of the picture
    rw [if_pos (Or.inr hout)]
    refine ⟨rfl, fun a b ha hb => ?_⟩
    rw [if_neg (by omega)]
  · have hx : x < fb.width := by omega
    rw [if_neg (by simp only [h.base, false_or]; exact hout), h.u32_index (by omega) (by omega)]
    refine ⟨rfl, fun a b ha _ => ?_⟩
    dsimp only [Framebuffer.pixel]
    rw [Function.update_apply]
    simp only [index_inj (Nat.lt_of_lt_of_le ha hpitch) (Nat.lt_of_lt_of_le hx hpitch)]

/-- A rectangle that was not clipped -/
theorem loop_fillRow {x y w n : Nat} (hx : x < fb.width) (hn : y + n ≤ fb.height) (c : UInt32)
    (pixels : Nat → UInt32) : loop (fun i => fillRow c (u32 ((y + i) * fb.pitch + x)) w) n pixels =
      fillRows c fb.pitch x y w n pixels := by
  apply loop_congr
  intro i hi
  rw [h.u32_index (Nat.lt_of_lt_of_le hx h.width) (by omega)]

/-- **Every word behind a rectangle**: it is clipped on the right and below. -/
theorem word_fillRect {x y w n : Nat} (hw : x + w < 2 ^ 32) (hn : y + n < 2 ^ 32) (argb : UInt32) {a b : Nat}
    (ha : a < fb.pitch) : (fbFillRect x y w n argb fb).pixels (index fb.pitch a b) =
      if (x ≤ a ∧ a < min (x + w) fb.width) ∧ y ≤ b ∧ b < min (y + n) fb.height then convertColor fb.isBgr argb
      else fb.pixels (index fb.pitch a b) := by
  have hpitch := h.width
  rw [fbFillRect, if_neg h.base]
  by_cases hout : fb.width ≤ x ∨ fb.height ≤ y
  · rw [if_pos hout, if_neg (by omega)]
  obtain ⟨-, hheight⟩ := h.sizes_lt (by omega) (by omega)
  have hright : u32 (x + w) = x + w := Nat.mod_eq_of_lt hw
  have hbottom : u32 (y + n) = y + n := Nat.mod_eq_of_lt hn
  rw [if_neg hout]
  dsimp only
  rw [hright, hbottom]
  -- what is left of the width and of the height
  obtain ⟨w', hw', hclip⟩ : ∃ w', (if fb.width < x + w then fb.width - x else w) = w' ∧
      x + w' = min (x + w) fb.width := by
    refine ⟨_, rfl, ?_⟩
    split <;> omega
  obtain ⟨n', hn', hclip'⟩ : ∃ n', (if fb.height < y + n then fb.height - y else n) = n' ∧
      y + n' = min (y + n) fb.height := by
    refine ⟨_, rfl, ?_⟩
    split <;> omega
  have hcount : u32 (y + n') - y = n' := by
    rw [u32, Nat.mod_eq_of_lt (by omega), Nat.add_sub_cancel_left]
  rw [hw', hn', hcount, loop_fillRow h (by omega) (by omega), pixel_fillRows _ (by omega) _ ha, hclip, hclip']

/-- The picture behind a rectangle -/
theorem paints_fillRect {x y w n : Nat} (hw : x + w < 2 ^ 32) (hn : y + n < 2 ^ 32) (argb : UInt32) :
    Paints fb (fbFillRect x y w n argb fb) fun a b =>
      if (x ≤ a ∧ a < x + w) ∧ y ≤ b ∧ b < y + n then convertColor fb.isBgr argb else fb.pixel a b := by
  refine ⟨fbFillRect_shape fb x y w n argb, fun a b ha hb => ?_⟩
  have hpitch := h.width
  have hsame : (fbFillRect x y w n argb fb).pitch = fb.pitch := by rw [fbFillRect_shape]
  rw [Framebuffer.pixel, hsame, word_fillRect h hw hn argb (by omega)]
  exact if_congr (by omega) rfl rfl

theorem paints_clear (argb : UInt32) : Paints fb (fbClear argb fb) fun _ _ => convertColor fb.isBgr argb := by
  have hpitch := h.width
  rw [fbClear, if_neg h.base]
  refine ⟨rfl, fun a b ha hb => ?_⟩
  have hloop : loop (fun y => fillRow (convertColor fb.isBgr argb) (u32 (y * fb.pitch)) fb.width) fb.height fb.pixels =
      fillRows (convertColor fb.isBgr argb) fb.pitch 0 0 fb.width fb.height fb.pixels := by
    rw [← loop_fillRow h (by omega) (by omega)]
    simp
  dsimp only [Framebuffer.pixel]
  rw [hloop, pixel_fillRows _ (by omega) _ (by omega), if_pos (by omega)]

/-- The colour of a pixel of a character -/
def glyphColor (font : Font) (c : UInt8) (fg bg : UInt32) (cx cy : Nat) : UInt32 :=
  if glyphBit font (shownChar c) cx cy then fg else bg

/-- A row of a character -/
theorem paints_glyphRow {x : Nat} (hx : x + 8 ≤ 2 ^ 32) (y : Nat) (font : Font) (c : UInt8) (fg : UInt32)
    {bg : UInt32} (hbg : bg ≠ 0) (cy : Nat) : Paints fb (loop (fun cx fb =>
      if glyphBit font (shownChar c) cx cy then fbPutPixel (u32 (x + cx)) y fg fb
      else if bg ≠ 0 then fbPutPixel (u32 (x + cx)) y bg fb
      else fb) 8 fb) fun a b => if (x ≤ a ∧ a < x + 8) ∧ b = y then
        convertColor fb.isBgr (glyphColor font c fg bg (a - x) cy) else fb.pixel a b := by
  refine loop_keeps (fun i fb' => Paints fb fb' fun a b => if (x ≤ a ∧ a < x + i) ∧ b = y then
    convertColor fb.isBgr (glyphColor font c fg bg (a - x) cy) else fb.pixel a b) ?_ ?_
  · refine ⟨rfl, fun a b _ _ => ?_⟩
    rw [if_neg (by omega)]
  · intro i fb' hi hp
    have hbody : (if glyphBit font (shownChar c) i cy then fbPutPixel (u32 (x + i)) y fg fb'
        else if bg ≠ 0 then fbPutPixel (u32 (x + i)) y bg fb' else fb') =
        fbPutPixel (x + i) y (glyphColor font c fg bg i cy) fb' := by
      rw [u32, Nat.mod_eq_of_lt (by omega), glyphColor, if_pos hbg]
      split <;> rfl
    rw [hbody]
    have hput := paints_putPixel (hp.usable h) (x + i) y (glyphColor font c fg bg i cy)
    rw [hp.isBgr_eq] at hput
    refine hp.trans hput fun a b _ _ hpixel => ?_
    rw [hpixel]
    by_cases ha : a = x + i ∧ b = y
    · rw [if_pos ha, if_pos (by omega), ha.1, Nat.add_sub_cancel_left]
    · rw [if_neg ha]
      split_ifs <;> first | omega | rfl

theorem paints_drawChar {x y : Nat} (hx : x + 8 ≤ 2 ^ 32) (hy : y + 16 ≤ 2 ^ 32) (font : Font) (c : UInt8)
    (fg : UInt32) {bg : UInt32} (hbg : bg ≠ 0) : Paints fb (fbDrawChar font x y c fg bg fb) fun a b =>
      if (x ≤ a ∧ a < x + 8) ∧ y ≤ b ∧ b < y + 16 then
        convertColor fb.isBgr (glyphColor font c fg bg (a - x) (b - y)) else fb.pixel a b := by
  refine loop_keeps (fun i fb' => Paints fb fb' fun a b => if (x ≤ a ∧ a < x + 8) ∧ y ≤ b ∧ b < y + i then
    convertColor fb.isBgr (glyphColor font c fg bg (a - x) (b - y)) else fb.pixel a b) ?_ ?_
  · refine ⟨rfl, fun a b _ _ => ?_⟩
    rw [if_neg (by omega)]
  · intro i fb' hi hp
    have hrow := paints_glyphRow (hp.usable h) hx (y + i) font c fg hbg i
    rw [hp.isBgr_eq] at hrow
    rw [show u32 (y + i) = y + i from Nat.mod_eq_of_lt (by omega)]
    refine hp.trans hrow fun a b _ _ hpixel => ?_
    rw [hpixel]
    by_cases hb : b = y + i
    · rw [hb, Nat.add_sub_cancel_left]
      split_ifs <;> first | omega | rfl
    · split_ifs <;> first | omega | rfl

/-- The rows of pixels below, moved up -/
theorem word_moveRows {y n distance : Nat} (hdistance : 0 < distance) (hn : y + n + distance ≤ fb.height) {a b : Nat}
    (ha : a < fb.pitch) : loop (fun i =>
        copyRow (u32 (u32 (y + i) * fb.pitch)) (u32 (u32 (y + i + distance) * fb.pitch)) fb.width) n fb.pixels
        (index fb.pitch a b) =
      if a < fb.width ∧ y ≤ b ∧ b < y + n then fb.pixels (index fb.pitch a (b + distance))
      else fb.pixels (index fb.pitch a b) := by
  have hheight := h.height_lt (by omega)
  have hloop : loop (fun i =>
        copyRow (u32 (u32 (y + i) * fb.pitch)) (u32 (u32 (y + i + distance) * fb.pitch)) fb.width) n fb.pixels =
      moveRows fb.pitch y distance fb.width n fb.pixels := by
    apply loop_congr
    intro i hi
    have hrow : ∀ r, r < fb.height → u32 (u32 r * fb.pitch) = index fb.pitch 0 r := by
      intro r hr
      rw [show u32 r = r from Nat.mod_eq_of_lt (by omega)]
      exact h.u32_index (show 0 < fb.pitch by omega) hr
    rw [hrow (y + i) (by omega), hrow (y + i + distance) (by omega)]
  rw [hloop, pixel_moveRows h.width hdistance _ ha]

/-- **Every word behind a scroll**: inside the screen the rows of pixels below move up, and the last ones become
blank. -/
theorem word_scrollUp {y n lines : Nat} (hy : y < fb.height) (hn : n ≠ 0) (hlines : lines ≠ 0)
    (hsize : y + n < 2 ^ 32) (hdistance : 18 * lines < 2 ^ 32) (color : UInt32) {a b : Nat} (ha : a < fb.pitch) :
    (fbScrollUp y n lines color fb).pixels (index fb.pitch a b) =
      if a < fb.width ∧ y ≤ b ∧ b + 18 * lines < min (y + n) fb.height then
        fb.pixels (index fb.pitch a (b + 18 * lines))
      else if a < fb.width ∧ y ≤ b ∧ b < min (y + n) fb.height then convertColor fb.isBgr color
      else fb.pixels (index fb.pitch a b) := by
  have hheight := h.height_lt (by omega)
  have hpitch := h.pitch_lt (by omega)
  have hwidth := h.width
  have hguard : ¬ (fb.base = 0 ∨ fb.height ≤ y ∨ n = 0 ∨ lines = 0) := by
    simp only [h.base, false_or]
    omega
  have hbottom : u32 (y + n) = y + n := Nat.mod_eq_of_lt hsize
  have hlinesEq : u32 (lines * 18) = 18 * lines := by
    rw [u32, Nat.mul_comm, Nat.mod_eq_of_lt hdistance]
  rw [fbScrollUp, if_neg hguard]
  dsimp only
  rw [hbottom, hlinesEq]
  -- what is left of the height
  obtain ⟨n', hclip, hend⟩ : ∃ n', (if fb.height < y + n then fb.height - y else n) = n' ∧
      y + n' = min (y + n) fb.height := by
    refine ⟨_, rfl, ?_⟩
    split <;> omega
  rw [hclip, ← hend]
  by_cases hall : n' ≤ 18 * lines
  · -- nothing to move
    rw [if_pos hall, word_fillRect h (by omega) (by omega) color ha,
      if_neg (show ¬ (a < fb.width ∧ y ≤ b ∧ b + 18 * lines < y + n') by omega)]
    exact if_congr (by omega) rfl rfl
  · have hcount : u32 (y + n') - u32 (y + 18 * lines) = n' - 18 * lines := by
      rw [u32, u32, Nat.mod_eq_of_lt (by omega), Nat.mod_eq_of_lt (by omega)]
      omega
    have hlast : u32 (y + n' - 18 * lines) = y + n' - 18 * lines := Nat.mod_eq_of_lt (by omega)
    have hmoved := h.setPixels (loop (fun i =>
      copyRow (u32 (u32 (y + i) * fb.pitch)) (u32 (u32 (y + i + 18 * lines) * fb.pitch)) fb.width)
      (n' - 18 * lines) fb.pixels)
    rw [if_neg hall, hcount, hlast, word_fillRect hmoved (by omega) (by omega) color ha]
    dsimp only
    rw [word_moveRows h (by omega) (by omega) ha]
    split_ifs <;> first | rfl | omega

/-- **Scrolling** by one line, inside the framebuffer or where there is only one: the rows of pixels below move up
by 18, and the last 18 become blank. -/
theorem paints_scrollUp {y n : Nat} (hsize : y + n < 2 ^ 32) (hn : y + n ≤ fb.height ∨ n = 18)
    (hline : 18 ≤ n) (color : UInt32) : Paints fb (fbScrollUp y n 1 color fb) fun a b =>
      if y ≤ b ∧ b + 18 < y + n then fb.pixel a (b + 18)
      else if y ≤ b ∧ b < y + n then convertColor fb.isBgr color
      else fb.pixel a b := by
  refine ⟨fbScrollUp_shape fb y n 1 color, fun a b ha hb => ?_⟩
  have hpitch := h.width
  by_cases hout : fb.height ≤ y
  · rw [fbScrollUp, if_pos (Or.inr (Or.inl hout)), if_neg (by omega), if_neg (by omega)]
  have hsame : (fbScrollUp y n 1 color fb).pitch = fb.pitch := by rw [fbScrollUp_shape]
  rw [Framebuffer.pixel, hsame, word_scrollUp h (by omega) (by omega) (by decide) hsize (by decide) color (by omega)]
  unfold Framebuffer.pixel
  split_ifs <;> first | rfl | omega

end Painting

/-- **A line of text**: each character in a cell of its own, 9 pixels from one to the next -/
theorem paints_drawString (font : Font) (x₀ : Nat) (fg : UInt32) {bg : UInt32} (hbg : bg ≠ 0) {y : Nat}
    (hy : y + 16 ≤ 2 ^ 32) (str : List UInt8) (hstr : 10 ∉ str) : ∀ {fb : Framebuffer} {x : Nat}, fb.Usable →
      x + 9 * str.length < 2 ^ 32 → Paints fb (fbDrawString font x₀ fg bg x y str fb) fun a b =>
        if (x ≤ a ∧ (a - x) % 9 < 8) ∧ y ≤ b ∧ b < y + 16 then
          (str[(a - x) / 9]?).elim (fb.pixel a b) fun c =>
            convertColor fb.isBgr (glyphColor font c fg bg ((a - x) % 9) (b - y))
        else fb.pixel a b := by
  induction str with
  | nil =>
    intro fb x _ _
    refine ⟨rfl, fun a b _ _ => ?_⟩
    simp [fbDrawString]
  | cons c str ih =>
    intro fb x h hx
    rw [List.length_cons] at hx
    have hc : ¬ c = 10 := fun hc => hstr (hc ▸ List.mem_cons_self)
    rw [fbDrawString, if_neg hc, show u32 (x + 9) = x + 9 from Nat.mod_eq_of_lt (by omega)]
    have hchar := paints_drawChar h (show x + 8 ≤ 2 ^ 32 by omega) hy font c fg hbg
    have hrest := ih (fun hmem => hstr (List.mem_cons_of_mem _ hmem)) (hchar.usable h)
      (show x + 9 + 9 * str.length < 2 ^ 32 by omega)
    rw [hchar.isBgr_eq] at hrest
    refine hchar.trans hrest fun a b _ _ hpixel => ?_
    rw [hpixel]
    by_cases hnext : x + 9 ≤ a
    · -- a cell further to the right
      have hmod : (a - (x + 9)) % 9 = (a - x) % 9 := by omega
      have hdiv : (a - x) / 9 = (a - (x + 9)) / 9 + 1 := by omega
      rw [hmod, hdiv, List.getElem?_cons_succ, if_neg (show ¬ ((x ≤ a ∧ a < x + 8) ∧ y ≤ b ∧ b < y + 16) by omega)]
      exact if_congr (by omega) rfl rfl
    · rw [if_neg (show ¬ ((x + 9 ≤ a ∧ (a - (x + 9)) % 9 < 8) ∧ y ≤ b ∧ b < y + 16) by omega)]
      by_cases hin : x ≤ a
      · have hmod : (a - x) % 9 = a - x := by omega
        have hdiv : (a - x) / 9 = 0 := by omega
        rw [hmod, hdiv]
        exact if_congr (by omega) rfl rfl
      · rw [if_neg (by omega), if_neg (by omega)]

end MinOS
