/-
# MinOS.Framebuffer.Words — which words of memory drawing writes.

`Paints` is about the picture; a word beside it (between the width and the pitch, or behind the last row) is not in
it. Here every word counts. `Fills` says that exactly the pixels of a set are written, and with what `fb_put_pixel`
would store there, so that a function that `Fills` a set agrees with single calls of `fb_put_pixel`.

`fb_fill_rect` clips with sums of 32 bits. On the screen a sum that wraps is below the coordinate it started from, so
that the rectangle is not clipped at all: `y + h` then ends the loop before its first row, and `x + w` lets each row run
on into the next ones. `fbFillRect_exact_iff` says that this is the only way to miss the rectangle.
-/
import MinOS.Framebuffer

namespace MinOS

open Raster

/-! ## Exactly these pixels -/

/-- The second framebuffer is the first one with exactly the pixels of `S` written, as `fb_put_pixel` would. -/
structure Fills (fb fb' : Framebuffer) (argb : UInt32) (S : Nat → Nat → Prop) : Prop where
  shape : fb' = { fb with pixels := fb'.pixels }
  inside : ∀ px py, S px py → fb'.pixel px py = (fbPutPixel px py argb fb).pixel px py
  outside : ∀ cell, (∀ px py, S px py → cell ≠ index fb.pitch px py) → fb'.pixels cell = fb.pixels cell

/-- The points of a rectangle that are on the screen, the sums exact -/
def Framebuffer.InRect (fb : Framebuffer) (x y w h px py : Nat) : Prop :=
  (x ≤ px ∧ px < min (x + w) fb.width) ∧ y ≤ py ∧ py < min (y + h) fb.height

instance decidableInRect (fb : Framebuffer) (x y w h px py : Nat) : Decidable (fb.InRect x y w h px py) :=
  inferInstanceAs (Decidable (_ ∧ _))

/-- `fb_put_pixel` on each of these points, row by row -/
def putPixels (x y w h : Nat) (argb : UInt32) (fb : Framebuffer) : Framebuffer :=
  loop (fun py => loop (fun px fb' =>
    if fb.InRect x y w h px py then fbPutPixel px py argb fb' else fb') fb.width) fb.height fb

section Sets

variable {fb fb' fb'' : Framebuffer} {argb : UInt32} {S S' : Nat → Nat → Prop}

theorem fills_nothing (fb : Framebuffer) (argb : UInt32) (hS : ∀ px py, ¬ S px py) : Fills fb fb argb S :=
  ⟨rfl, fun px py h => absurd h (hS px py), fun _ _ => rfl⟩

theorem Fills.congr (h : Fills fb fb' argb S) (hS : ∀ px py, S px py ↔ S' px py) : Fills fb fb' argb S' :=
  ⟨h.shape, fun px py hp => h.inside px py ((hS px py).mpr hp),
    fun cell hcell => h.outside cell fun px py hp => hcell px py ((hS px py).mp hp)⟩

/-- The pixels written and the others make up the memory. -/
theorem Fills.unique (h : Fills fb fb' argb S) (h' : Fills fb fb'' argb S) : fb' = fb'' := by
  have hpixels : fb'.pixels = fb''.pixels := by
    funext cell
    by_cases hin : ∃ px py, S px py ∧ cell = index fb.pitch px py
    · obtain ⟨px, py, hS, rfl⟩ := hin
      have hpixel := (h.inside px py hS).trans (h'.inside px py hS).symm
      rw [Framebuffer.pixel, Framebuffer.pixel, h.shape, h'.shape] at hpixel
      exact hpixel
    · have hout : ∀ px py, S px py → cell ≠ index fb.pitch px py :=
        fun px py hS heq => hin ⟨px, py, hS, heq⟩
      rw [h.outside cell hout, h'.outside cell hout]
  rw [h.shape, h'.shape, hpixels]

end Sets

theorem fbPutPixel_shape (px py : Nat) (argb : UInt32) (fb : Framebuffer) :
    fbPutPixel px py argb fb = { fb with pixels := (fbPutPixel px py argb fb).pixels } := by
  unfold fbPutPixel
  split <;> rfl

/-- Without a framebuffer nothing is stored. -/
theorem fbPutPixel_of_base {fb : Framebuffer} (hbase : fb.base = 0) (px py : Nat) (argb : UInt32) :
    fbPutPixel px py argb fb = fb := if_pos (Or.inl hbase)

theorem Fills.eq_of_base {fb fb' : Framebuffer} {argb : UInt32} {S : Nat → Nat → Prop} (h : Fills fb fb' argb S)
    (hbase : fb.base = 0) : fb' = fb := by
  have hkept : fb'.pixels = fb.pixels := by
    have hpitch : fb'.pitch = fb.pitch := by rw [h.shape]
    funext cell
    by_cases hin : ∃ a b, S a b ∧ cell = index fb.pitch a b
    · obtain ⟨a, b, hab, rfl⟩ := hin
      have hpixel := h.inside a b hab
      rw [fbPutPixel_of_base hbase, Framebuffer.pixel, hpitch] at hpixel
      exact hpixel
    · exact h.outside cell fun a b hab heq => hin ⟨a, b, hab, heq⟩
  rw [h.shape, hkept]

section OnScreen

variable {fb : Framebuffer} (hwidth : fb.width ≤ fb.pitch) (hsize : fb.pitch * fb.height < 2 ^ 32)
include hwidth hsize

/-- The word of a point on the screen -/
theorem fbPutPixel_pixels {px py : Nat} (hpx : px < fb.width) (hpy : py < fb.height) (argb : UInt32) :
    (fbPutPixel px py argb fb).pixels =
      if fb.base = 0 then fb.pixels
      else Function.update fb.pixels (index fb.pitch px py) (convertColor fb.isBgr argb) := by
  rw [fbPutPixel]
  by_cases hbase : fb.base = 0
  · rw [if_pos (Or.inl hbase), if_pos hbase]
  · have husable : fb.Usable := ⟨hbase, hwidth, hsize⟩
    have hguard : ¬ (fb.base = 0 ∨ fb.width ≤ px ∨ fb.height ≤ py) := by
      simp only [hbase, false_or]
      omega
    rw [if_neg hguard, if_neg hbase, husable.u32_index (by omega) hpy]

/-- What `fb_put_pixel` stores -/
theorem fbPutPixel_pixel_self {px py : Nat} (hpx : px < fb.width) (hpy : py < fb.height) (argb : UInt32) :
    (fbPutPixel px py argb fb).pixel px py =
      if fb.base = 0 then fb.pixel px py else convertColor fb.isBgr argb := by
  have hpitch : (fbPutPixel px py argb fb).pitch = fb.pitch := by rw [fbPutPixel_shape]
  rw [Framebuffer.pixel, hpitch, fbPutPixel_pixels hwidth hsize hpx hpy]
  split
  · rfl
  · rw [Function.update_self]

/-- One more pixel -/
theorem Fills.put {fb' : Framebuffer} {argb : UInt32} {S : Nat → Nat → Prop} (h : Fills fb fb' argb S)
    (hS : ∀ a b, S a b → a < fb.width ∧ b < fb.height) {px py : Nat} (hpx : px < fb.width) (hpy : py < fb.height) :
    Fills fb (fbPutPixel px py argb fb') argb fun a b => S a b ∨ (a = px ∧ b = py) := by
  by_cases hbase : fb.base = 0
  · rw [h.eq_of_base hbase, fbPutPixel_of_base hbase]
    exact ⟨rfl, fun a b _ => by rw [fbPutPixel_of_base hbase], fun _ _ => rfl⟩
  · obtain ⟨pixels, rfl⟩ : ∃ pixels, fb' = { fb with pixels } := ⟨_, h.shape⟩
    have hput : (fbPutPixel px py argb { fb with pixels }).pixels =
        Function.update pixels (index fb.pitch px py) (convertColor fb.isBgr argb) :=
      (@fbPutPixel_pixels { fb with pixels } hwidth hsize px py hpx hpy argb).trans (if_neg hbase)
    have hshape := fbPutPixel_shape px py argb { fb with pixels }
    refine ⟨hshape, ?_, ?_⟩
    · intro a b hab
      have hon : a < fb.width ∧ b < fb.height := hab.elim (hS a b) fun heq => by omega
      have hpixel : (fbPutPixel px py argb { fb with pixels }).pixel a b =
          if index fb.pitch a b = index fb.pitch px py then convertColor fb.isBgr argb
          else pixels (index fb.pitch a b) := by
        rw [Framebuffer.pixel, hput, hshape]
        exact Function.update_apply _ _ _ _
      rw [hpixel, fbPutPixel_pixel_self hwidth hsize hon.1 hon.2, if_neg hbase]
      split
      · rfl
      · rename_i hne
        have hin : S a b := hab.resolve_right fun heq => hne (by rw [heq.1, heq.2])
        have hold := h.inside a b hin
        rw [fbPutPixel_pixel_self hwidth hsize hon.1 hon.2, if_neg hbase] at hold
        exact hold
    · intro cell hcell
      rw [hput, Function.update_of_ne (hcell px py (Or.inr ⟨rfl, rfl⟩))]
      exact h.outside cell fun a b hab => hcell a b (Or.inl hab)

/-- **Single pixels** fill the rectangle. -/
theorem fills_putPixels (x y w h : Nat) (argb : UInt32) :
    Fills fb (putPixels x y w h argb fb) argb (fb.InRect x y w h) := by
  have hrows : Fills fb (putPixels x y w h argb fb) argb fun a b => fb.InRect x y w h a b ∧ b < fb.height := by
    refine loop_keeps (fun i fb' => Fills fb fb' argb fun a b => fb.InRect x y w h a b ∧ b < i) ?_ ?_
    · exact fills_nothing fb argb fun _ _ hp => absurd hp.2 (Nat.not_lt_zero _)
    · intro py fb' hpy hdone
      have hrow : Fills fb (loop (fun px fb' => if fb.InRect x y w h px py then fbPutPixel px py argb fb' else fb')
          fb.width fb') argb fun a b => fb.InRect x y w h a b ∧ (b < py ∨ (b = py ∧ a < fb.width)) := by
        refine loop_keeps (fun i fb' => Fills fb fb' argb fun a b =>
          fb.InRect x y w h a b ∧ (b < py ∨ (b = py ∧ a < i))) ?_ ?_
        · exact hdone.congr fun a b => and_congr_right fun _ => by omega
        · intro px fb' hpx hsofar
          have hon : ∀ a b, fb.InRect x y w h a b ∧ (b < py ∨ (b = py ∧ a < px)) →
              a < fb.width ∧ b < fb.height := by
            intro a b hab
            unfold Framebuffer.InRect at hab
            omega
          split
          · rename_i hin
            refine (hsofar.put hwidth hsize hon hpx hpy).congr fun a b => ?_
            unfold Framebuffer.InRect at hin ⊢
            omega
          · rename_i hout
            refine hsofar.congr fun a b => ?_
            unfold Framebuffer.InRect at hout ⊢
            omega
      refine hrow.congr fun a b => ?_
      unfold Framebuffer.InRect
      omega
  refine hrows.congr fun a b => ?_
  unfold Framebuffer.InRect
  omega

end OnScreen

/-! ## `fb_fill_rect` -/

section Rectangle

variable {fb : Framebuffer} {x y w h : Nat}

/-- Nothing of the rectangle is to be drawn, or neither sum wraps. -/
def Framebuffer.Clips (fb : Framebuffer) (x y w h : Nat) : Prop :=
  (fb.base = 0 ∨ fb.width ≤ x ∨ fb.height ≤ y ∨ w = 0 ∨ h = 0) ∨ (x + w < 2 ^ 32 ∧ y + h < 2 ^ 32)

/-- Rows that are there, without wrapping sums -/
theorem Framebuffer.Usable.fills_fillRect (husable : fb.Usable) (hw : x + w < 2 ^ 32) (hh : y + h < 2 ^ 32)
    (argb : UInt32) : Fills fb (fbFillRect x y w h argb fb) argb (fb.InRect x y w h) := by
  have hwidth := husable.width
  refine ⟨fbFillRect_shape fb x y w h argb, ?_, ?_⟩
  · intro px py hin
    have hon : px < fb.width ∧ py < fb.height := by
      unfold Framebuffer.InRect at hin
      omega
    rw [fbPutPixel_pixel_self hwidth husable.size hon.1 hon.2, if_neg husable.base, Framebuffer.pixel,
      fbFillRect_shape]
    exact (word_fillRect husable hw hh argb (by omega)).trans (if_pos hin)
  · intro cell hcell
    rcases Nat.eq_zero_or_pos fb.pitch with hzero | hpitch
    · -- a screen without columns
      have hnone : fb.width ≤ x ∨ fb.height ≤ y := by omega
      rw [fbFillRect, if_neg husable.base, if_pos hnone]
    · obtain ⟨a, b, ha, rfl⟩ := exists_index hpitch cell
      rw [word_fillRect husable hw hh argb ha]
      exact if_neg fun hin => hcell a b hin rfl

/-- The loop ends before its first row. -/
theorem fbFillRect_of_wrapped_height (hbase : fb.base ≠ 0) (hx : x < fb.width) (hy : y < fb.height)
    (hh : h < 2 ^ 32) (hylt : y < 2 ^ 32) (hwrap : 2 ^ 32 ≤ y + h) (argb : UInt32) :
    fbFillRect x y w h argb fb = fb := by
  have hsum : u32 (y + h) = y + h - 2 ^ 32 := by
    rw [u32, Nat.mod_eq_sub_mod hwrap, Nat.mod_eq_of_lt (by omega)]
  have hcount : u32 (y + h) - y = 0 := by omega
  rw [fbFillRect, if_neg hbase, if_neg (by omega)]
  dsimp only
  rw [if_neg (show ¬ fb.height < u32 (y + h) by omega), hcount]
  rfl

/-- Each row runs on over the right edge. -/
theorem word_fillRect_of_wrapped_width (husable : fb.Usable) (hx : x < fb.width) (hy : y < fb.height) (hw : w < 2 ^ 32)
    (hwrap : 2 ^ 32 ≤ x + w) (hh : h ≠ 0) (hsum : y + h < 2 ^ 32) (argb : UInt32) :
    (fbFillRect x y w h argb fb).pixels (index fb.pitch fb.width y) = convertColor fb.isBgr argb := by
  obtain ⟨hpitch, hheight⟩ := husable.sizes_lt (by omega) (by omega)
  have hwidth := husable.width
  have hright : u32 (x + w) = x + w - 2 ^ 32 := by
    rw [u32, Nat.mod_eq_sub_mod hwrap, Nat.mod_eq_of_lt (by omega)]
  have hbottom : u32 (y + h) = y + h := Nat.mod_eq_of_lt hsum
  rw [fbFillRect, if_neg husable.base, if_neg (by omega)]
  dsimp only
  rw [if_neg (show ¬ fb.width < u32 (x + w) by omega), hbottom]
  generalize hn : (if fb.height < y + h then fb.height - y else h) = n
  have hrows : 0 < n ∧ y + n ≤ fb.height := by
    rw [← hn]
    split <;> omega
  have hcount : u32 (y + n) - y = n := by
    rw [u32, Nat.mod_eq_of_lt (by omega), Nat.add_sub_cancel_left]
  rw [hcount]
  -- the first row reaches the word, and every later one stores the same value or nothing there
  have hall : 0 < n → loop (fun i => fillRow (convertColor fb.isBgr argb) (u32 ((y + i) * fb.pitch + x)) w) n fb.pixels
      (index fb.pitch fb.width y) = convertColor fb.isBgr argb := by
    refine loop_keeps (fun i (mem : Nat → UInt32) => 0 < i →
      mem (index fb.pitch fb.width y) = convertColor fb.isBgr argb) (fun hzero => absurd hzero (Nat.lt_irrefl 0)) ?_
    intro i mem _ hmem _
    rw [fillRow_apply]
    split
    · rfl
    · rename_i hmiss
      rcases Nat.eq_zero_or_pos i with rfl | hpos
      · refine absurd ?_ hmiss
        rw [Nat.add_zero, husable.u32_index (by omega) hy]
        unfold index
        omega
      · exact hmem hpos
  exact hall hrows.1

/-- The word to the right of a rectangle that does not start in the first column -/
theorem index_width_not_inRect (hwidth : fb.width ≤ fb.pitch) (hpos : 0 < x) {px py : Nat}
    (hin : fb.InRect x y w h px py) : index fb.pitch fb.width y ≠ index fb.pitch px py := by
  unfold Framebuffer.InRect at hin
  intro heq
  rcases Nat.lt_or_ge fb.width fb.pitch with hlt | hge
  · have := (index_inj hlt (by omega)).mp heq
    omega
  · -- it is the first pixel of the next row
    have hnext : index fb.pitch fb.width y = index fb.pitch 0 (y + 1) := by
      unfold index
      rw [Nat.succ_mul]
      omega
    rw [hnext] at heq
    have := (index_inj (by omega) (by omega)).mp heq
    omega

theorem fbFillRect_of_no_rows (hy : y < 2 ^ 32) (argb : UInt32) : fbFillRect x y w 0 argb fb = fb := by
  have hsum : u32 (y + 0) = y := Nat.mod_eq_of_lt hy
  unfold fbFillRect
  split
  · rfl
  · split
    · rfl
    · rename_i hin
      dsimp only
      rw [hsum, if_neg (show ¬ fb.height < y by omega), hsum, Nat.sub_self]
      rfl

theorem fills_of_clips (hwidth : fb.width ≤ fb.pitch) (hsize : fb.pitch * fb.height < 2 ^ 32) (hx : x < 2 ^ 32)
    (hy : y < 2 ^ 32) (hh : h < 2 ^ 32) (argb : UInt32) (hclips : fb.Clips x y w h) :
    Fills fb (fbFillRect x y w h argb fb) argb (fb.InRect x y w h) := by
  by_cases hbase : fb.base = 0
  · -- without a framebuffer neither function stores anything
    rw [fbFillRect, if_pos hbase]
    refine ⟨rfl, fun px py _ => ?_, fun _ _ => rfl⟩
    rw [fbPutPixel, if_pos (Or.inl hbase)]
  have husable : fb.Usable := ⟨hbase, hwidth, hsize⟩
  by_cases hout : fb.width ≤ x ∨ fb.height ≤ y
  · rw [fbFillRect, if_neg hbase, if_pos hout]
    apply fills_nothing
    intro px py hin
    unfold Framebuffer.InRect at hin
    omega
  by_cases hright : x + w < 2 ^ 32
  · by_cases hbottom : y + h < 2 ^ 32
    · exact husable.fills_fillRect hright hbottom argb
    · -- no row is drawn, and the rectangle has no columns
      rw [fbFillRect_of_wrapped_height hbase (by omega) (by omega) hh hy (by omega)]
      apply fills_nothing
      intro px py hin
      simp only [Framebuffer.Clips, hbase, false_or] at hclips
      unfold Framebuffer.InRect at hin
      omega
  · have hrows : h = 0 := by
      simp only [Framebuffer.Clips, hbase, false_or] at hclips
      omega
    rw [hrows, fbFillRect_of_no_rows hy]
    apply fills_nothing
    intro px py hin
    unfold Framebuffer.InRect at hin
    omega

theorem add_one_ne_self (c : UInt32) : c + 1 ≠ c := by
  intro heq
  rw [← UInt32.toNat_inj, UInt32.toNat_add, show (1 : UInt32).toNat = 1 from rfl] at heq
  have := c.toNat_lt
  omega

/-- A memory that holds another colour everywhere shows every write, and every write that is missing. -/
theorem clips_of_fills (hwidth : fb.width ≤ fb.pitch) (hsize : fb.pitch * fb.height < 2 ^ 32) (hy : y < 2 ^ 32)
    (hw : w < 2 ^ 32) (hh : h < 2 ^ 32) {argb : UInt32} (hother : fb.pixels = fun _ => convertColor fb.isBgr argb + 1)
    (hfills : Fills fb (fbFillRect x y w h argb fb) argb (fb.InRect x y w h)) : fb.Clips x y w h := by
  have hcolor := add_one_ne_self (convertColor fb.isBgr argb)
  by_contra hclips
  simp only [Framebuffer.Clips, not_or] at hclips
  obtain ⟨⟨hbase, hxin, hyin, hwne, hhne⟩, hwrap⟩ := hclips
  have hxlt : x < fb.width := Nat.lt_of_not_le hxin
  have hylt : y < fb.height := Nat.lt_of_not_le hyin
  by_cases hbottom : y + h < 2 ^ 32
  · have hword := word_fillRect_of_wrapped_width ⟨hbase, hwidth, hsize⟩ hxlt hylt hw (by omega) hhne hbottom argb
    have hkept := hfills.outside (index fb.pitch fb.width y) fun px py hin =>
      index_width_not_inRect hwidth (by omega) hin
    rw [hword, hother] at hkept
    exact hcolor hkept.symm
  · rw [fbFillRect_of_wrapped_height hbase hxlt hylt hh hy (by omega)] at hfills
    have hpixel := hfills.inside x y (by unfold Framebuffer.InRect; omega)
    rw [fbPutPixel_pixel_self hwidth hsize hxlt hylt, if_neg hbase, Framebuffer.pixel, hother] at hpixel
    exact hcolor hpixel

/-- **`fb_fill_rect` and the clipped rectangle.** It writes exactly the pixels of the rectangle that are on the screen,
as single calls of `fb_put_pixel` would, whatever the memory holds, if and only if nothing of the rectangle is on the
screen or neither `x + w` nor `y + h` wraps. -/
theorem fbFillRect_exact_iff (hwidth : fb.width ≤ fb.pitch) (hsize : fb.pitch * fb.height < 2 ^ 32) (hx : x < 2 ^ 32)
    (hy : y < 2 ^ 32) (hw : w < 2 ^ 32) (hh : h < 2 ^ 32) (argb : UInt32) :
    ((∀ pixels, Fills { fb with pixels } (fbFillRect x y w h argb { fb with pixels }) argb (fb.InRect x y w h)) ↔
        fb.Clips x y w h) ∧
      ((∀ pixels, fbFillRect x y w h argb { fb with pixels } = putPixels x y w h argb { fb with pixels }) ↔
        fb.Clips x y w h) := by
  have hfills : (∀ pixels, Fills { fb with pixels } (fbFillRect x y w h argb { fb with pixels }) argb
      (fb.InRect x y w h)) ↔ fb.Clips x y w h := by
    constructor
    · intro hall
      exact @clips_of_fills { fb with pixels := fun _ => convertColor fb.isBgr argb + 1 } x y w h hwidth hsize hy hw hh
        argb rfl (hall _)
    · intro hclips pixels
      exact @fills_of_clips { fb with pixels } x y w h hwidth hsize hx hy hh argb hclips
  have hput : ∀ pixels, Fills { fb with pixels } (putPixels x y w h argb { fb with pixels }) argb
      (fb.InRect x y w h) := fun pixels => @fills_putPixels { fb with pixels } hwidth hsize x y w h argb
  refine ⟨hfills, Iff.trans ⟨?_, ?_⟩ hfills⟩
  · intro hsame pixels
    rw [hsame pixels]
    exact hput pixels
  · intro hall pixels
    exact (hall pixels).unique (hput pixels)

end Rectangle

/-- A black screen of two rows of two pixels, with one more word at the end of each -/
def smallScreen : Framebuffer :=
  { base := 0xC0000000, width := 2, height := 2, pitch := 3, isBgr := 1, pixels := fun _ => 0 }

/-- A rectangle that sticks out on the right -/
theorem fbFillRect_exact_clipped : (1 < 2 ^ 32 ∧ 5 < 2 ^ 32) ∧
    ∀ pixels, Fills { smallScreen with pixels } (fbFillRect 1 0 5 1 0xFFFFFF { smallScreen with pixels }) 0xFFFFFF
      (smallScreen.InRect 1 0 5 1) :=
  ⟨by decide, (@fbFillRect_exact_iff smallScreen 1 0 5 1 (by decide) (by decide) (by decide) (by decide) (by decide)
    (by decide) 0xFFFFFF).1.mpr (Or.inr (by decide))⟩

/-- From row 1 down as far as 32 bits go: no row is drawn. -/
theorem fbFillRect_misses_rows : ¬ Fills smallScreen (fbFillRect 0 1 1 0xFFFFFFFF 0xFFFFFF smallScreen) 0xFFFFFF
    (smallScreen.InRect 0 1 1 0xFFFFFFFF) := by
  intro h
  have hpixel := h.inside 0 1 (by decide)
  exact absurd hpixel (by decide)

/-! ## `fb_scroll_up` -/

/-- The region of `n` rows from `y` on has moved up by `distance` rows, and nothing else has changed. -/
structure ScrollsUp (fb fb' : Framebuffer) (y n distance : Nat) (color : UInt32) : Prop where
  shape : fb' = { fb with pixels := fb'.pixels }
  moved : ∀ px r, px < fb.width → y ≤ r → r + distance < y + n → fb'.pixel px r = fb.pixel px (r + distance)
  blank : ∀ px r, px < fb.width → max y (y + n - distance) ≤ r → r < y + n →
    fb'.pixel px r = convertColor fb.isBgr color
  kept : ∀ cell, (∀ px r, px < fb.width → y ≤ r → r < y + n → cell ≠ index fb.pitch px r) →
    fb'.pixels cell = fb.pixels cell

/-- Without columns there is nothing to move or fill. -/
theorem fbScrollUp_of_no_columns {fb : Framebuffer} (hwidth : fb.width = 0) (y n lines : Nat) (color : UInt32) :
    (fbScrollUp y n lines color fb).pixels = fb.pixels := by
  have hfill : ∀ (fb' : Framebuffer) (y h : Nat), fb'.width = 0 →
      (fbFillRect 0 y fb'.width h color fb').pixels = fb'.pixels := by
    intro fb' y h hzero
    unfold fbFillRect
    split
    · rfl
    · rw [if_pos (Or.inl (Nat.le_of_eq hzero))]
  have hcopy : ∀ (k : Nat) (dst src : Nat → Nat),
      loop (fun i => copyRow (dst i) (src i) fb.width) k fb.pixels = fb.pixels := by
    intro k dst src
    refine loop_keeps (fun _ (mem : Nat → UInt32) => mem = fb.pixels) rfl ?_
    intro i mem _ hmem
    rw [hwidth]
    exact hmem
  unfold fbScrollUp
  split
  · rfl
  · dsimp only
    generalize (if fb.height < u32 (y + n) then fb.height - y else n) = left
    split
    · exact hfill fb _ _ hwidth
    · rw [hcopy]
      exact hfill fb _ _ hwidth

/-- **Scrolling shifts the region and nothing else**: the rows that are on the screen, by any number of lines. -/
theorem fbScrollUp_scrollsUp {fb : Framebuffer} (h : fb.Usable) {y height lines : Nat} (hy : y < fb.height)
    (hheight : height ≠ 0) (hlines : lines ≠ 0) (hsum : y + height < 2 ^ 32) (hdistance : 18 * lines < 2 ^ 32)
    (color : UInt32) :
    ScrollsUp fb (fbScrollUp y height lines color fb) y (min height (fb.height - y)) (18 * lines) color := by
  have hwidth := h.width
  have hsame : (fbScrollUp y height lines color fb).pitch = fb.pitch := by rw [fbScrollUp_shape]
  have hword := fun a b (ha : a < fb.pitch) =>
    word_scrollUp h hy hheight hlines hsum hdistance color (a := a) (b := b) ha
  refine ⟨fbScrollUp_shape fb y height lines color, ?_, ?_, ?_⟩
  · intro px r hpx hr hrow
    rw [Framebuffer.pixel, hsame, hword px r (by omega), if_pos (by omega)]
    rfl
  · intro px r hpx hlow hhigh
    rw [Framebuffer.pixel, hsame, hword px r (by omega), if_neg (by omega), if_pos (by omega)]
  · intro cell hcell
    rcases Nat.eq_zero_or_pos fb.pitch with hzero | hpitch
    · rw [fbScrollUp_of_no_columns (by omega)]
    · obtain ⟨a, b, ha, rfl⟩ := exists_index hpitch cell
      have hout : ¬ (a < fb.width ∧ y ≤ b ∧ b < min (y + height) fb.height) :=
        fun hin => hcell a b hin.1 hin.2.1 (by omega) rfl
      rw [hword a b ha, if_neg (by omega), if_neg hout]

/-- A screen of one column and 40 rows, whose words are numbered -/
def tallScreen : Framebuffer :=
  { base := 0xC0000000, width := 1, height := 40, pitch := 2, isBgr := 0, pixels := UInt32.ofNat }

/-- From row 2 on, by one line -/
theorem fbScrollUp_scrollsUp_one_line :
    tallScreen.Usable ∧ ScrollsUp tallScreen (fbScrollUp 2 100 1 7 tallScreen) 2 38 18 7 := by
  have husable : tallScreen.Usable := ⟨by decide, by decide, by decide⟩
  exact ⟨husable, fbScrollUp_scrollsUp husable (by decide) (by decide) (by decide) (by decide) (by decide) 7⟩

end MinOS
