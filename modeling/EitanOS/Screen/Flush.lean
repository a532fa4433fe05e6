import EitanOS.Lib.Layout
import Mathlib.Data.List.Count
import Mathlib.Tactic.Ring

/-!
# Redrawing the console (`screen.c`)

`screen_flush` draws the text of the console buffer from the line it is scrolled to, one cell after the
other. An access outside the buffer gives `none`, and so does a loop that takes more rounds than it is
given.

* `normCursor`, `drawByte`, `drawLoop`, `fillLoop`, `flush`: the code.
* `cursorAt w p`: the cursor at cell `p`, counted through all rows.
* `normCursor_cursorAt`, `drawByte_break`, **`drawLoop_eq`**, `fillLoop_eq`: the cells that are drawn.
* `findStart_eq`: the line the console is scrolled to.
* **`flush_drawn`**: what a redraw draws.
-/

namespace Screen

open Layout

/-! ## The functions -/

/-- `BUFFER_SIZE`. -/
def bufferSize : ℕ := 0x4000

/-- `'\n'`. -/
def newline : UInt8 := 10

/-- `' '`. -/
def blank : UInt8 := 32

/-- The size of the framebuffer in pixels, and the height of the characters. The characters of a PSF1 font,
such as the one that is loaded, are 8 pixels wide. -/
structure Display where
  fbWidth : ℕ
  fbHeight : ℕ
  charSize : UInt8

namespace Display

/-- The number of columns. -/
def width (d : Display) : ℕ := d.fbWidth / 8

/-- The number of rows. -/
def height (d : Display) : ℕ := d.fbHeight / d.charSize.toNat

end Display

/-- `buffer`, `scroll` and `buffer_end`. The cursor is set to the start by every redraw before it is used. -/
structure Console where
  buffer : List UInt8
  scroll : ℕ
  bufferEnd : ℕ

/-- What is drawn: a black pixel, or a character in a cell of the grid. -/
inductive Draw
  | pixel (x y : ℕ)
  | char (c : UInt8) (x y : ℕ)
deriving DecidableEq

/-- `cursor_x` and `cursor_y`. -/
structure Cursor where
  x : ℤ
  y : ℤ

/-- An `int` where a `uint64_t` is compared or added. -/
def toU64 (n : ℤ) : ℕ := (n % 2 ^ 64).toNat

/-- An `int` as an argument of type `uint32_t`. -/
def toU32 (n : ℤ) : ℕ := (n % 2 ^ 32).toNat

/-- `screen_put_char`, white on black. -/
def putChar (d : Display) (c : UInt8) (cur : Cursor) : List Draw :=
  if d.width ≤ toU32 cur.x ∨ d.height ≤ toU32 cur.y then [] else [.char c (toU32 cur.x) (toU32 cur.y)]

/-- `while (buffer[cursor_x + cursor_y * width] != 0) cursor_x++`. -/
def lineEnd (buffer : List UInt8) (width : ℕ) (y : ℤ) : ℕ → ℤ → Option ℤ
  | 0, _ => none
  | fuel + 1, x => do
    let c ← buffer[toU64 (x + y * width)]?
    if c ≠ 0 then lineEnd buffer width y fuel (x + 1) else return x

/-- The cursor goes back to the end of the line before. -/
def previousLine (buffer : List UInt8) (width : ℕ) (cur : Cursor) : Option Cursor := do
  let x ← lineEnd buffer width (cur.y - 1) (bufferSize + 1) 0
  return ⟨x - 1, cur.y - 1⟩

/-- `screen_norm_cursor`. -/
def normCursor (buffer : List UInt8) (width : ℕ) (cur : Cursor) : Option Cursor := do
  let cur ← if cur.x < 0 then previousLine buffer width cur else pure cur
  return if width ≤ toU64 cur.x then ⟨0, cur.y + 1⟩ else cur

/-- A character is drawn, and the cursor moves on. -/
def advance (d : Display) (buffer : List UInt8) (c : UInt8) (cur : Cursor) : Option (List Draw × Cursor) := do
  let next ← normCursor buffer d.width ⟨cur.x + 1, cur.y⟩
  return (putChar d c cur, next)

/-- `for (; cursor_x < width; cursor_x++)`: the rest of the row. -/
def padRow (d : Display) (y : ℤ) : ℕ → ℤ → Option (List Draw)
  | 0, _ => none
  | fuel + 1, x =>
    if toU64 x < d.width then do
      let rest ← padRow d y fuel (x + 1)
      return putChar d blank ⟨x, y⟩ ++ rest
    else return []

/-- A byte of the text. -/
def drawByte (d : Display) (buffer : List UInt8) (c : UInt8) (cur : Cursor) : Option (List Draw × Cursor) :=
  if c = 0 then advance d buffer blank cur
  else if c = newline then do
    let row ← padRow d cur.y (d.width + 1) cur.x
    return (row, ⟨0, cur.y + 1⟩)
  else advance d buffer c cur

/-- The loop over the text, from `i` on. -/
def drawLoop (d : Display) (buffer : List UInt8) (stop : ℕ) : ℕ → ℕ → Cursor → Option (List Draw × Cursor)
  | 0, _, _ => none
  | fuel + 1, i, cur =>
    if i < stop then
      if d.height ≤ toU64 cur.y then return ([], cur)
      else do
        let c ← buffer[i]?
        let x ← drawByte d buffer c cur
        let rest ← drawLoop d buffer stop fuel (i + 1) x.2
        return (x.1 ++ rest.1, rest.2)
    else return ([], cur)

/-- The loop behind the text. -/
def fillLoop (d : Display) (buffer : List UInt8) : ℕ → Cursor → Option (List Draw)
  | 0, _ => none
  | fuel + 1, cur =>
    if toU64 cur.y < d.height then do
      let x ← advance d buffer blank cur
      let rest ← fillLoop d buffer fuel x.2
      return x.1 ++ rest
    else return []

/-- The text from `start` on. No loop takes more rounds than there are bytes or cells. -/
def drawFrom (d : Display) (s : Console) (start : ℕ) : Option (List Draw) := do
  let stop := min s.bufferEnd (start + d.width * d.height)
  let x ← drawLoop d s.buffer stop (bufferSize + 1) start ⟨0, 0⟩
  let rest ← fillLoop d s.buffer (d.width * d.height + 1) x.2
  return x.1 ++ rest

/-- The whole framebuffer black. -/
def blackout (d : Display) : List Draw :=
  (List.range d.fbHeight).flatMap fun y => (List.range d.fbWidth).map fun x => .pixel x y

/-- The loop that counts line breaks: where the text behind the `scroll`-th of them starts. -/
def findStart (s : Console) : ℕ → ℕ → ℕ → Option (Option ℕ)
  | 0, _, _ => none
  | fuel + 1, i, newLineCount =>
    if i < s.bufferEnd then do
      let c ← s.buffer[i]?
      if c = newline then
        if s.scroll ≤ newLineCount + 1 then return some (i + 1)
        else findStart s fuel (i + 1) (newLineCount + 1)
      else findStart s fuel (i + 1) newLineCount
    else return none

/-- `screen_flush`: what is drawn. -/
def flush (d : Display) (s : Console) : Option (List Draw) :=
  if 0 < s.scroll then do
    match ← findStart s (bufferSize + 1) 0 0 with
    | none => return blackout d
    | some start => if bufferSize ≤ start then return blackout d else drawFrom d s start
  else drawFrom d s 0

/-! ## The cursor -/

/-- Grids of up to `2 ^ 20` columns and rows. -/
structure Display.Valid (d : Display) : Prop where
  width_pos : 1 ≤ d.width
  width_le : d.width ≤ 2 ^ 20
  height_pos : 1 ≤ d.height
  height_le : d.height ≤ 2 ^ 20

/-- The cursor at cell `p`. -/
def cursorAt (w p : ℕ) : Cursor := ⟨(p % w : ℕ), (p / w : ℕ)⟩

/-- The character `c` in cell `p`. -/
def cell (w : ℕ) (c : UInt8) (p : ℕ) : Draw := .char c (p % w) (p / w)

/-- The characters of `l` in the cells from `p` on. -/
def drawn (w p : ℕ) (l : List UInt8) : List Draw := (l.zipIdx p).map fun x => cell w x.1 x.2

variable {d : Display} {buffer l t : List UInt8} {c : UInt8} {s : Console} {n p w f i : ℕ}

theorem drawn_cons : drawn w p (c :: l) = cell w c p :: drawn w (p + 1) l := rfl

theorem drawn_append : drawn w p (l ++ t) = drawn w p l ++ drawn w (p + l.length) t := by
  rw [drawn, List.zipIdx_append, List.map_append]
  rfl

theorem toU64_natCast (h : n < 2 ^ 64) : toU64 n = n := by
  unfold toU64
  omega

theorem toU32_natCast (h : n < 2 ^ 32) : toU32 n = n := by
  unfold toU32
  omega

theorem succ_mod_div (hw : 0 < w) : ((p + 1) % w = p % w + 1 ∧ (p + 1) / w = p / w ∧ p % w + 1 < w) ∨
    ((p + 1) % w = 0 ∧ (p + 1) / w = p / w + 1 ∧ p % w + 1 = w) := by
  have hlt := Nat.mod_lt p hw
  have hp := Nat.div_add_mod p w
  by_cases h : p % w + 1 = w
  · have hnext := add_sub_mod (p := p) hw
    rw [show w - p % w = 1 by omega] at hnext
    exact .inr ⟨hnext.1, hnext.2, h⟩
  · have hu := (Nat.div_mod_unique (a := p + 1) (c := p % w + 1) (d := p / w) hw).mpr ⟨by omega, by omega⟩
    exact .inl ⟨hu.2, hu.1, by omega⟩

/-- **The cursor moves to the next cell.** -/
theorem normCursor_cursorAt (hw : 0 < w) (hle : w ≤ 2 ^ 20) :
    normCursor buffer w ⟨(cursorAt w p).x + 1, (cursorAt w p).y⟩ = some (cursorAt w (p + 1)) := by
  have hcast : ((p % w : ℕ) : ℤ) + 1 = ((p % w + 1 : ℕ) : ℤ) := by push_cast; rfl
  have hlt := Nat.mod_lt p hw
  have hx : toU64 ((p % w + 1 : ℕ) : ℤ) = p % w + 1 := toU64_natCast (by omega)
  simp only [normCursor, cursorAt, hcast]
  rw [if_neg (by omega), pure_bind, hx]
  rcases succ_mod_div (p := p) hw with ⟨hm, hd, h⟩ | ⟨hm, hd, h⟩
  · rw [hm, hd]
    simp [Nat.not_le.mpr h]
  · rw [hm, hd]
    simp [h]

theorem mod_lt_div_lt (hd : d.Valid) (hp : p < d.width * d.height) :
    p % d.width < d.width ∧ p / d.width < d.height :=
  ⟨Nat.mod_lt p hd.width_pos, Nat.div_lt_of_lt_mul hp⟩

theorem putChar_cursorAt (hd : d.Valid) (hp : p < d.width * d.height) :
    putChar d c (cursorAt d.width p) = [cell d.width c p] := by
  obtain ⟨hx, hy⟩ := mod_lt_div_lt hd hp
  have hw := hd.width_le
  have hh := hd.height_le
  have hxc : toU32 (cursorAt d.width p).x = p % d.width := toU32_natCast (by omega)
  have hyc : toU32 (cursorAt d.width p).y = p / d.width := toU32_natCast (by omega)
  rw [putChar, hxc, hyc, if_neg (by omega)]
  rfl

/-- **One character.** -/
theorem advance_cursorAt (hd : d.Valid) (hp : p < d.width * d.height) :
    advance d buffer c (cursorAt d.width p) = some ([cell d.width c p], cursorAt d.width (p + 1)) := by
  rw [advance, normCursor_cursorAt hd.width_pos hd.width_le, putChar_cursorAt hd hp]
  rfl

/-- **The rest of a row.** -/
theorem padRow_eq (hd : d.Valid) {x y : ℕ} (hy : y < d.height) (hx : x ≤ d.width) (hf : d.width - x < f) :
    padRow d y f x = some (drawn d.width (y * d.width + x) (List.replicate (d.width - x) blank)) := by
  have hw := hd.width_le
  have hh := hd.height_le
  induction f generalizing x with
  | zero => omega
  | succ f ih =>
    rw [padRow, toU64_natCast (by omega)]
    by_cases hlt : x < d.width
    · obtain ⟨k, hk⟩ : ∃ k, d.width - x = k + 1 := Nat.exists_eq_succ_of_ne_zero (by omega)
      have hu : (y * d.width + x) / d.width = y ∧ (y * d.width + x) % d.width = x :=
        (Nat.div_mod_unique hd.width_pos).mpr ⟨by rw [Nat.mul_comm]; omega, hlt⟩
      have hput : putChar d blank ⟨x, y⟩ = [cell d.width blank (y * d.width + x)] := by
        rw [putChar, toU32_natCast (by omega), toU32_natCast (by omega), if_neg (by omega), cell, hu.1, hu.2]
      have hrest := ih (x := x + 1) hlt (by omega)
      rw [Nat.cast_add, Nat.cast_one] at hrest
      rw [if_pos hlt, hrest, hput, hk, List.replicate_succ, drawn_cons, show d.width - (x + 1) = k by omega]
      rfl
    · rw [if_neg hlt, show d.width - x = 0 by omega]
      rfl

/-- **A line break** fills the row. -/
theorem drawByte_break (hd : d.Valid) (hp : p < d.width * d.height) :
    drawByte d buffer newline (cursorAt d.width p) =
      some (drawn d.width p (List.replicate (d.width - p % d.width) blank),
        cursorAt d.width (p + (d.width - p % d.width))) := by
  obtain ⟨hx, hy⟩ := mod_lt_div_lt hd hp
  obtain ⟨hm, hdiv⟩ := add_sub_mod (p := p) hd.width_pos
  have hrow := padRow_eq hd hy hx.le (f := d.width + 1) (by omega)
  have hp' : p / d.width * d.width + p % d.width = p := Nat.div_add_mod' p d.width
  rw [hp'] at hrow
  rw [drawByte, if_neg (by decide), if_pos rfl, cursorAt, hrow, cursorAt, hm, hdiv, Nat.cast_add]
  rfl

/-- **A byte of the text** draws its cells. -/
theorem drawByte_eq (hd : d.Valid) (hp : p < d.width * d.height) (h₀ : c ≠ 0) :
    drawByte d buffer c (cursorAt d.width p) = some (drawn d.width p (cells newline blank d.width p [c]),
      cursorAt d.width (p + (cells newline blank d.width p [c]).length)) := by
  by_cases hc : c = newline
  · rw [hc, drawByte_break hd hp, cells_cons_break, cells_nil, List.append_nil, List.length_replicate]
  · rw [drawByte, if_neg h₀, if_neg hc, advance_cursorAt hd hp, cells_cons hc]
    rfl

/-! ## The loops -/

theorem cursorAt_y_lt_iff (hd : d.Valid) (hp : p ≤ d.width * d.height) :
    toU64 (cursorAt d.width p).y < d.height ↔ p < d.width * d.height := by
  have hw := hd.width_pos
  have hh := hd.height_le
  have hle : p / d.width ≤ d.height := by
    rw [← Nat.mul_div_cancel_left d.height hw]
    exact Nat.div_le_div_right hp
  have hy : toU64 (cursorAt d.width p).y = p / d.width := toU64_natCast (by omega)
  rw [hy, Nat.div_lt_iff_lt_mul hw, Nat.mul_comm]

theorem length_cells_singleton_le (hd : d.Valid) (hp : p < d.width * d.height) :
    p + (cells newline blank d.width p [c]).length ≤ d.width * d.height := by
  by_cases hc : c = newline
  · obtain ⟨hx, hy⟩ := mod_lt_div_lt hd hp
    have hdiv := Nat.div_add_mod p d.width
    rw [hc, cells_cons_break, cells_nil, List.append_nil, List.length_replicate]
    calc p + (d.width - p % d.width) = d.width * (p / d.width + 1) := by
          rw [Nat.mul_add, Nat.mul_one]
          omega
      _ ≤ d.width * d.height := Nat.mul_le_mul_left _ hy
  · rw [cells_cons hc]
    exact hp

theorem drawLoop_succ {stop : ℕ} {cur cur' : Cursor} {ds : List Draw} {x : List Draw × Cursor}
    (hi : i < stop) (hy : toU64 cur.y < d.height) (hc : buffer[i]? = some c)
    (hbyte : drawByte d buffer c cur = some (ds, cur'))
    (hrest : drawLoop d buffer stop f (i + 1) cur' = some x) :
    drawLoop d buffer stop (f + 1) i cur = some (ds ++ x.1, x.2) := by
  rw [drawLoop, if_pos hi, if_neg (Nat.not_le.mpr hy), hc]
  simp only [Option.bind_eq_bind, Option.bind_some, hbyte, hrest]
  rfl

/-- **The text is drawn cell by cell** until it ends or the grid is full. -/
theorem drawLoop_eq (hd : d.Valid) (h₀ : 0 ∉ t) (hp : p ≤ d.width * d.height)
    (hb : ∀ k (hk : k < t.length), buffer[i + k]? = some t[k]) (hf : t.length < f) :
    drawLoop d buffer (i + t.length) f i (cursorAt d.width p) =
      some (drawn d.width p ((cells newline blank d.width p t).take (d.width * d.height - p)),
        cursorAt d.width (min (p + (cells newline blank d.width p t).length) (d.width * d.height))) := by
  induction t generalizing i p f with
  | nil =>
    obtain ⟨f, rfl⟩ := Nat.exists_eq_succ_of_ne_zero (Nat.ne_of_gt hf)
    rw [drawLoop, if_neg (by simp), cells_nil, List.take_nil, List.length_nil, Nat.add_zero,
      Nat.min_eq_left hp]
    rfl
  | cons c t ih =>
    obtain ⟨f, rfl⟩ := Nat.exists_eq_succ_of_ne_zero (Nat.ne_of_gt (Nat.zero_lt_of_lt hf))
    rw [List.length_cons] at hf
    rw [List.mem_cons, not_or] at h₀
    by_cases hfull : p < d.width * d.height
    · have hb' : ∀ k (hk : k < t.length), buffer[i + 1 + k]? = some t[k] := fun k hk => by
        rw [Nat.add_assoc, Nat.add_comm 1]
        exact hb (k + 1) (Nat.succ_lt_succ hk)
      have hstop : i + (c :: t).length = i + 1 + t.length := by
        rw [List.length_cons]
        omega
      have hle := length_cells_singleton_le (c := c) hd hfull
      have hrest := ih h₀.2 hle hb' (Nat.lt_of_succ_lt_succ hf)
      have hsplit : cells newline blank d.width p (c :: t) = cells newline blank d.width p [c] ++
          cells newline blank d.width (p + (cells newline blank d.width p [c]).length) t := by
        rw [← cells_append, List.singleton_append]
      have hget : buffer[i]? = some c := hb 0 (Nat.zero_lt_succ _)
      rw [hstop]
      refine (drawLoop_succ (by omega) ((cursorAt_y_lt_iff hd hp).mpr hfull) hget
        (drawByte_eq hd hfull (Ne.symm h₀.1)) hrest).trans ?_
      have hall : (cells newline blank d.width p [c]).take (d.width * d.height - p) =
          cells newline blank d.width p [c] := List.take_of_length_le (by omega)
      rw [hsplit, List.take_append, hall, drawn_append, Nat.sub_sub, List.length_append, Nat.add_assoc]
    · have hfull' : p = d.width * d.height := by omega
      have hy := mt (cursorAt_y_lt_iff hd hp).mp hfull
      rw [drawLoop, if_pos (by simp), if_pos (Nat.not_lt.mp hy), hfull', Nat.sub_self, List.take_zero,
        Nat.min_eq_right (Nat.le_add_right _ _)]
      rfl

/-- **The rest of the grid is blank.** -/
theorem fillLoop_eq (buffer : List UInt8) (hd : d.Valid) (hp : p ≤ d.width * d.height) (hf : d.width * d.height - p < f) :
    fillLoop d buffer f (cursorAt d.width p) =
      some (drawn d.width p (List.replicate (d.width * d.height - p) blank)) := by
  induction f generalizing p with
  | zero => omega
  | succ f ih =>
    rw [fillLoop]
    by_cases hfull : p < d.width * d.height
    · obtain ⟨k, hk⟩ : ∃ k, d.width * d.height - p = k + 1 := Nat.exists_eq_succ_of_ne_zero (by omega)
      have hrest := ih (p := p + 1) hfull (by omega)
      rw [if_pos ((cursorAt_y_lt_iff hd hp).mpr hfull), advance_cursorAt hd hfull, hk, List.replicate_succ,
        drawn_cons, show k = d.width * d.height - (p + 1) by omega]
      simp only [Option.bind_eq_bind, Option.bind_some, hrest]
      rfl
    · rw [if_neg (mt (cursorAt_y_lt_iff hd hp).mp hfull), show d.width * d.height - p = 0 by omega]
      rfl

/-- **The text from `start` on fills the grid.** -/
theorem drawFrom_eq (hd : d.Valid) {start : ℕ} (hs : start ≤ s.bufferEnd) (he : s.bufferEnd ≤ s.buffer.length)
    (hl : s.buffer.length = bufferSize) (h₀ : 0 ∉ (s.buffer.take s.bufferEnd).drop start) :
    drawFrom d s start = some (drawn d.width 0
      (grid newline blank d.width d.height ((s.buffer.take s.bufferEnd).drop start))) := by
  have hlen : ((s.buffer.take s.bufferEnd).drop start).length = s.bufferEnd - start := by
    rw [List.length_drop, List.length_take_of_le he]
  have hget : ∀ k (hk : k < ((s.buffer.take s.bufferEnd).drop start).length),
      s.buffer[start + k]? = some ((s.buffer.take s.bufferEnd).drop start)[k] := fun k hk => by
    rw [List.getElem_drop, List.getElem_take, List.getElem?_eq_getElem]
  generalize (s.buffer.take s.bufferEnd).drop start = t at h₀ hlen hget ⊢
  -- the loop stops where no more characters can have a cell
  have hstop : min s.bufferEnd (start + d.width * d.height) =
      start + (t.take (d.width * d.height)).length := by
    rw [List.length_take]
    omega
  have hzero : cursorAt d.width 0 = ⟨0, 0⟩ := by simp [cursorAt]
  have hget' : ∀ k (hk : k < (t.take (d.width * d.height)).length),
      s.buffer[start + k]? = some (t.take (d.width * d.height))[k] := fun k hk => by
    rw [List.getElem_take]
    exact hget k _
  have hdraw := drawLoop_eq (p := 0) (f := bufferSize + 1) hd (fun hm => h₀ (List.mem_of_mem_take hm))
    (Nat.zero_le _) hget' (by rw [List.length_take]; omega)
  rw [Nat.zero_add, Nat.sub_zero, ← hstop, hzero] at hdraw
  rw [← grid_take hd.width_pos, grid_eq hd.width_pos, drawFrom]
  generalize cells newline blank d.width 0 (t.take (d.width * d.height)) = l at hdraw ⊢
  have hfill := fillLoop_eq s.buffer (f := d.width * d.height + 1) (p := min l.length (d.width * d.height)) hd
    (Nat.min_le_right _ _) (by omega)
  rw [hdraw]
  simp only [Option.bind_eq_bind, Option.bind_some, hfill]
  rw [drawn_append, Nat.zero_add, List.length_take, Nat.min_comm,
    show d.width * d.height - min (d.width * d.height) l.length = d.width * d.height - l.length by omega]
  rfl

/-! ## The whole of `screen_flush` -/

/-- **The line the console is scrolled to**, or too few lines. -/
theorem findStart_eq {u : List UInt8} (ht : s.buffer.take s.bufferEnd = u ++ t)
    (he : s.bufferEnd ≤ s.buffer.length) (hu : u.count newline < s.scroll) (hf : t.length < f) :
    (findStart s f u.length (u.count newline) = some none ∧ (u ++ t).count newline < s.scroll) ∨
      ∃ v r, t = v ++ r ∧ (u ++ v).count newline = s.scroll ∧ v.getLast? = some newline ∧
        findStart s f u.length (u.count newline) = some (some (u.length + v.length)) := by
  have hend : s.bufferEnd = u.length + t.length := by
    rw [← List.length_append, ← ht, List.length_take_of_le he]
  induction t generalizing u f with
  | nil =>
    obtain ⟨f, rfl⟩ := Nat.exists_eq_succ_of_ne_zero (Nat.ne_of_gt hf)
    refine .inl ⟨?_, by simpa using hu⟩
    rw [findStart, if_neg (by simp [hend])]
    rfl
  | cons c t ih =>
    obtain ⟨f, rfl⟩ := Nat.exists_eq_succ_of_ne_zero (Nat.ne_of_gt (Nat.zero_lt_of_lt hf))
    have hlt : u.length < s.bufferEnd := by simp [hend]
    have hget : s.buffer[u.length]? = some c := by
      rw [← List.getElem?_take_of_lt hlt, ht]
      simp
    have hstep : findStart s (f + 1) u.length (u.count newline) =
        if c = newline then
          if s.scroll ≤ u.count newline + 1 then some (some (u.length + 1))
          else findStart s f (u.length + 1) (u.count newline + 1)
        else findStart s f (u.length + 1) (u.count newline) := by
      rw [findStart, if_pos hlt, hget]
      rfl
    rw [hstep]
    by_cases hlast : c = newline ∧ s.scroll ≤ u.count newline + 1
    · refine .inr ⟨[c], t, rfl, ?_, by rw [hlast.1]; rfl, ?_⟩
      · rw [List.count_append, hlast.1, List.count_singleton_self]
        omega
      · rw [if_pos hlast.1, if_pos hlast.2]
        rfl
    · -- the search goes on behind `c`
      have hcount : (u ++ [c]).count newline = if c = newline then u.count newline + 1 else u.count newline := by
        by_cases hc : c = newline
        · rw [if_pos hc, hc, List.count_append, List.count_singleton_self]
        · rw [if_neg hc, List.count_append, List.count_singleton, if_neg (by simpa using hc), Nat.add_zero]
      have hless : (u ++ [c]).count newline < s.scroll := by
        rw [hcount]
        split_ifs with hc
        · exact Nat.lt_of_not_le fun h => hlast ⟨hc, h⟩
        · exact hu
      have hsame : (if c = newline then
            if s.scroll ≤ u.count newline + 1 then some (some (u.length + 1))
            else findStart s f (u.length + 1) (u.count newline + 1)
          else findStart s f (u.length + 1) (u.count newline)) =
          findStart s f (u ++ [c]).length ((u ++ [c]).count newline) := by
        rw [hcount, List.length_append, List.length_singleton]
        split_ifs with hc hle
        · exact absurd ⟨hc, hle⟩ hlast
        · rfl
        · rfl
      rw [hsame]
      rcases ih (by simpa using ht) hless (Nat.lt_of_succ_lt_succ hf) (by simp [hend]; omega) with
        ⟨hnone, hfew⟩ | ⟨v, r, rfl, hv, hvl, hstart⟩
      · exact .inl ⟨hnone, by simpa using hfew⟩
      · refine .inr ⟨c :: v, r, rfl, by simpa using hv, by rw [List.getLast?_cons, hvl]; rfl, ?_⟩
        rw [hstart]
        simp
        omega

/-- **What a redraw draws.** With too few lines in the buffer, or when nothing of it is left, the whole
framebuffer is black. Otherwise every cell of the grid is drawn once, row by row: the text `r` behind the
`scroll`-th line break, in its wrapped layout. -/
def Redrawn (d : Display) (s : Console) (ds : List Draw) : Prop :=
  (0 < s.scroll ∧ (s.buffer.take s.bufferEnd).count newline < s.scroll ∧ ds = blackout d) ∨
    ∃ v r, s.buffer.take s.bufferEnd = v ++ r ∧ v.count newline = s.scroll ∧
      (v = [] ∨ v.getLast? = some newline) ∧ ds =
        if 0 < s.scroll ∧ bufferSize ≤ v.length then blackout d
        else (List.range (d.width * d.height)).map fun k =>
          .char ((grid newline blank d.width d.height r).getD k blank) (k % d.width) (k / d.width)

theorem drawn_eq_range : drawn w 0 l =
    (List.range l.length).map fun k => .char (l.getD k blank) (k % w) (k / w) := by
  refine List.ext_getElem (by simp [drawn]) fun k hk _ => ?_
  have hk' : k < l.length := by simpa [drawn] using hk
  simp [drawn, cell, hk']

/-- A console whose text is inside the buffer and has no zero. -/
structure Console.Valid (s : Console) : Prop where
  length_buffer : s.buffer.length = bufferSize
  bufferEnd_le : s.bufferEnd ≤ bufferSize
  zero_notMem : 0 ∉ s.buffer.take s.bufferEnd

/-- **`screen_flush`** returns, and stays inside the buffer. -/
theorem flush_drawn (hd : d.Valid) (hs : s.Valid) : ∃ ds, flush d s = some ds ∧ Redrawn d s ds := by
  have hlen := hs.length_buffer
  have hend := hs.bufferEnd_le
  have htext : (s.buffer.take s.bufferEnd).length = s.bufferEnd := List.length_take_of_le (by omega)
  have hfrom : ∀ {v r}, s.buffer.take s.bufferEnd = v ++ r → drawFrom d s v.length =
      some ((List.range (d.width * d.height)).map fun k =>
        .char ((grid newline blank d.width d.height r).getD k blank) (k % d.width) (k / d.width)) := by
    intro v r hvr
    have hv : v.length ≤ s.bufferEnd := by
      rw [← htext, hvr, List.length_append]
      omega
    have hdrop : (s.buffer.take s.bufferEnd).drop v.length = r := by rw [hvr, List.drop_left]
    have hdraw := drawFrom_eq hd hv (by omega) hlen fun hm => hs.zero_notMem (List.mem_of_mem_drop hm)
    rwa [hdrop, drawn_eq_range, length_grid hd.width_pos] at hdraw
  unfold flush
  by_cases hscroll : 0 < s.scroll
  · rw [if_pos hscroll]
    rcases findStart_eq (u := []) (f := bufferSize + 1) rfl (by omega) hscroll (by omega) with
      ⟨hnone, hfew⟩ | ⟨v, r, hvr, hv, hvl, hstart⟩
    · refine ⟨blackout d, ?_, .inl ⟨hscroll, hfew, rfl⟩⟩
      rw [List.length_nil, List.count_nil] at hnone
      rw [hnone]
      rfl
    · rw [List.length_nil, List.count_nil, Nat.zero_add] at hstart
      refine ⟨_, ?_, .inr ⟨v, r, hvr, hv, .inr hvl, rfl⟩⟩
      rw [hstart]
      by_cases hoff : bufferSize ≤ v.length
      · rw [if_pos ⟨hscroll, hoff⟩]
        simp [hoff]
      · rw [if_neg fun h => hoff h.2]
        simp [hoff, hfrom hvr]
  · rw [if_neg hscroll]
    refine ⟨_, hfrom (v := []) rfl, .inr ⟨[], _, rfl, ?_, .inl rfl, (if_neg fun h => hscroll h.1).symm⟩⟩
    rw [List.count_nil]
    omega

end Screen
