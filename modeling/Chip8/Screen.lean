import Chip8.Word

/-!
The screen: 64 by 32 pixels, wrapping round at its edges. A sprite is a list of bytes, one for
each row, and drawing it toggles the pixels under its set bits. Main statement: `get_plot`, a pixel
ends up toggled once for each time it is covered.
-/

namespace Chip8

structure Screen where
  rows : Vector (Vector Bool 64) 32
deriving DecidableEq, Repr

namespace Screen

/-- The place of a pixel: column and row, counted from the top left. -/
abbrev Cell := Fin 64 × Fin 32

/-- Columns and rows beyond the edges count on from the other side. -/
def cellAt (x y : Nat) : Cell :=
  (⟨x % 64, Nat.mod_lt _ (by decide)⟩, ⟨y % 32, Nat.mod_lt _ (by decide)⟩)

def blank : Screen := ⟨Vector.replicate 32 (Vector.replicate 64 false)⟩

def get (s : Screen) (c : Cell) : Bool := s.rows[c.2][c.1]

def pixel (s : Screen) (x y : Nat) : Bool := s.get (cellAt x y)

def isBlank (s : Screen) : Bool := s.rows.all fun row => row.all (!·)

def toggle (s : Screen) (c : Cell) : Screen :=
  ⟨s.rows.set c.2.val (s.rows[c.2].set c.1.val (!s.get c) c.1.isLt) c.2.isLt⟩

/-- The cells under the set bits of one sprite row, the most significant bit at column `x`. -/
def rowCells (x y : Nat) (bits : Byte) : List Cell :=
  ((List.range 8).filter fun k => bits.toNat.testBit (7 - k)).map fun k => cellAt (x + k) y

def spriteCells (x y : Nat) : List Byte → List Cell
  | [] => []
  | bits :: rest => rowCells x y bits ++ spriteCells x (y + 1) rest

/-- Toggles the cells in turn and says whether one of them was lit when its turn came. -/
def plot (s : Screen) : List Cell → Screen × Bool
  | [] => (s, false)
  | c :: cs =>
    let (drawn, hit) := (s.toggle c).plot cs
    (drawn, s.get c || hit)

/-- Draws a sprite; the flag is the collision, a lit pixel turned off. -/
def draw (s : Screen) (x y : Byte) (sprite : List Byte) : Screen × Bool :=
  s.plot (spriteCells x.toNat y.toNat sprite)

theorem ext_get {s t : Screen} (h : ∀ c, s.get c = t.get c) : s = t := by
  obtain ⟨v⟩ := s
  obtain ⟨w⟩ := t
  congr 1
  apply Vector.ext
  intro y hy
  apply Vector.ext
  intro x hx
  exact h (⟨x, hx⟩, ⟨y, hy⟩)

theorem get_toggle (s : Screen) (c d : Cell) :
    (s.toggle c).get d = if c = d then !s.get c else s.get d := by
  simp only [toggle, get, Fin.getElem_fin, Vector.getElem_set, Prod.ext_iff, Fin.ext_iff]
  by_cases hy : c.2.val = d.2.val
  · by_cases hx : c.1.val = d.1.val <;> simp [hx, hy]
  · simp [hy]

theorem get_plot (s : Screen) (cs : List Cell) (d : Cell) :
    (s.plot cs).1.get d = if cs.count d % 2 = 1 then !s.get d else s.get d := by
  induction cs generalizing s with
  | nil => simp [plot]
  | cons c cs ih =>
    simp only [plot, ih, get_toggle, List.count_cons]
    by_cases h : c = d
    · subst h
      rcases Nat.mod_two_eq_zero_or_one (cs.count c) with h2 | h2
      · simp [h2, Nat.add_mod]
      · simp [h2, Nat.add_mod]
    · simp [h]

theorem get_blank (c : Cell) : blank.get c = false := by simp [get, blank]

theorem isBlank_iff (s : Screen) : s.isBlank = true ↔ ∀ c, s.get c = false := by
  constructor
  · intro h c
    simp only [isBlank, Vector.all_eq_true] at h
    simpa [get] using h c.2.val c.2.isLt c.1.val c.1.isLt
  · intro h
    simp only [isBlank, Vector.all_eq_true]
    intro y hy x hx
    simpa [get] using h (⟨x, hx⟩, ⟨y, hy⟩)

end Screen

end Chip8
