import Chip8.Screen

/-!
The picture of a screen: 32 lines of 64 characters, each ended by a newline, and the reader of
such a picture. Main statement: `ofText_text`, the picture shows every pixel.
-/

namespace Chip8.Screen

def litChar : Char := '█'

def darkChar : Char := '░'

def pixelChar (lit : Bool) : Char := if lit then litChar else darkChar

def line (row : Vector Bool 64) : List Char := row.toList.map pixelChar ++ ['\n']

def text (s : Screen) : List Char := s.rows.toList.flatMap line

def render (s : Screen) : String := String.ofList s.text

def record (s : Screen) : String := String.join ["Framebuffer \x7b\n", s.render, "\x7d"]

/-- Reads a picture: the character of column `x` and row `y` is number `65 * y + x`. -/
def ofText (cs : List Char) : Screen :=
  ⟨Vector.ofFn fun y => Vector.ofFn fun x => cs[65 * y.val + x.val]? == some litChar⟩

theorem pixelChar_beq (lit : Bool) : (some (pixelChar lit) == some litChar) = lit := by
  cases lit <;> rfl

theorem length_line (row : Vector Bool 64) : (line row).length = 65 := by simp [line]

theorem getElem?_flatMap_line (rows : List (Vector Bool 64)) (y k : Nat) (hk : k < 65) :
    (rows.flatMap line)[65 * y + k]? = rows[y]?.bind fun row => (line row)[k]? := by
  induction rows generalizing y with
  | nil => simp
  | cons row rows ih =>
    cases y with
    | zero => simp [List.getElem?_append, length_line, hk]
    | succ y =>
      have h : ¬ 65 * (y + 1) + k < 65 := by omega
      have h' : 65 * (y + 1) + k - 65 = 65 * y + k := by omega
      simp [List.getElem?_append, length_line, h, h', ih]

theorem getElem?_text (s : Screen) (c : Cell) :
    s.text[65 * c.2.val + c.1.val]? = some (pixelChar (s.get c)) := by
  have hx := c.1.isLt
  rw [text, getElem?_flatMap_line _ _ _ (by omega)]
  simp [line, get, List.getElem?_append, hx]

theorem ofText_text (s : Screen) : ofText s.text = s := by
  apply ext_get
  intro c
  have h : (ofText s.text).get c =
      (s.text[65 * c.2.val + c.1.val]? == some litChar) := by
    simp [ofText, get]
  rw [h, getElem?_text, pixelChar_beq]

end Chip8.Screen
