import Chip8.Word

/-!
The hexadecimal font: sixteen glyphs of five rows each, kept in memory from cell 0x50 on. A row is
a byte whose high half holds the four pixels.
-/

namespace Chip8.Font

def start : Nat := 0x50

def glyphHeight : Nat := 5

def rows : Vector Byte 80 := #v[
  0xF0, 0x90, 0x90, 0x90, 0xF0,
  0x20, 0x60, 0x20, 0x20, 0x70,
  0xF0, 0x10, 0xF0, 0x80, 0xF0,
  0xF0, 0x10, 0xF0, 0x10, 0xF0,
  0x90, 0x90, 0xF0, 0x10, 0x10,
  0xF0, 0x80, 0xF0, 0x10, 0xF0,
  0xF0, 0x80, 0xF0, 0x90, 0xF0,
  0xF0, 0x10, 0x20, 0x40, 0x40,
  0xF0, 0x90, 0xF0, 0x90, 0xF0,
  0xF0, 0x90, 0xF0, 0x10, 0xF0,
  0xF0, 0x90, 0xF0, 0x90, 0x90,
  0xE0, 0x90, 0xE0, 0x90, 0xE0,
  0xF0, 0x80, 0x80, 0x80, 0xF0,
  0xE0, 0x90, 0x90, 0x90, 0xE0,
  0xF0, 0x80, 0xF0, 0x80, 0xF0,
  0xF0, 0x80, 0xF0, 0x80, 0x80]

def Covers (cell : Nat) : Prop := start ≤ cell ∧ cell < start + 80

instance (cell : Nat) : Decidable (Covers cell) := inferInstanceAs (Decidable (_ ∧ _))

def byteAt (cell : Nat) : Byte := if start ≤ cell then rows[cell - start]?.getD 0 else 0

def glyphAddress (digit : Nat) : Word := UInt16.ofNat (start + glyphHeight * digit)

def glyph (digit : Nat) : List Byte := (rows.toList.drop (glyphHeight * digit)).take glyphHeight

theorem toNat_glyphAddress {d : Nat} (h : d < 16) :
    (glyphAddress d).toNat = start + glyphHeight * d := by
  simp only [glyphAddress, start, glyphHeight, UInt16.toNat_ofNat']
  omega

end Chip8.Font
