/-!
Numbers as text, in decimal and in upper-case hexadecimal with leading zeros up to a least width,
and the reader of such text. Main statement: `read?_write`, what is written reads back, at every
width.
-/

namespace Chip8.Numeral

def digitChars : List Char :=
  ['0', '1', '2', '3', '4', '5', '6', '7', '8', '9', 'A', 'B', 'C', 'D', 'E', 'F']

def digitChar (d : Nat) : Char := digitChars.getD d '?'

def digitValue? (base : Nat) (c : Char) : Option Nat := (digitChars.take base).idxOf? c

/-- The digits of a number, most significant first; zero has one digit. -/
def digits (base n : Nat) : List Nat :=
  if 2 ≤ base ∧ base ≤ n then digits base (n / base) ++ [n % base] else [n]
termination_by n
decreasing_by exact Nat.div_lt_self (by omega) (by omega)

/-- Zeros go in front of a number shorter than the width; a longer one keeps all its digits. -/
def write (base width n : Nat) : List Char :=
  List.replicate (width - (digits base n).length) '0' ++ (digits base n).map digitChar

def decimal (n : Nat) : String := String.ofList (write 10 1 n)

def hex (width n : Nat) : String := String.ofList (write 16 width n)

/-- Reads on from the value of the digits already read. -/
def readFrom? (base : Nat) : Nat → List Char → Option Nat
  | acc, [] => some acc
  | acc, c :: cs => (digitValue? base c).bind fun d => readFrom? base (base * acc + d) cs

/-- The number that a text of digits stands for; other characters and the empty text are refused. -/
def read? (base : Nat) : List Char → Option Nat
  | [] => none
  | cs => readFrom? base 0 cs

theorem digitValue?_digitChar {base d : Nat} (hb : base ≤ 16) (hd : d < base) :
    digitValue? base (digitChar d) = some d := by
  have h : ∀ b : Fin 17, ∀ d : Fin 16, d.val < b.val →
      digitValue? b.val (digitChar d.val) = some d.val := by decide
  exact h ⟨base, by omega⟩ ⟨d, by omega⟩ hd

theorem readFrom?_append (base acc : Nat) (cs ds : List Char) :
    readFrom? base acc (cs ++ ds) = (readFrom? base acc cs).bind (readFrom? base · ds) := by
  induction cs generalizing acc with
  | nil => rfl
  | cons c cs ih =>
    simp only [List.cons_append, readFrom?]
    cases digitValue? base c with
    | none => rfl
    | some d => simp [ih]

theorem readFrom?_zeros {base : Nat} (h0 : 0 < base) (hb : base ≤ 16) (k : Nat) (cs : List Char) :
    readFrom? base 0 (List.replicate k '0' ++ cs) = readFrom? base 0 cs := by
  induction k with
  | zero => rfl
  | succ k ih =>
    have h : digitValue? base '0' = some 0 := digitValue?_digitChar hb h0
    simp [List.replicate_succ, readFrom?, h, ih]

theorem readFrom?_digits {base : Nat} (h2 : 2 ≤ base) (hb : base ≤ 16) (n : Nat) :
    readFrom? base 0 ((digits base n).map digitChar) = some n := by
  rw [digits]
  split
  · rename_i h
    have hlt : n / base < n := Nat.div_lt_self (by omega) (by omega)
    rw [List.map_append, readFrom?_append, readFrom?_digits h2 hb (n / base)]
    simp [readFrom?, digitValue?_digitChar hb (Nat.mod_lt n (by omega)), Nat.div_add_mod]
  · simp [readFrom?, digitValue?_digitChar hb (show n < base by omega)]
termination_by n

theorem digits_ne_nil (base n : Nat) : digits base n ≠ [] := by
  rw [digits]
  split <;> simp

theorem write_ne_nil (base width n : Nat) : write base width n ≠ [] := by
  simp [write, digits_ne_nil]

theorem read?_eq_readFrom? {base : Nat} {cs : List Char} (h : cs ≠ []) :
    read? base cs = readFrom? base 0 cs := by
  cases cs with
  | nil => exact absurd rfl h
  | cons c cs => rfl

theorem read?_write {base : Nat} (h2 : 2 ≤ base) (hb : base ≤ 16) (width n : Nat) :
    read? base (write base width n) = some n := by
  rw [read?_eq_readFrom? (write_ne_nil base width n), write, readFrom?_zeros (by omega) hb,
    readFrom?_digits h2 hb]

end Chip8.Numeral
