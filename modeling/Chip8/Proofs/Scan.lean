import Chip8.Numeral

/-!
Numbers read out of a longer text. A number ends before the first character that is no digit, so
that it may be longer than the width it was written to. Main statement: `scan?_write`.
-/

namespace Chip8.Numeral

def isDigit (base : Nat) (c : Char) : Bool := (digitValue? base c).isSome

def scan? (base : Nat) (cs : List Char) : Option (Nat × List Char) :=
  (read? base (cs.takeWhile (isDigit base))).map fun n => (n, cs.dropWhile (isDigit base))

variable {base width n d : Nat} {cs rest : List Char} {c : Char}

theorem lt_of_mem_digits (h2 : 2 ≤ base) (hd : d ∈ digits base n) : d < base := by
  fun_induction digits base n with
  | case1 n h ih =>
    rcases List.mem_append.mp hd with hd | hd
    · exact ih hd
    · rw [List.mem_singleton.mp hd]
      exact Nat.mod_lt n (by omega)
  | case2 n h =>
    rw [List.mem_singleton.mp hd]
    omega

theorem isDigit_of_mem_write (h2 : 2 ≤ base) (hb : base ≤ 16) (hc : c ∈ write base width n) :
    isDigit base c = true := by
  have hchar : ∀ d < base, isDigit base (digitChar d) = true := by
    intro d hd
    rw [isDigit, digitValue?_digitChar hb hd]
    rfl
  rcases List.mem_append.mp hc with hc | hc
  · rw [(List.mem_replicate.mp hc).2]
    exact hchar 0 (by omega)
  · obtain ⟨d, hd, rfl⟩ := List.mem_map.mp hc
    exact hchar d (lt_of_mem_digits h2 hd)

/-- A number that is written before a text is scanned off it, unless the text goes on with a
digit. -/
theorem scan?_write (h2 : 2 ≤ base) (hb : base ≤ 16) (width n : Nat)
    (hrest : ∀ c ∈ rest.head?, isDigit base c = false) :
    scan? base (write base width n ++ rest) = some (n, rest) := by
  have hdigits : ∀ c ∈ write base width n, isDigit base c = true :=
    fun c => isDigit_of_mem_write h2 hb
  have hstop : rest.takeWhile (isDigit base) = [] ∧ rest.dropWhile (isDigit base) = rest := by
    cases rest with
    | nil => exact ⟨rfl, rfl⟩
    | cons c cs => simp [hrest c rfl]
  rw [scan?, List.takeWhile_append_of_pos hdigits, List.dropWhile_append_of_pos hdigits, hstop.1,
    hstop.2, List.append_nil, read?_write h2 hb]
  rfl

theorem scan?_write_cons (h2 : 2 ≤ base) (hb : base ≤ 16) (width n : Nat)
    (hc : isDigit base c = false) :
    scan? base (write base width n ++ c :: rest) = some (n, c :: rest) :=
  scan?_write h2 hb width n fun _ h => Option.mem_some.mp h ▸ hc

theorem length_lt_of_scan? (h : scan? base cs = some (n, rest)) : rest.length < cs.length := by
  obtain ⟨k, hk, heq⟩ := Option.map_eq_some_iff.mp h
  obtain ⟨rfl, rfl⟩ := Prod.mk.inj heq
  have hne : cs.takeWhile (isDigit base) ≠ [] := by
    intro hnil
    rw [hnil] at hk
    cases hk
  have hlength :=
    congrArg List.length (List.takeWhile_append_dropWhile (p := isDigit base) (l := cs))
  rw [List.length_append] at hlength
  have hpos := List.length_pos_iff.mpr hne
  omega

end Chip8.Numeral
