import Chip8.Fault
import Chip8.Instruction

/-!
Instructions as words. `ofWord?` reads a word and `toWord` writes an instruction. Main statement:
`ofWord?_eq_some_iff`, a word decodes to an instruction exactly if the instruction's operands fit
into a word and it is written as that word.
-/

namespace Chip8

namespace Operator

def ofDigit? : Nat → Option Operator
  | 0 => some copy
  | 1 => some or
  | 2 => some and
  | 3 => some xor
  | 4 => some add
  | 5 => some sub
  | 7 => some subFrom
  | _ => none

def digit : Operator → Nat
  | copy => 0
  | or => 1
  | and => 2
  | xor => 3
  | add => 4
  | sub => 5
  | subFrom => 7

theorem ofDigit?_eq_some_iff {d : Nat} {op : Operator} : ofDigit? d = some op ↔ op.digit = d := by
  unfold ofDigit?
  split <;> cases op <;> simp_all [digit] <;> omega

theorem digit_lt (op : Operator) : op.digit < 8 := by cases op <;> decide

end Operator

namespace Instruction

/-- The two-register family, told apart by its last digit. -/
def ofPair? (x y n : Nat) : Option Instruction :=
  if n = 6 then some (shift .right x y)
  else if n = 14 then some (shift .left x y)
  else (Operator.ofDigit? n).map (combine · x y)

def ofKeyByte? (x nn : Nat) : Option Instruction :=
  if nn = 0x9E then some (skipKey true x)
  else if nn = 0xA1 then some (skipKey false x)
  else none

def ofDeviceByte? (x nn : Nat) : Option Instruction :=
  if nn = 0x07 then some (readDelay x)
  else if nn = 0x0A then some (waitKey x)
  else if nn = 0x15 then some (setDelay x)
  else if nn = 0x18 then some (setSound x)
  else if nn = 0x1E then some (addIndex x)
  else if nn = 0x29 then some (pointGlyph x)
  else if nn = 0x33 then some (storeDecimal x)
  else if nn = 0x55 then some (dump x)
  else if nn = 0x65 then some (restore x)
  else none

def ofWord? (w : Word) : Option Instruction :=
  match w.family with
  | 0x0 => some (if w = 0x00E0 then clearScreen else if w = 0x00EE then ret else sys w.nnn)
  | 0x1 => some (jump w.nnn)
  | 0x2 => some (call w.nnn)
  | 0x3 => some (skipByte .equal w.x w.nn)
  | 0x4 => some (skipByte .different w.x w.nn)
  | 0x5 => if w.n = 0 then some (skipRegister .equal w.x w.y) else none
  | 0x6 => some (setByte w.x w.nn)
  | 0x7 => some (addByte w.x w.nn)
  | 0x8 => ofPair? w.x w.y w.n
  | 0x9 => if w.n = 0 then some (skipRegister .different w.x w.y) else none
  | 0xA => some (setIndex w.nnn)
  | 0xB => some (jumpOffset w.nnn)
  | 0xC => some (random w.x w.nn)
  | 0xD => some (draw w.x w.y (UInt8.ofNat w.n))
  | 0xE => ofKeyByte? w.x w.nn.toNat
  | 0xF => ofDeviceByte? w.x w.nn.toNat
  | _ => none

/-- Reads a word as an instruction; all other words are refused. -/
def decode (w : Word) : Except Fault Instruction :=
  match ofWord? w with
  | some i => .ok i
  | none => .error (.unknownOpcode w)

def addressForm (family : Nat) (address : Word) : Nat := 4096 * family + address.toNat

def byteForm (family x : Nat) (byte : Nat) : Nat := 4096 * family + 256 * x + byte

def pairForm (family x y n : Nat) : Nat := 4096 * family + 256 * x + 16 * y + n

def code : Instruction → Nat
  | clearScreen => 0x00E0
  | ret => 0x00EE
  | sys a => addressForm 0x0 a
  | jump a => addressForm 0x1 a
  | call a => addressForm 0x2 a
  | skipByte .equal x b => byteForm 0x3 x b.toNat
  | skipByte .different x b => byteForm 0x4 x b.toNat
  | skipRegister .equal x y => pairForm 0x5 x y 0
  | setByte x b => byteForm 0x6 x b.toNat
  | addByte x b => byteForm 0x7 x b.toNat
  | combine op x y => pairForm 0x8 x y op.digit
  | shift .right x y => pairForm 0x8 x y 0x6
  | shift .left x y => pairForm 0x8 x y 0xE
  | skipRegister .different x y => pairForm 0x9 x y 0
  | setIndex a => addressForm 0xA a
  | jumpOffset a => addressForm 0xB a
  | random x m => byteForm 0xC x m.toNat
  | draw x y rows => pairForm 0xD x y rows.toNat
  | skipKey true x => byteForm 0xE x 0x9E
  | skipKey false x => byteForm 0xE x 0xA1
  | readDelay x => byteForm 0xF x 0x07
  | waitKey x => byteForm 0xF x 0x0A
  | setDelay x => byteForm 0xF x 0x15
  | setSound x => byteForm 0xF x 0x18
  | addIndex x => byteForm 0xF x 0x1E
  | pointGlyph x => byteForm 0xF x 0x29
  | storeDecimal x => byteForm 0xF x 0x33
  | dump x => byteForm 0xF x 0x55
  | restore x => byteForm 0xF x 0x65

def toWord (i : Instruction) : Word := UInt16.ofNat i.code

/-- The operands fit into a word, and the routine called is not one of the two addresses that
clear the screen and return. -/
def FitsWord : Instruction → Prop
  | clearScreen | ret => True
  | sys a => a.toNat < 4096 ∧ a ≠ 0x0E0 ∧ a ≠ 0x0EE
  | jump a | call a | setIndex a | jumpOffset a => a.toNat < 4096
  | skipByte _ x _ | setByte x _ | addByte x _ | random x _ => x < 16
  | skipRegister _ x y | combine _ x y | shift _ x y => x < 16 ∧ y < 16
  | draw x y rows => x < 16 ∧ y < 16 ∧ rows.toNat < 16
  | skipKey _ x | readDelay x | waitKey x | setDelay x | setSound x | addIndex x | pointGlyph x
  | storeDecimal x | dump x | restore x => x < 16

theorem fitsWord_and_code_of_ofPair? {x y n : Nat} {i : Instruction} (hx : x < 16) (hy : y < 16)
    (h : ofPair? x y n = some i) : i.FitsWord ∧ i.code = pairForm 0x8 x y n := by
  unfold ofPair? at h
  split at h
  · cases h; subst_vars; exact ⟨⟨hx, hy⟩, rfl⟩
  split at h
  · cases h; subst_vars; exact ⟨⟨hx, hy⟩, rfl⟩
  · obtain ⟨op, hop, rfl⟩ := Option.map_eq_some_iff.mp h
    rw [Operator.ofDigit?_eq_some_iff] at hop
    subst hop
    exact ⟨⟨hx, hy⟩, rfl⟩

theorem fitsWord_and_code_of_ofKeyByte? {x nn : Nat} {i : Instruction} (hx : x < 16)
    (h : ofKeyByte? x nn = some i) : i.FitsWord ∧ i.code = byteForm 0xE x nn := by
  unfold ofKeyByte? at h
  split at h
  · cases h; subst_vars; exact ⟨hx, rfl⟩
  split at h
  · cases h; subst_vars; exact ⟨hx, rfl⟩
  · cases h

theorem fitsWord_and_code_of_ofDeviceByte? {x nn : Nat} {i : Instruction} (hx : x < 16)
    (h : ofDeviceByte? x nn = some i) : i.FitsWord ∧ i.code = byteForm 0xF x nn := by
  unfold ofDeviceByte? at h
  repeat' split at h
  all_goals first
    | (cases h; subst_vars; exact ⟨hx, rfl⟩)
    | cases h

/-- A decoded instruction fits into a word, and that word is the one it came from. -/
theorem fitsWord_and_code_of_ofWord? {w : Word} {i : Instruction} (h : ofWord? w = some i) :
    i.FitsWord ∧ i.code = w.toNat := by
  have hx := w.x_lt
  have hy := w.y_lt
  have ha : w.nnn.toNat = w.toNat % 4096 := w.toNat_nnn
  have hb : w.nn.toNat = w.toNat % 256 := w.toNat_nn
  have hn : (UInt8.ofNat w.n).toNat = w.toNat % 16 := by
    simp only [Word.n, UInt8.toNat_ofNat']
    omega
  have hw := w.toNat_lt
  have hxv : w.x = w.toNat / 256 % 16 := rfl
  have hyv : w.y = w.toNat / 16 % 16 := rfl
  have hnv : w.n = w.toNat % 16 := rfl
  have hf : w.family = w.toNat / 4096 := rfl
  unfold ofWord? at h
  split at h
  case h_1 =>
    split at h
    · cases h; subst_vars; exact ⟨trivial, rfl⟩
    split at h
    · cases h; subst_vars; exact ⟨trivial, rfl⟩
    · rename_i h0 h1 h2
      cases h
      have e1 : w.toNat ≠ 0x0E0 := fun e => h1 (UInt16.toNat_inj.mp e)
      have e2 : w.toNat ≠ 0x0EE := fun e => h2 (UInt16.toNat_inj.mp e)
      refine ⟨⟨by omega, fun e => ?_, fun e => ?_⟩, by simp only [code, addressForm]; omega⟩
      · have := congrArg UInt16.toNat e
        simp only [UInt16.reduceToNat] at this
        omega
      · have := congrArg UInt16.toNat e
        simp only [UInt16.reduceToNat] at this
        omega
  case h_6 | h_10 =>
    split at h
    · cases h
      exact ⟨⟨hx, hy⟩, by simp only [code, pairForm]; omega⟩
    · cases h
  case h_9 =>
    obtain ⟨he, hc⟩ := fitsWord_and_code_of_ofPair? hx hy h
    exact ⟨he, by rw [hc, pairForm]; omega⟩
  case h_14 =>
    cases h
    exact ⟨⟨hx, hy, by omega⟩, by simp only [code, pairForm]; omega⟩
  case h_15 =>
    obtain ⟨he, hc⟩ := fitsWord_and_code_of_ofKeyByte? hx h
    exact ⟨he, by rw [hc, byteForm]; omega⟩
  case h_16 =>
    obtain ⟨he, hc⟩ := fitsWord_and_code_of_ofDeviceByte? hx h
    exact ⟨he, by rw [hc, byteForm]; omega⟩
  case h_17 => cases h
  case h_2 | h_3 | h_11 | h_12 =>
    cases h
    exact ⟨w.nnn_lt, by simp only [code, addressForm]; omega⟩
  all_goals
    cases h
    exact ⟨hx, by simp only [code, byteForm]; omega⟩

theorem fields_of_addressForm {w : Word} {f : Nat} {a : Word} (ha : a.toNat < 4096)
    (h : addressForm f a = w.toNat) : w.family = f ∧ w.nnn = a := by
  simp only [addressForm] at h
  refine ⟨by simp only [Word.family]; omega, UInt16.toNat_inj.mp ?_⟩
  rw [Word.toNat_nnn]
  omega

theorem fields_of_byteForm {w : Word} {f x b : Nat} (hx : x < 16) (hb : b < 256)
    (h : byteForm f x b = w.toNat) : w.family = f ∧ w.x = x ∧ w.nn.toNat = b := by
  simp only [byteForm] at h
  refine ⟨by simp only [Word.family]; omega, by simp only [Word.x]; omega, ?_⟩
  rw [Word.toNat_nn]
  omega

theorem fields_of_pairForm {w : Word} {f x y n : Nat} (hx : x < 16) (hy : y < 16) (hn : n < 16)
    (h : pairForm f x y n = w.toNat) : w.family = f ∧ w.x = x ∧ w.y = y ∧ w.n = n := by
  simp only [pairForm] at h
  simp only [Word.family, Word.x, Word.y, Word.n]
  omega

/-- The word that an instruction is written as decodes to it. -/
theorem ofWord?_of_code {w : Word} {i : Instruction} (he : i.FitsWord) (hc : i.code = w.toNat) :
    ofWord? w = some i := by
  cases i with
  | clearScreen =>
    obtain rfl : 0x00E0 = w := UInt16.toNat_inj.mp hc
    rfl
  | ret =>
    obtain rfl : 0x00EE = w := UInt16.toNat_inj.mp hc
    rfl
  | sys a =>
    obtain ⟨ha, h1, h2⟩ := he
    obtain ⟨hf, hn⟩ := fields_of_addressForm ha hc
    obtain rfl : a = w := UInt16.toNat_inj.mp (by simp only [code, addressForm] at hc; omega)
    simp [ofWord?, hf, hn, h1, h2]
  | jump a | call a | setIndex a | jumpOffset a =>
    obtain ⟨hf, hn⟩ := fields_of_addressForm he hc
    simp [ofWord?, hf, hn]
  | skipByte test x b =>
    cases test <;>
    · obtain ⟨hf, hx, hb⟩ := fields_of_byteForm he b.toNat_lt hc
      simp [ofWord?, hf, hx, UInt8.toNat_inj.mp hb]
  | setByte x b | addByte x b | random x b =>
    obtain ⟨hf, hx, hb⟩ := fields_of_byteForm he b.toNat_lt hc
    simp [ofWord?, hf, hx, UInt8.toNat_inj.mp hb]
  | skipRegister test x y =>
    cases test <;>
    · obtain ⟨hf, hx, hy, hn⟩ := fields_of_pairForm he.1 he.2 (by decide) hc
      simp [ofWord?, hf, hx, hy, hn]
  | combine op x y =>
    have hd := op.digit_lt
    obtain ⟨hf, hx, hy, hn⟩ := fields_of_pairForm he.1 he.2 (by omega) hc
    have h6 : op.digit ≠ 6 := by cases op <;> decide
    have h14 : op.digit ≠ 14 := by omega
    simp [ofWord?, ofPair?, hf, hx, hy, hn, h6, h14, Operator.ofDigit?_eq_some_iff]
  | shift direction x y =>
    cases direction <;>
    · obtain ⟨hf, hx, hy, hn⟩ := fields_of_pairForm he.1 he.2 (by decide) hc
      simp [ofWord?, ofPair?, hf, hx, hy, hn]
  | draw x y rows =>
    obtain ⟨hf, hx, hy, hn⟩ := fields_of_pairForm he.1 he.2.1 he.2.2 hc
    simp [ofWord?, hf, hx, hy, hn]
  | skipKey held x =>
    cases held <;>
    · obtain ⟨hf, hx, hb⟩ := fields_of_byteForm he (by decide) hc
      simp [ofWord?, ofKeyByte?, hf, hx, hb]
  | readDelay x | waitKey x | setDelay x | setSound x | addIndex x | pointGlyph x
  | storeDecimal x | dump x | restore x =>
    obtain ⟨hf, hx, hb⟩ := fields_of_byteForm he (by decide) hc
    simp [ofWord?, ofDeviceByte?, hf, hx, hb]

theorem code_lt {i : Instruction} (h : i.FitsWord) : i.code < 65536 := by
  cases i with
  | clearScreen | ret => decide
  | sys a =>
    have := h.1
    simp only [code, addressForm]
    omega
  | jump a | call a | setIndex a | jumpOffset a =>
    simp only [FitsWord] at h
    simp only [code, addressForm]
    omega
  | skipByte test x b =>
    have := b.toNat_lt
    simp only [FitsWord] at h
    cases test <;> simp only [code, byteForm] <;> omega
  | setByte x b | addByte x b | random x b =>
    have := b.toNat_lt
    simp only [FitsWord] at h
    simp only [code, byteForm]
    omega
  | skipRegister test x y =>
    simp only [FitsWord] at h
    cases test <;> simp only [code, pairForm] <;> omega
  | combine op x y =>
    have := op.digit_lt
    simp only [FitsWord] at h
    simp only [code, pairForm]
    omega
  | shift direction x y =>
    simp only [FitsWord] at h
    cases direction <;> simp only [code, pairForm] <;> omega
  | draw x y rows =>
    simp only [FitsWord] at h
    simp only [code, pairForm]
    omega
  | skipKey held x =>
    simp only [FitsWord] at h
    cases held <;> simp only [code, byteForm] <;> omega
  | readDelay x | waitKey x | setDelay x | setSound x | addIndex x | pointGlyph x
  | storeDecimal x | dump x | restore x =>
    simp only [FitsWord] at h
    simp only [code, byteForm]
    omega

theorem toNat_toWord {i : Instruction} (h : i.FitsWord) : i.toWord.toNat = i.code := by
  have := code_lt h
  simp only [toWord, UInt16.toNat_ofNat']
  omega

theorem ofWord?_eq_some_iff {w : Word} {i : Instruction} :
    ofWord? w = some i ↔ i.FitsWord ∧ i.toWord = w := by
  constructor
  · intro h
    obtain ⟨he, hc⟩ := fitsWord_and_code_of_ofWord? h
    exact ⟨he, UInt16.toNat_inj.mp (by rw [toNat_toWord he, hc])⟩
  · rintro ⟨he, rfl⟩
    exact ofWord?_of_code he (toNat_toWord he).symm

theorem decode_eq_ok_iff {w : Word} {i : Instruction} :
    decode w = .ok i ↔ i.FitsWord ∧ i.toWord = w := by
  rw [← ofWord?_eq_some_iff, decode]
  cases ofWord? w <;> simp

theorem decode_of_code {w : Word} {i : Instruction} (he : i.FitsWord) (hc : i.code = w.toNat) :
    decode w = .ok i := by
  rw [decode, ofWord?_of_code he hc]

theorem decode_eq_error_iff {w : Word} {fault : Fault} :
    decode w = .error fault ↔ (∀ i, decode w ≠ .ok i) ∧ fault = .unknownOpcode w := by
  rw [decode]
  cases ofWord? w <;> simp [eq_comm]

theorem decode_eq_ok_ret_iff {w : Word} : decode w = .ok ret ↔ w = 0x00EE := by
  rw [decode_eq_ok_iff]
  constructor
  · rintro ⟨-, rfl⟩
    rfl
  · rintro rfl
    exact ⟨trivial, rfl⟩

theorem exists_decode_eq_ok_call_iff {w : Word} :
    (∃ a, decode w = .ok (call a)) ↔ w.toNat / 4096 = 2 := by
  constructor
  · rintro ⟨a, h⟩
    obtain ⟨ha, rfl⟩ := decode_eq_ok_iff.mp h
    rw [toNat_toWord ha]
    have : a.toNat < 4096 := ha
    simp only [code, addressForm]
    omega
  · intro h
    have hf : w.family = 2 := h
    exact ⟨w.nnn, by simp [decode, ofWord?, hf]⟩

theorem decode_eq_ok_waitKey_iff {w : Word} {x : Nat} :
    decode w = .ok (waitKey x) ↔ x < 16 ∧ w.toNat = 0xF00A + 256 * x := by
  rw [decode_eq_ok_iff]
  refine and_congr_right fun hx => ?_
  have hx : FitsWord (waitKey x) := hx
  rw [← UInt16.toNat_inj, toNat_toWord hx]
  simp only [code, byteForm]
  omega

end Instruction

end Chip8
