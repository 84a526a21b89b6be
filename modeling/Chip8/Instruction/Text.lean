import Chip8.Instruction
import Chip8.Numeral

/-!
Instructions as text: a name and the operands in decimal, as in `SkipIfEqualByte(3, 255)`.
`ofParts?` goes back from the name and the operands.
-/

namespace Chip8.Instruction

def name : Instruction → String
  | clearScreen => "ClearScreen"
  | ret => "ReturnFromSubroutine"
  | sys _ => "SystemCall"
  | jump _ => "Jump"
  | call _ => "Call"
  | skipByte .equal _ _ => "SkipIfEqualByte"
  | skipByte .different _ _ => "SkipIfNotEqualByte"
  | skipRegister .equal _ _ => "SkipIfRegistersEqual"
  | skipRegister .different _ _ => "SkipIfRegistersNotEqual"
  | setByte _ _ => "SetRegisterToValue"
  | addByte _ _ => "AddToRegister"
  | combine .copy _ _ => "SetRegisterToRegisterValue"
  | combine .or _ _ => "RegistersBitwiseOr"
  | combine .and _ _ => "RegistersBitwiseAnd"
  | combine .xor _ _ => "RegistersBitwiseXor"
  | combine .add _ _ => "RegistersSumWithOverflow"
  | combine .sub _ _ => "SubtractRegisterFromRegisterValue"
  | combine .subFrom _ _ => "SubtractRegisterValueFromRegister"
  | shift .right _ _ => "ShiftRegisterBitsRight"
  | shift .left _ _ => "ShiftRegisterBitsLeft"
  | setIndex _ => "SetIndexRegisterToValue"
  | jumpOffset _ => "JumpByValue"
  | random _ _ => "SetRegisterToRandAndValue"
  | draw _ _ _ => "DrawSprite"
  | skipKey true _ => "SkipIfKeyPressed"
  | skipKey false _ => "SkipIfKeyNotPressed"
  | readDelay _ => "SetRegisterToDelayTimerValue"
  | waitKey _ => "WaitForKeyPress"
  | setDelay _ => "SetDelayTimerToRegisterValue"
  | setSound _ => "SetSoundTimerToRegisterValue"
  | addIndex _ => "AddRegisterToIndexRegister"
  | pointGlyph _ => "SetIndexRegisterToSpriteForRegister"
  | storeDecimal _ => "StoreBinaryCodedDecimalAtIndexRegisterValue"
  | dump _ => "DumpRegistersToMemoryAtIndexRegister"
  | restore _ => "LoadMemoryToRegistersAtIndexRegister"

def operands : Instruction → List Nat
  | clearScreen | ret => []
  | sys a | jump a | call a | setIndex a | jumpOffset a => [a.toNat]
  | skipByte _ x b | setByte x b | addByte x b | random x b => [x, b.toNat]
  | skipRegister _ x y | combine _ x y | shift _ x y => [x, y]
  | draw x y rows => [x, y, rows.toNat]
  | skipKey _ x | readDelay x | waitKey x | setDelay x | setSound x | addIndex x | pointGlyph x
  | storeDecimal x | dump x | restore x => [x]

/-- The operands of a name in brackets, with commas between them. -/
def text (i : Instruction) : String :=
  match i.operands with
  | [] => i.name
  | ns => String.join [i.name, "(", ", ".intercalate (ns.map Numeral.decimal), ")"]

/-- One instruction of each name, with zero for its operands. -/
def forms : List Instruction :=
  [clearScreen, ret, sys 0, jump 0, call 0, skipByte .equal 0 0, skipByte .different 0 0,
   skipRegister .equal 0 0, setByte 0 0, addByte 0 0, combine .copy 0 0, combine .or 0 0,
   combine .and 0 0, combine .xor 0 0, combine .add 0 0, combine .sub 0 0, shift .right 0 0,
   combine .subFrom 0 0, shift .left 0 0, skipRegister .different 0 0, setIndex 0, jumpOffset 0,
   random 0 0, draw 0 0 0, skipKey true 0, skipKey false 0, readDelay 0, waitKey 0, setDelay 0,
   setSound 0, addIndex 0, pointGlyph 0, storeDecimal 0, dump 0, restore 0]

def withOperands? : Instruction → List Nat → Option Instruction
  | clearScreen, [] => some clearScreen
  | ret, [] => some ret
  | sys _, [a] => some (sys (UInt16.ofNat a))
  | jump _, [a] => some (jump (UInt16.ofNat a))
  | call _, [a] => some (call (UInt16.ofNat a))
  | skipByte test _ _, [x, b] => some (skipByte test x (UInt8.ofNat b))
  | skipRegister test _ _, [x, y] => some (skipRegister test x y)
  | setByte _ _, [x, b] => some (setByte x (UInt8.ofNat b))
  | addByte _ _, [x, b] => some (addByte x (UInt8.ofNat b))
  | combine op _ _, [x, y] => some (combine op x y)
  | shift direction _ _, [x, y] => some (shift direction x y)
  | setIndex _, [a] => some (setIndex (UInt16.ofNat a))
  | jumpOffset _, [a] => some (jumpOffset (UInt16.ofNat a))
  | random _ _, [x, b] => some (random x (UInt8.ofNat b))
  | draw _ _ _, [x, y, rows] => some (draw x y (UInt8.ofNat rows))
  | skipKey held _, [x] => some (skipKey held x)
  | readDelay _, [x] => some (readDelay x)
  | waitKey _, [x] => some (waitKey x)
  | setDelay _, [x] => some (setDelay x)
  | setSound _, [x] => some (setSound x)
  | addIndex _, [x] => some (addIndex x)
  | pointGlyph _, [x] => some (pointGlyph x)
  | storeDecimal _, [x] => some (storeDecimal x)
  | dump _, [x] => some (dump x)
  | restore _, [x] => some (restore x)
  | _, _ => none

def ofParts? (name : String) (ns : List Nat) : Option Instruction :=
  (forms.find? fun i => i.name == name).bind fun i => i.withOperands? ns

theorem find?_forms (i : Instruction) :
    ∃ j, forms.find? (fun f => f.name == i.name) = some j ∧
      j.withOperands? i.operands = some i := by
  cases i with
  | skipByte test x b => cases test <;> exact ⟨_, rfl, by simp [operands, withOperands?]⟩
  | skipRegister test x y => cases test <;> exact ⟨_, rfl, by simp [operands, withOperands?]⟩
  | combine op x y => cases op <;> exact ⟨_, rfl, by simp [operands, withOperands?]⟩
  | shift direction x y => cases direction <;> exact ⟨_, rfl, by simp [operands, withOperands?]⟩
  | skipKey held x => cases held <;> exact ⟨_, rfl, by simp [operands, withOperands?]⟩
  | _ => exact ⟨_, rfl, by simp [operands, withOperands?]⟩

theorem ofParts?_name_operands (i : Instruction) : ofParts? i.name i.operands = some i := by
  obtain ⟨j, hj, hi⟩ := find?_forms i
  simp [ofParts?, hj, hi]

end Chip8.Instruction
