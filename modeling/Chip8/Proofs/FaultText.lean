import Chip8.Fault
import Chip8.Proofs.Scan
import Mathlib.Data.List.Infix

/-!
Faults read back from their texts. A text with numbers in it is a form: the words in front of the
first number and, for each number, how it is written and the words behind it. The numbers are read
back whatever their width (`Form.read?_fill`), and the words in front tell one kind of fault from
another (`ofText?_fill`). Main statement: `texts_identify`.
-/

namespace Chip8

/-- The place of a number in a text: its base, its least width and the words behind it. -/
structure Gap where
  base : Nat
  width : Nat
  behind : String

/-- A text with gaps for numbers. -/
structure Form where
  lead : String
  gaps : List Gap

namespace Form

open Numeral (write scan? isDigit)

def fillGaps : List Gap → List Nat → List Char
  | g :: gs, n :: ns => write g.base g.width n ++ (g.behind.toList ++ fillGaps gs ns)
  | _, _ => []

def fill (f : Form) (ns : List Nat) : String := String.ofList (f.lead.toList ++ fillGaps f.gaps ns)

def readGaps? : List Gap → List Char → Option (List Nat)
  | [], [] => some []
  | [], _ :: _ => none
  | g :: gs, cs =>
    (scan? g.base cs).bind fun (n, rest) =>
      (g.behind.toList.isPrefixOf? rest).bind fun rest => (readGaps? gs rest).map (n :: ·)

def read? (f : Form) (s : String) : Option (List Nat) :=
  (f.lead.toList.isPrefixOf? s.toList).bind (readGaps? f.gaps)

/-- A number that is written in front of the text ends there. -/
def EndsNumber (base : Nat) (cs : List Char) : Prop := cs.head?.any (isDigit base) = false

instance (base : Nat) (cs : List Char) : Decidable (EndsNumber base cs) :=
  inferInstanceAs (Decidable (_ = _))

/-- Each number ends where its gap does, in front of words or at the end of the text. -/
def Delimited : List Gap → Prop
  | [] => True
  | g :: gs => (2 ≤ g.base ∧ g.base ≤ 16) ∧ EndsNumber g.base g.behind.toList ∧
      (g.behind.toList = [] → gs.length = 0) ∧ Delimited gs

instance decidableDelimited : (gs : List Gap) → Decidable (Delimited gs)
  | [] => isTrue trivial
  | _ :: gs =>
    have := decidableDelimited gs
    inferInstanceAs (Decidable (_ ∧ _ ∧ _ ∧ _))

variable {f g : Form} {gs : List Gap} {ns : List Nat}

theorem EndsNumber.scan?_write {base : Nat} {rest : List Char} (h : EndsNumber base rest)
    (h2 : 2 ≤ base) (h16 : base ≤ 16) (width n : Nat) :
    scan? base (write base width n ++ rest) = some (n, rest) := by
  refine Numeral.scan?_write h2 h16 width n fun c hc => ?_
  rw [EndsNumber, Option.mem_def.mp hc] at h
  exact h

theorem readGaps?_fillGaps (h : Delimited gs) (hlength : ns.length = gs.length) :
    readGaps? gs (fillGaps gs ns) = some ns := by
  induction gs generalizing ns with
  | nil =>
    rw [List.length_eq_zero_iff.mp hlength]
    rfl
  | cons g gs ih =>
    obtain ⟨n, ns, rfl⟩ := List.exists_cons_of_length_eq_add_one hlength
    obtain ⟨⟨h2, h16⟩, hbehind, hlast, hgs⟩ := h
    have hends : EndsNumber g.base (g.behind.toList ++ fillGaps gs ns) := by
      rcases hnil : g.behind.toList with _ | ⟨c, cs⟩
      · rw [List.length_eq_zero_iff.mp (hlast hnil)]
        rfl
      · rw [hnil] at hbehind
        exact hbehind
    have hstart : g.behind.toList.isPrefixOf? (g.behind.toList ++ fillGaps gs ns) =
        some (fillGaps gs ns) :=
      List.isPrefixOf?_eq_some_iff_append_eq.mpr rfl
    rw [readGaps?, fillGaps, hends.scan?_write h2 h16 g.width n]
    show ((g.behind.toList.isPrefixOf? _).bind _) = _
    rw [hstart, Option.bind_some, ih hgs (Nat.succ.inj hlength), Option.map_some]

/-- The numbers put into a form are read off the text. -/
theorem read?_fill (h : Delimited f.gaps) (hlength : ns.length = f.gaps.length) :
    f.read? (f.fill ns) = some ns := by
  have hstart : f.lead.toList.isPrefixOf? (f.fill ns).toList = some (fillGaps f.gaps ns) := by
    rw [List.isPrefixOf?_eq_some_iff_append_eq, fill, String.toList_ofList]
  rw [read?, hstart, Option.bind_some, readGaps?_fillGaps h hlength]

def Apart (f g : Form) : Prop :=
  ¬ f.lead.toList <+: g.lead.toList ∧ ¬ g.lead.toList <+: f.lead.toList

instance (f g : Form) : Decidable (f.Apart g) := inferInstanceAs (Decidable (_ ∧ _))

theorem Apart.read?_fill (h : f.Apart g) (ns : List Nat) : f.read? (g.fill ns) = none := by
  rw [read?, Option.bind_eq_none_iff]
  intro rest hrest
  have happend := List.isPrefixOf?_eq_some_iff_append_eq.mp hrest
  rw [fill, String.toList_ofList] at happend
  rcases List.prefix_or_prefix_of_prefix ⟨rest, happend⟩ (List.prefix_append _ _) with hp | hp
  · exact absurd hp h.1
  · exact absurd hp h.2

end Form

namespace Fault

open Numeral (scan?)

def messageForm : Fault → Form
  | unknownOpcode _ => ⟨"unknown opcode 0x", [⟨16, 4, ""⟩]⟩
  | stackOverflow _ => ⟨"stack overflow pushing return address 0x", [⟨16, 3, ""⟩]⟩
  | stackUnderflow => ⟨"stack underflow: return with an empty call stack", []⟩
  | memoryOutOfRange _ => ⟨"memory access out of range at 0x", [⟨16, 4, ""⟩]⟩
  | loadTooLarge _ _ =>
    ⟨"program is too large (", [⟨10, 1, " bytes), at most "⟩, ⟨10, 1, " bytes fit"⟩]⟩
  | invalidKey _ => ⟨"key 0x", [⟨16, 1, " is not on the 16-key pad"⟩]⟩

def recordForm : Fault → Form
  | unknownOpcode _ => ⟨"UnknownOpcode \x7b opcode: ", [⟨10, 1, " \x7d"⟩]⟩
  | stackOverflow _ => ⟨"StackOverflow \x7b address: ", [⟨10, 1, " \x7d"⟩]⟩
  | stackUnderflow => ⟨"StackUnderflow", []⟩
  | memoryOutOfRange _ => ⟨"MemoryOutOfRange \x7b address: ", [⟨10, 1, " \x7d"⟩]⟩
  | loadTooLarge _ _ =>
    ⟨"LoadTooLarge \x7b size: ", [⟨10, 1, ", max_size: "⟩, ⟨10, 1, " \x7d"⟩]⟩
  | invalidKey _ => ⟨"InvalidKey \x7b key: ", [⟨10, 1, " \x7d"⟩]⟩

def numbers (f : Fault) : List Nat := f.fields.map Prod.snd

/-- The fault of the same kind with zero in its fields. -/
def kind : Fault → Fault
  | unknownOpcode _ => unknownOpcode 0
  | stackOverflow _ => stackOverflow 0
  | stackUnderflow => stackUnderflow
  | memoryOutOfRange _ => memoryOutOfRange 0
  | loadTooLarge _ _ => loadTooLarge 0 0
  | invalidKey _ => invalidKey 0

def kinds : List Fault :=
  [unknownOpcode 0, stackOverflow 0, stackUnderflow, memoryOutOfRange 0, loadTooLarge 0 0,
    invalidKey 0]

def withNumbers? : Fault → List Nat → Option Fault
  | unknownOpcode _, [w] => some (unknownOpcode (UInt16.ofNat w))
  | stackOverflow _, [a] => some (stackOverflow (UInt16.ofNat a))
  | stackUnderflow, [] => some stackUnderflow
  | memoryOutOfRange _, [a] => some (memoryOutOfRange a)
  | loadTooLarge _ _, [size, maxSize] => some (loadTooLarge size maxSize)
  | invalidKey _, [k] => some (invalidKey (UInt8.ofNat k))
  | _, _ => none

def ofText? (form : Fault → Form) (s : String) : Option Fault :=
  kinds.findSome? fun kind => ((form kind).read? s).bind kind.withNumbers?

def hexNumber? : List Char → Option Nat
  | [] => none
  | '0' :: 'x' :: cs => (scan? 16 cs).map Prod.fst
  | _ :: cs => hexNumber? cs

def hexField? : Fault → Option Nat
  | unknownOpcode w => some w.toNat
  | stackOverflow a => some a.toNat
  | memoryOutOfRange a => some a
  | invalidKey k => some k.toNat
  | stackUnderflow | loadTooLarge _ _ => none

/-- A way to write faults that can be read: the words depend on the kind only, there is a gap for
each field, and no kind is taken for another. -/
structure Legible (form : Fault → Form) : Prop where
  kind : ∀ f : Fault, form f.kind = form f
  length : ∀ f : Fault, f.numbers.length = (form f).gaps.length
  delimited : ∀ kind ∈ kinds, Form.Delimited (form kind).gaps
  apart : kinds.Pairwise fun a b => (form a).Apart (form b)

theorem kind_mem_kinds (f : Fault) : f.kind ∈ kinds := by
  cases f <;> simp [kind, kinds]

theorem withNumbers?_kind (f : Fault) : f.kind.withNumbers? f.numbers = some f := by
  cases f <;> simp [kind, withNumbers?, numbers, fields]

/-- A fault is read back from its text. -/
theorem Legible.ofText?_fill {form : Fault → Form} (h : Legible form) (f : Fault) :
    ofText? form ((form f).fill f.numbers) = some f := by
  obtain ⟨before, after, hkinds⟩ := List.append_of_mem f.kind_mem_kinds
  have hapart := h.apart
  rw [hkinds, List.pairwise_append] at hapart
  have hbefore : before.findSome? (fun kind =>
      ((form kind).read? ((form f).fill f.numbers)).bind kind.withNumbers?) = none := by
    rw [List.findSome?_eq_none_iff]
    intro kind hkind
    have hother := hapart.2.2 kind hkind f.kind List.mem_cons_self
    rw [h.kind] at hother
    rw [hother.read?_fill, Option.bind_none]
  have hown : (form f).read? ((form f).fill f.numbers) = some f.numbers :=
    Form.read?_fill (h.kind f ▸ h.delimited _ f.kind_mem_kinds) (h.length f)
  rw [ofText?, hkinds, List.findSome?_append, hbefore, List.findSome?_cons, h.kind, hown,
    Option.bind_some, withNumbers?_kind]
  rfl

theorem legible_messageForm : Legible messageForm where
  kind f := by cases f <;> rfl
  length f := by cases f <;> rfl
  delimited := by decide +kernel
  apart := by decide +kernel

theorem legible_recordForm : Legible recordForm where
  kind f := by cases f <;> rfl
  length f := by cases f <;> rfl
  delimited := by decide +kernel
  apart := by decide +kernel

theorem message_eq (f : Fault) : f.message = f.messageForm.fill f.numbers := by
  apply String.toList_inj.mp
  cases f <;>
    simp only [message, messageForm, Form.fill, Form.fillGaps, numbers, fields, Numeral.hex,
      Numeral.decimal, String.toList_join, String.toList_ofList, String.toList_empty,
      List.flatMap_cons, List.flatMap_nil, List.map_cons, List.map_nil, List.append_nil]

theorem record_eq (f : Fault) : f.record = f.recordForm.fill f.numbers := by
  apply String.toList_inj.mp
  cases f <;>
    simp [record, recordForm, Form.fill, Form.fillGaps, numbers, fields, field, name,
      Numeral.decimal]

theorem ofText?_message (f : Fault) : ofText? messageForm f.message = some f := by
  rw [message_eq]
  exact legible_messageForm.ofText?_fill f

theorem ofText?_record (f : Fault) : ofText? recordForm f.record = some f := by
  rw [record_eq]
  exact legible_recordForm.ofText?_fill f

theorem hexNumber?_eq_none {cs : List Char} (h : 'x' ∉ cs) : hexNumber? cs = none := by
  fun_induction hexNumber? cs with
  | case1 => rfl
  | case2 cs => simp at h
  | case3 c cs hne ih => exact ih fun hmem => h (List.mem_cons_of_mem c hmem)

theorem hexNumber?_append {lead : List Char} (h : 'x' ∉ lead) (cs : List Char) :
    hexNumber? (lead ++ '0' :: 'x' :: cs) = (scan? 16 cs).map Prod.fst := by
  induction lead with
  | nil => rfl
  | cons c lead ih =>
    rw [List.mem_cons, not_or] at h
    rw [List.cons_append, hexNumber?, ih h.2]
    rintro rest - htail
    cases lead with
    | nil => simp at htail
    | cons d lead => exact h.2 ((List.cons.inj htail).1 ▸ List.mem_cons_self)

theorem hexNumber?_eq_some (lead behind : String) (width n : Nat) {s : String}
    (hs : s.toList = lead.toList ++ '0' :: 'x' :: (Numeral.write 16 width n ++ behind.toList))
    (hlead : 'x' ∉ lead.toList)
    (hbehind : Form.EndsNumber 16 behind.toList) :
    hexNumber? s.toList = some n := by
  rw [hs, hexNumber?_append hlead, hbehind.scan?_write (by decide) (by decide) width n]
  rfl

/-- The hexadecimal number of a message is the field it stands for, however many digits it has. -/
theorem hexNumber?_message (f : Fault) : hexNumber? f.message.toList = f.hexField? := by
  cases f with
  | unknownOpcode w =>
    exact hexNumber?_eq_some "unknown opcode " "" 4 w.toNat (by simp [message, Numeral.hex])
      (by decide) (by decide)
  | stackOverflow a =>
    exact hexNumber?_eq_some "stack overflow pushing return address " "" 3 a.toNat
      (by simp [message, Numeral.hex]) (by decide) (by decide)
  | memoryOutOfRange a =>
    exact hexNumber?_eq_some "memory access out of range at " "" 4 a
      (by simp [message, Numeral.hex]) (by decide) (by decide)
  | invalidKey k =>
    exact hexNumber?_eq_some "key " " is not on the 16-key pad" 1 k.toNat
      (by simp [message, Numeral.hex]) (by decide) (by decide)
  | stackUnderflow => exact hexNumber?_eq_none (by decide)
  | loadTooLarge size maxSize =>
    have hdecimal : ∀ n, 'x' ∉ Numeral.write 10 1 n := by
      intro n hx
      have hdigit : Numeral.isDigit 10 'x' = true :=
        Numeral.isDigit_of_mem_write (by decide) (by decide) hx
      exact absurd hdigit (by decide)
    apply hexNumber?_eq_none
    simp [message, Numeral.decimal, hdecimal]

/-- Different faults have different messages and different records, and the hexadecimal number in a
message is the field that it stands for. -/
theorem texts_identify (f g : Fault) :
    (f.message = g.message ↔ f = g) ∧ (f.record = g.record ↔ f = g) ∧
      hexNumber? f.message.toList = f.hexField? := by
  refine ⟨⟨?_, congrArg message⟩, ⟨?_, congrArg record⟩, f.hexNumber?_message⟩
  · intro h
    have hf := ofText?_message f
    rw [h, ofText?_message g] at hf
    exact (Option.some.inj hf).symm
  · intro h
    have hf := ofText?_record f
    rw [h, ofText?_record g] at hf
    exact (Option.some.inj hf).symm

end Fault

end Chip8
