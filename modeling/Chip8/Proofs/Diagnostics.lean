import Chip8.Proofs.Blocked

/-!
The messages of a run and its exit code. A playback fails exactly if a step of it faults
(`ending_eq_failed_iff`) and finishes exactly if its last step parks
(`ending_eq_finished_iff`); what it reports besides is that fault, or a step that blocks. Main
statement: `diagnostics_of_run`.
-/

namespace Chip8

theorem Machine.step_of_decode_error {m : Machine} {fault : Fault} (hw : m.waiting = none)
    (hd : Instruction.decode m.fetch = .error fault) : m.step.result = .error (.fault fault) := by
  simp only [step, hw, hd]

namespace Terminal

open Numeral (decimal hex)

namespace Notice

variable {pc : Word} {x size : Nat} {path : String} {f : Fault}

theorem text_loaded :
    (loaded size path).text =
      String.join ["INFO read ", decimal size, " bytes from '", path, "'"] := by
  apply String.toList_inj.mp
  simp [text, level?, message, Level.name]

theorem text_waiting :
    (waiting pc x).text =
      String.join
        ["WARN program at 0x", hex 3 pc.toNat, " is waiting for a key into V", hex 1 x,
         ", this host has no keyboard input"] := by
  apply String.toList_inj.mp
  simp [text, level?, message, Level.name]

theorem text_faulted :
    (faulted pc (.fault f)).text =
      String.join ["WARN fault at 0x", hex 3 pc.toNat, ": ", f.message] := by
  apply String.toList_inj.mp
  simp [text, level?, message, Level.name, Stop.message]

theorem text_tooLarge :
    (ended (.failed (.stopped (.fault (.loadTooLarge size Memory.programRoom))))).text =
      String.join
        ["Error: program is too large (", decimal size, " bytes), at most 3584 bytes fit"] := by
  have hroom : decimal Memory.programRoom = "3584" := by decide +kernel
  apply String.toList_inj.mp
  simp [text, level?, message, Failure.message, Stop.message, Fault.message, hroom]

end Notice

namespace FrameEnd

variable {m : Machine} {failure : Failure}

theorem ending?_eq_failed_iff :
    (ofStep m).ending? = some (.failed failure) ↔
      ∃ stop, m.step.result = .error stop ∧ failure = .stopped stop := by
  obtain ⟨stop, hs, hm⟩ | ⟨x, hs, hm⟩ | ⟨t, hs, -, hm⟩ := ofStep_cases m
  · simp [hs, hm, ending?, eq_comm]
  · simp [hs, hm, ending?]
  · rw [hs, hm]
    split <;> simp [ending?]

theorem ending?_eq_finished_iff : (ofStep m).ending? = some .finished ↔ m.course = .parks := by
  rw [← ofStep_eq_parked_iff]
  cases ofStep m <;> simp [ending?]

end FrameEnd

namespace Playback

variable {s : Settings} {p q : Playback} {n patience : Nat} {m : Machine} {stop : Stop}
  {first : List Notice} {report : Report}

theorem ending_play_eq_some_iff {e : Ending} (hq : q.ending = none) :
    (q.play s n).ending = some e ↔ ∃ m ∈ q.machines s n, (FrameEnd.ofStep m).ending? = some e :=
  ⟨exists_ending_step hq, fun ⟨_, hm, he⟩ => (play_of_ending_step hm he).1⟩

/-- A run fails exactly if a step of it faults. -/
theorem ending_eq_failed_iff {failure : Failure} (hq : q.ending = none) :
    (q.play s n).cut.ending = some (.failed failure) ↔
      ∃ m ∈ q.machines s n, ∃ stop, m.step.result = .error stop ∧ failure = .stopped stop := by
  rw [ending_cut_eq_failed_iff, ending_play_eq_some_iff hq]
  simp only [FrameEnd.ending?_eq_failed_iff]

/-- A run finishes exactly if its last step parks. -/
theorem ending_eq_finished_iff (hq : q.ending = none) :
    (q.play s n).cut.ending = some .finished ↔
      ∃ m ∈ (q.machines s n).getLast?, m.course = .parks := by
  have hcut : (q.play s n).cut.ending = some .finished ↔ (q.play s n).ending = some .finished := by
    unfold cut
    cases h : (q.play s n).ending <;> simp [h]
  rw [hcut, ending_play_eq_some_iff hq]
  simp only [FrameEnd.ending?_eq_finished_iff]
  constructor
  · rintro ⟨m, hm, hc⟩
    exact ⟨m, (play_of_ending_step hm (FrameEnd.ending?_eq_finished_iff.mpr hc)).2.2, hc⟩
  · rintro ⟨m, hm, hc⟩
    exact ⟨m, List.mem_of_getLast? hm, hc⟩

theorem code_eq_zero_iff {e : Ending} (hq : q.ending = none)
    (he : (q.play s n).cut.ending = some e) :
    e.code = 0 ↔ ∀ m ∈ q.machines s n, ∃ t, m.step.result = .ok t := by
  have hfaults : (∃ failure, e = .failed failure) ↔
      ∃ m ∈ q.machines s n, ∃ stop, m.step.result = .error stop := by
    constructor
    · rintro ⟨failure, rfl⟩
      obtain ⟨m, hm, stop, hs, -⟩ := (ending_eq_failed_iff hq).mp he
      exact ⟨m, hm, stop, hs⟩
    · rintro ⟨m, hm, stop, hs⟩
      have hfailed := (ending_eq_failed_iff hq).mpr ⟨m, hm, stop, hs, rfl⟩
      exact ⟨_, Option.some.inj (he.symm.trans hfailed)⟩
  have hcode : e.code = 0 ↔ ¬ ∃ failure, e = .failed failure := by
    cases e <;> simp [Ending.code]
  rw [hcode, hfaults]
  push Not
  refine forall₂_congr fun m _ => ?_
  cases m.step.result <;> simp

/-- The run stops at a step that faults, and the machine is left as it was. -/
theorem play_of_error (hm : m ∈ q.machines s n) (hs : m.step.result = .error stop) :
    (q.play s n).ending = some (.failed (.stopped stop)) ∧ (q.play s n).machine = m := by
  obtain ⟨hending, hmachine, -⟩ :=
    play_of_ending_step hm (FrameEnd.ending?_eq_failed_iff.mpr ⟨stop, hs, rfl⟩)
  exact ⟨hending, hmachine.trans (Machine.machine_step_of_error hs)⟩

theorem exists_fault_of_error (hq : q.machine.Reachable) (hm : m ∈ q.machines s n)
    (hs : m.step.result = .error stop) : ∃ fault, stop = .fault fault := by
  have hreachable : m.Reachable := (play_of_error hm hs).2 ▸ reachable_play hq n
  cases stop with
  | fault fault => exact ⟨fault, rfl⟩
  | badOperand => exact absurd hs hreachable.wellFormed.step_ne_badOperand

/-- If the run does not fail, there is nothing to report but a step that blocks. -/
theorem Accounts.exists_account {e : Ending} (h : q.Accounts first) (hq : q.ending = none)
    (hw : q.machine.waiting = none) (he : (q.play s n).cut.ending = some e) (h0 : e.code = 0) :
    ∃ waits : Option Notice, (q.play s n).account = waits.toList ∧
      ∀ notice ∈ waits, ∃ m ∈ q.machines s n, ∃ x,
        m.step.result = .ok ⟨m.registers.pc, some (.blockedOnKey x)⟩ ∧
        notice = .waiting m.registers.pc x := by
  rcases hx : (q.play s n).machine.waiting with _ | x
  · refine ⟨none, ?_, nofun⟩
    unfold account
    split
    · rename_i hending
      rw [ending_cut_of_some hending] at he
      obtain rfl := Option.some.inj he
      cases h0
    · rw [hx]
      rfl
  · -- some step has blocked, and any such step is the one that is reported
    obtain ⟨m, hm, pc, y, hs⟩ := exists_blocked_step h.unattended hw hx
    obtain ⟨before, r, after, hrounds, hmr⟩ := exists_round_of_mem_machines hm
    obtain ⟨-, hwaits, -⟩ := h.staysBlocked hq hrounds hmr hs
    obtain rfl : pc = m.registers.pc := (Machine.waiting_of_blocked hs rfl).1
    refine ⟨some (.waiting m.registers.pc y), hwaits.account_eq, ?_⟩
    rintro notice ⟨⟩
    exact ⟨m, hm, y, hs, rfl⟩

theorem text_of_code_eq_zero {e : Ending} (hq : q.ending = none)
    (he : (q.play s n).cut.ending = some e) (h0 : e.code = 0) :
    ((∃ m ∈ (q.machines s n).getLast?, m.course = .parks) →
      (Notice.ended e).text = "INFO program finished") ∧
    ((∀ m ∈ (q.machines s n).getLast?, m.course ≠ .parks) →
      (Notice.ended e).text = "INFO frame limit reached") := by
  have hfinished : e = .finished ↔ _ := Option.some_inj.symm.trans (he ▸ ending_eq_finished_iff hq)
  rw [← hfinished]
  refine ⟨?_, fun hparks => ?_⟩
  · rintro rfl
    rfl
  · cases e with
    | frameLimit => rfl
    | finished =>
      obtain ⟨m, hm, hc⟩ := hfinished.mp rfl
      exact absurd hc (hparks m hm)
    | failed => cases h0

theorem Accounts.stderr_eq {notice : Notice} (h : p.Accounts [notice]) (e : Ending) :
    (Report.ofPlayback p e).stderr =
      notice.text :: (p.account ++ [Notice.ended e]).map Notice.text := by
  rw [Report.ofPlayback, h.notices, List.append_assoc]
  rfl

theorem Accounts.stderr_of_code_eq_zero {notice : Notice} {e : Ending} (h : q.Accounts [notice])
    (hq : q.ending = none) (hw : q.machine.waiting = none)
    (he : (q.play s n).cut.ending = some e) (h0 : e.code = 0) :
    ∃ waits : Option String,
      (Report.ofPlayback (q.play s n) e).stderr =
        notice.text :: (waits.toList ++ [(Notice.ended e).text]) ∧
      ∀ line ∈ waits, ∃ m ∈ q.machines s n, ∃ x,
        m.step.result = .ok ⟨m.registers.pc, some (.blockedOnKey x)⟩ ∧
        line = String.join
          ["WARN program at 0x", hex 3 m.registers.pc.toNat, " is waiting for a key into V",
           hex 1 x, ", this host has no keyboard input"] := by
  obtain ⟨waits, haccount, hwaits⟩ := h.exists_account hq hw he h0
  refine ⟨waits.map Notice.text, ?_, ?_⟩
  · rw [(h.play n).stderr_eq, haccount, List.map_append]
    cases waits <;> rfl
  · intro line hline
    obtain ⟨notice, hnotice, rfl⟩ := Option.map_eq_some_iff.mp hline
    obtain ⟨m, hm, x, hs, rfl⟩ := hwaits notice hnotice
    exact ⟨m, hm, x, hs, Notice.text_waiting⟩

theorem Accounts.stderr_of_error {notice : Notice} {e : Ending} {fault : Fault}
    (h : q.Accounts [notice]) (he : (q.play s n).cut.ending = some e) (hm : m ∈ q.machines s n)
    (hs : m.step.result = .error (.fault fault)) :
    e.code = 1 ∧
      (Report.ofPlayback (q.play s n) e).stderr =
        [notice.text,
         String.join ["WARN fault at 0x", hex 3 m.registers.pc.toNat, ": ", fault.message],
         String.join ["Error: ", fault.message]] := by
  obtain ⟨hending, hmachine⟩ := play_of_error hm hs
  rw [ending_cut_of_some hending] at he
  obtain rfl := Option.some.inj he
  refine ⟨rfl, ?_⟩
  rw [(h.play n).stderr_eq, account, hending, hmachine, ← Notice.text_faulted]
  rfl

/-- The report of a run that ends. -/
theorem exists_ending_of_report {file : Except FileError (Array Byte)} {random : RandomSource}
    (h : report? s file random patience = some report) :
    let p := (start s file random).play s (s.maxFrames.getD patience)
    ∃ e, p.cut.ending = some e ∧ report = Report.ofPlayback p e := by
  rcases hn : s.maxFrames with _ | n
  · simp only [report?, hn, Option.map_eq_some_iff] at h
    obtain ⟨e, he, rfl⟩ := h
    exact ⟨e, ending_cut_of_some he, rfl⟩
  · rw [report?_of_maxFrames hn, Option.map_eq_some_iff] at h
    obtain ⟨e, he, rfl⟩ := h
    refine ⟨e, he, ?_⟩
    simp only [Report.ofPlayback, output_cut, notices_cut, Option.getD_some]

theorem exists_report_of_maxFrames (hn : s.maxFrames = some n)
    (file : Except FileError (Array Byte)) (random : RandomSource) (patience : Nat) :
    ∃ report, report? s file random patience = some report := by
  obtain ⟨e, he⟩ := exists_ending_cut ((start s file random).play s n)
  rw [report?_of_maxFrames hn, he]
  exact ⟨_, rfl⟩

/-- A program that does not fit is told of, with its size, and nothing else is done. -/
theorem report_of_lt {program : Array Byte} {random : RandomSource}
    (hroom : Memory.programRoom < program.size)
    (h : report? s (.ok program) random patience = some report) :
    report =
        { code := 1
          stderr :=
            [(Notice.loaded program.size s.rom).text,
             String.join
              ["Error: program is too large (", decimal program.size,
               " bytes), at most 3584 bytes fit"]] } ∧
      (start s (.ok program) random).machines s n = [] := by
  have hq : start s (.ok program) random = _ := start_of_lt hroom s random
  have hending : (start s (.ok program) random).ending = some _ := congrArg Playback.ending hq
  refine ⟨?_, by rw [machines, rounds_of_ending hending]; rfl⟩
  obtain ⟨e, he, rfl⟩ := exists_ending_of_report h
  rw [(play_of_ending hending _).1] at he ⊢
  rw [ending_cut_of_some hending] at he
  obtain rfl := Option.some.inj he
  rw [hq, ← Notice.text_tooLarge]
  rfl

/-- The messages and the exit code of every run that ends agree with its steps, under any settings. The first message
tells the size of the program. The exit code is 0 exactly if the program fits and no step faults.
Then the last message says whether the last step parked, and at most one other, about a step that
blocks, is between the two. A step that faults is told of in two messages with its address and the
text of its fault, and a program that does not fit in one with its size. -/
theorem diagnostics_of_run {program : Array Byte} {random : RandomSource}
    (hr : report? s (.ok program) random patience = some report) :
    let machines := (start s (.ok program) random).machines s (s.maxFrames.getD patience)
    let read := String.join ["INFO read ", decimal program.size, " bytes from '", s.rom, "'"]
    report.stderr.head? = some read ∧
    (report.code = 0 ↔ program.size ≤ 3584 ∧ ∀ m ∈ machines, ∃ t, m.step.result = .ok t) ∧
    (report.code = 0 → ∃ (waits : Option String) (last : String),
      report.stderr = read :: (waits.toList ++ [last]) ∧
      (∀ line ∈ waits, ∃ m ∈ machines, ∃ x,
        m.step.result = .ok ⟨m.registers.pc, some (.blockedOnKey x)⟩ ∧
        line = String.join
          ["WARN program at 0x", hex 3 m.registers.pc.toNat, " is waiting for a key into V",
           hex 1 x, ", this host has no keyboard input"]) ∧
      ((∃ m ∈ machines.getLast?, m.course = .parks) → last = "INFO program finished") ∧
      ((∀ m ∈ machines.getLast?, m.course ≠ .parks) → last = "INFO frame limit reached")) ∧
    (∀ m ∈ machines, ∀ stop, m.step.result = .error stop →
      ∃ fault, stop = .fault fault ∧ report.code = 1 ∧
        report.stderr =
          [read,
           String.join ["WARN fault at 0x", hex 3 m.registers.pc.toNat, ": ", fault.message],
           String.join ["Error: ", fault.message]]) ∧
    (3584 < program.size → report.code = 1 ∧ report.stdout = "" ∧
      report.stderr =
        [read,
         String.join
          ["Error: program is too large (", decimal program.size,
           " bytes), at most 3584 bytes fit"]]) := by
  intro machines read
  have hread : (Notice.loaded program.size s.rom).text = read := Notice.text_loaded
  rcases Nat.lt_or_ge Memory.programRoom program.size with hroom | hroom
  · -- there is no step
    obtain ⟨rfl, hmachines⟩ := report_of_lt (n := s.maxFrames.getD patience) hroom hr
    have hmachines : machines = [] := hmachines
    rw [hmachines, ← hread]
    exact ⟨rfl, ⟨nofun, fun h => absurd h.1 (Nat.not_le_of_lt hroom)⟩, nofun, nofun,
      fun _ => ⟨rfl, rfl, rfl⟩⟩
  obtain ⟨hgoing, -, hstands, -⟩ := start_of_le hroom s random
  have haccounts := accounts_start hroom s random
  have hreachable := reachable_start s (.ok program) random
  obtain ⟨e, he, rfl⟩ := exists_ending_of_report hr
  have hcode := code_eq_zero_iff hgoing he
  rw [← hread]
  refine ⟨?_, ⟨fun h => ⟨hroom, hcode.mp h⟩, fun h => hcode.mpr h.2⟩, fun h => ?_,
    fun m hm stop hs => ?_, fun h => absurd hroom (Nat.not_le_of_lt h)⟩
  · rw [(haccounts.play _).stderr_eq, List.head?_cons]
  · obtain ⟨waits, hstderr, hwaits⟩ :=
      haccounts.stderr_of_code_eq_zero hgoing hstands.waiting he h
    exact ⟨waits, _, hstderr, hwaits, text_of_code_eq_zero hgoing he h⟩
  · obtain ⟨fault, rfl⟩ := exists_fault_of_error hreachable hm hs
    exact ⟨fault, rfl, haccounts.stderr_of_error he hm hs⟩

/-- A program with no instruction in it. -/
theorem diagnostics_of_unknown_opcode :
    ∃ report,
      report? { rom := "rom", maxFrames := some 1 } (.ok #[0xFF, 0xFF]) (.ofSeed 8) 0 =
        some report ∧
      report.code = 1 ∧
      report.stderr =
        ["INFO read 2 bytes from 'rom'", "WARN fault at 0x200: unknown opcode 0xFFFF",
         "Error: unknown opcode 0xFFFF"] := by
  let s : Settings := { rom := "rom", maxFrames := some 1 }
  obtain ⟨report, hr⟩ := exists_report_of_maxFrames (s := s) rfl (.ok #[0xFF, 0xFF]) (.ofSeed 8) 0
  have hfaults := (diagnostics_of_run hr).2.2.2.1
  obtain ⟨hq, -, hat, -⟩ := start_of_le (p := #[0xFF, 0xFF]) (by decide) s (.ofSeed 8)
  generalize start s (.ok #[0xFF, 0xFF]) (.ofSeed 8) = q at *
  have hmem : q.machine ∈ q.machines s 1 := by
    rw [machines_succ hq]
    exact List.mem_append_left _ (machine_mem_round s q)
  have hs : q.machine.step.result = .error (.fault (.unknownOpcode 0xFFFF)) := by
    apply Machine.step_of_decode_error hat.waiting
    rw [hat.fetch (by decide)]
    rfl
  obtain ⟨fault, hfault, hcode, hstderr⟩ := hfaults q.machine hmem _ hs
  cases hfault
  refine ⟨report, hr, hcode, ?_⟩
  have hrom : s.rom = "rom" := rfl
  rw [hstderr, hat.pc, hrom]
  decide +kernel

end Playback

end Terminal

end Chip8
