import Chip8.Terminal.Session

/-!
The command line: reads the program, plays it frame by frame at sixty frames a second, and writes
what each frame shows as it comes.
-/

namespace Chip8.Terminal

/-- The system's number for an error may come negated, in 32 bits. The usual errors have words of
their own, and the others keep the system's. -/
def FileError.ofParts (number : UInt32) (text : String) : FileError :=
  let number := if number < 0x80000000 then number.toNat else (0 - number).toNat
  let usual := [notFound, notDirectory, isDirectory, nameTooLong]
  (usual.find? (·.number == number)).getD ⟨text, number⟩

def FileError.ofSystem : IO.Error → FileError
  | .noFileOrDirectory _ number text | .inappropriateType _ number text
  | .permissionDenied _ number text | .invalidArgument _ number text
  | .resourceExhausted _ number text => .ofParts number text
  | .resourceBusy number text | .otherError number text => .ofParts number text
  | e => .ofParts 5 (toString e)

def readProgram (path : String) : IO (Except FileError (Array Byte)) := do
  match ← (IO.FS.readBinFile path).toBaseIO with
  | .ok bytes => return .ok bytes.data
  | .error e => return .error (FileError.ofSystem e)

def flush (p : Playback) : IO Playback := do
  let stdout ← IO.getStdout
  for output in p.output do
    stdout.putStr output.text
  stdout.flush
  for notice in p.notices do
    IO.eprintln notice.text
  return { p with output := [], notices := [] }

/-- Plays on from a number of frames until the program ends or reaches its limit. -/
partial def playAloud (s : Settings) (frames : Nat) (p : Playback) : IO Ending := do
  let started ← IO.monoMsNow
  let p ← flush p
  match p.ending with
  | some ending => return ending
  | none =>
    if s.maxFrames.any (· ≤ frames) then return .frameLimit
    let p ← flush (p.next s)
    if p.ending.isNone then
      let spent := (← IO.monoMsNow) - started
      IO.sleep (1000 / Registers.ticksPerSecond - spent).toUInt32
    playAloud s (frames + 1) p

/-- A seed given by the user, or else a new one for each run, scattered by the library's own
generator. -/
def randomSource (seed : Option Nat) : IO RandomSource := do
  match seed with
  | some seed => return .ofSeed seed
  | none => return .ofSeed (← IO.monoNanosNow)

def runCommand (arguments : List String) : IO UInt32 := do
  match Request.ofArguments arguments with
  | .error e =>
    for message in (Report.ofUsageError e).stderr do
      IO.eprintln message
    return (Report.ofUsageError e).code.toUInt32
  | .ok .version =>
    IO.print versionText
    return 0
  | .ok .help =>
    IO.print helpText
    return 0
  | .ok (.run s) =>
    let file ← readProgram s.rom
    let ending ← playAloud s 0 (Playback.start s file (← randomSource s.seed))
    IO.eprintln (Notice.ended ending).text
    return ending.code.toUInt32

end Chip8.Terminal

def main (arguments : List String) : IO UInt32 := Chip8.Terminal.runCommand arguments
