import Chip8.Command.Arguments
import Chip8.Command.Path
import Chip8.Command.Script
import Chip8.Listing.Revision
import Chip8.Terminal.Notice
import Chip8.Text.Utf8

/-!
# Commands

The script of every command. A command tells what it is about before it does
anything, so that when something goes wrong the last line written tells where.

## Main definitions

* `Environment`: Settings from outside the command line.
* `Command.script`: The script of a command.
* `commandLine`: The script for the words of a command line.
-/

namespace Chip8

/-- Settings from outside the command line. -/
structure Environment where
  /-- Every step of a run is told. -/
  trace : Bool
  /-- The seed of the random source. -/
  seed : UInt64
  /-- Colours are wanted. -/
  colours : Bool

/-- The variable that asks for a trace, when it is `1`. -/
def traceVariable : String :=
  "CHASM_TRACE"

/-- The variable that holds a seed. -/
def seedVariable : String :=
  "CHASM_SEED"

/-- The variable that stops the timers, when it is `0`. -/
def timersVariable : String :=
  "CHASM_TIMERS"

/-- The seed that the value of a variable denotes, if it denotes one. -/
def seedOf? (value : Text) : Option UInt64 :=
  (Text.unsigned? 64 (Text.trim value)).map Nat.toUInt64

/-- The name and the version of the program. -/
def programName : Text :=
  "chasm".toList

def programVersion : Text :=
  "0.1.0".toList

/-- What the program is, in a few words. -/
def aboutText : Text :=
  "\n~ ".toList ++ programName ++ " v".toList ++ programVersion ++ " ~\n".toList
    ++ "\nWelcome to chasm, an assembler, disassembler and interpreter for a\n".toList
    ++ "16-bit CHIP-8 style instruction set.\n".toList
    ++ "Please use `-h` or `--help` to access the usage instructions and documentation.\n".toList
    ++ ['\n']

/-- How the program is used. -/
def helpText : Text :=
  ("Usage: chasm [PATH] [COMMAND]\n\n"
    ++ "Commands:\n"
    ++ "  run          Run an `.asm` or `.ch8` file and print the final machine state\n"
    ++ "  assemble     Create a binary `.ch8` file from an `.asm` file\n"
    ++ "  disassemble  Create an annotated `.asm` listing from a binary file\n"
    ++ "  check        Check an `.asm` file without running it\n"
    ++ "  fix          Derive the position annotations of an `.asm` listing again, in place\n\n"
    ++ "Options of `run`:\n"
    ++ "  -s, --steps <STEPS>  Stop after this many instructions\n"
    ++ "  -k, --keys <KEYS>    Host keys held down for the whole run, e.g. `qw`\n"
    ++ "  -m, --minimal        Produce minimal output\n"
    ++ "      --screen         Print the framebuffer after running\n").toList

namespace Command

open Script

/-- Normal output for the user. -/
def tell (t : Terminal) (colour : Colour) (word subject : Text) (next : Script) : Script :=
  print .out (t.message colour word subject) next

/-- Tells which file the command turns to. -/
def tellFile (t : Terminal) (word name : Text) (next : Script) : Script :=
  tell t .green word ("target ".toList ++ name) next

/-- Ends with an error that has a wording alone. -/
def fail (t : Terminal) (message : Text) : Script :=
  print .err (t.failure message) (exit 1)

/-- Ends with a report. -/
def failWith (t : Terminal) (r : Report) : Script :=
  print .err (t.report r) (exit 1)

/-- Reads a file of any content. -/
def readBytes (t : Terminal) (name : Text) (next : ByteArray → Script) : Script :=
  Script.read name fun
    | some content => next content
    | none => fail t ("cannot read ".toList ++ name)

/-- Reads a file that holds text. -/
def readText (t : Terminal) (name : Text) (next : Text → Script) : Script :=
  readBytes t name fun content =>
    match Text.ofUtf8? content with
    | some src => next src
    | none => fail t (name ++ " does not hold valid UTF-8".toList)

/-- Writes a file. -/
def save (t : Terminal) (name : Text) (content : ByteArray) (next : Script) : Script :=
  Script.write name content fun
    | true => next
    | false => fail t ("cannot write ".toList ++ name)

/-- Bytes as the content of a file. -/
def contentOf (bytes : List UInt8) : ByteArray :=
  ⟨bytes.toArray⟩

/-- Assembles a file into another. -/
def assembleScript (t : Terminal) (name : Text) (destination : Option Text) : Script :=
  tellFile t "Assembling".toList name <| readText t name fun src =>
    match Source.assemble src with
    | .error e => failWith t (e.report src)
    | .ok program =>
        let target := destination.getD (Path.withExtension name "ch8".toList)
        save t target (contentOf program.bytes) <|
          tell t .green "Finished".toList
            ("emit ".toList ++ Text.decimal program.bytes.length ++ " bytes".toList) <|
          tellFile t "Saved".toList target (exit 0)

/-- Disassembles a file into another. -/
def disassembleScript (t : Terminal) (name : Text) (destination : Option Text) : Script :=
  tellFile t "Reading".toList name <| readBytes t name fun content =>
    let target := destination.getD (Path.withExtension name "asm".toList)
    save t target (Text.toUtf8 (Chip8.disassemble content.data.toList)) <|
      tell t .green "Finished".toList "disassembly".toList <|
      tellFile t "Saved".toList target (exit 0)

/-- Assembles a file to see whether it can be. -/
def checkScript (t : Terminal) (name : Text) : Script :=
  tellFile t "Checking".toList name <| readText t name fun src =>
    match Source.statements src with
    | .error e => failWith t (e.report src)
    | .ok _ => tell t .green "Success".toList "no errors found!".toList (exit 0)

/-- Derives the stamps of a listing again. -/
def fixScript (t : Terminal) (name : Text) : Script :=
  tellFile t "Fixing".toList name <| readText t name fun src =>
    match Revision.restamp src with
    | .error e => failWith t (e.report src)
    | .ok fixed => save t name (Text.toUtf8 fixed) <| tellFile t "Saved".toList name (exit 0)

/-- A session with more keys held, or the first character that has no key. -/
def pressAll (s : Session) : Text → Except Char Session
  | [] => .ok s
  | c :: rest =>
      match Keypad.ofChar? c with
      | none => .error c
      | some key => pressAll { s with machine := s.machine.press key } rest

/-- Tells why a run ended. -/
def tellEnd (t : Terminal) (result : Except ExecutionError Outcome) (next : Script) : Script :=
  match result with
  | .ok (.stalled ip) =>
      tell t .cyan "Halted".toList
        ("no progress at 0x".toList ++ Text.paddedHex 4 ip.toNat) next
  | .ok .stepLimit => tell t .cyan "Halted".toList "step limit reached".toList next
  | .ok .stopped => tell t .cyan "Halted".toList "stopped".toList next
  | .ok .stepped => tell t .cyan "Halted".toList "stopped".toList next
  | .error _ => tell t .red "Halted".toList "runtime error".toList next

/-- Runs a session to its end and shows the machine. -/
def runSession (env : Environment) (t : Terminal) (name : Text) (options : RunOptions)
    (s : Session) : Script :=
  match pressAll s (options.keys.getD []) with
  | .error c => fail t ("Key `".toList ++ c :: "` is not mapped to the keypad.".toList)
  | .ok s =>
      tell t .green "Running".toList "loaded program".toList <|
        Script.run (if env.trace then some t else none) options.steps s fun result s =>
          tellEnd t result <|
          tell t .green "Executed".toList
            (Text.decimal s.steps ++ " instructions".toList) <|
          print .out (t.registers s.machine) <|
          print .out (if options.screen then t.screen s.machine else []) <|
            match result with
            | .error e => failWith t e.report
            | .ok _ => tellFile t "Completed".toList name (exit 0)

/-- Runs a file, which its extension tells to be a program or a source. -/
def runScript (env : Environment) (name : Text) (options : RunOptions) : Script :=
  let t : Terminal := ⟨options.minimal, env.colours⟩
  let machine := Machine.idle env.seed
  match Path.extension? name with
  | none => fail t "File has no extension. Exiting...".toList
  | some extension =>
      if extension = "ch8".toList ∨ extension = "bin".toList then
        tellFile t "Loading".toList name <| readBytes t name fun content =>
          match Session.ofBytes content.data.toList machine with
          | .ok s => runSession env t name options s
          | .error (.assembly e) => failWith t (e.report [])
          | .error (.load e) => failWith t e.report
      else if extension = "asm".toList then
        tellFile t "Assembling".toList name <| readText t name fun src =>
          match Session.start src machine with
          | .ok s => runSession env t name options s
          | .error (.assembly e) => failWith t (e.report src)
          | .error (.load e) => failWith t e.report
      else fail t "File has unknown extension. Exiting...".toList

/-- The script of a command. -/
def script (env : Environment) (command : Command) : Script :=
  let t : Terminal := ⟨false, env.colours⟩
  match command with
  | .about => print .out aboutText (exit 0)
  | .run name options => runScript env name options
  | .assemble name destination => assembleScript t name destination
  | .disassemble name destination => disassembleScript t name destination
  | .check name => checkScript t name
  | .fix name => fixScript t name

end Command

/-- The script for the words of a command line. -/
def commandLine (env : Environment) (words : List Text) : Script :=
  match Command.parse words with
  | .ok command => command.script env
  | .error .help => .print .out helpText (.exit 0)
  | .error .version =>
      .print .out (programName ++ ' ' :: programVersion ++ ['\n']) (.exit 0)
  | .error (.invalid e) =>
      .print .err ("error: ".toList ++ e.message ++ ['\n']) (.exit 2)

end Chip8
