import Chip8.Text.Numeral

/-!
# Command Line Arguments

The words behind the name of the program say what to do. The first word that
names a task hands all words behind it to that task; without a task, a single
word is a file to run, and no word at all asks what the program is.

A task takes names and options. An option is written `--long` or `-s`, short
ones may be joined in one word, and a value follows as the next word, behind
an equals sign, or right behind the letter. A value that is the next word must
not look like an option, and no option is given twice. Behind the word `--`
all words are names.

Words are read from the left, and the first one that is wrong, or that asks for
help or for the version, ends the reading.

## Main definitions

* `Command`: What can be asked for.
* `UsageError`: What can be wrong with the words.
* `Detour`: A reading that ends early.
* `Command.parse`: The command that words ask for.
-/

namespace Chip8

/-- How a program is run. -/
structure RunOptions where
  /-- The number of instructions to stop after. -/
  steps : Option Nat
  /-- Characters of the host keyboard whose keys are held throughout. -/
  keys : Option Text
  /-- The terminal is in minimal mode. -/
  minimal : Bool
  /-- The screen is written at the end. -/
  screen : Bool
  deriving DecidableEq, Repr

/-- What the command line can be asked for. -/
inductive Command where
  /-- What the program is. -/
  | about
  | run (name : Text) (options : RunOptions)
  | assemble (name : Text) (destination : Option Text)
  | disassemble (name : Text) (destination : Option Text)
  | check (name : Text)
  | fix (name : Text)
  deriving DecidableEq, Repr

/-- The options of all tasks. -/
inductive Flag where
  | steps | keys | minimal | screen | help | version
  deriving DecidableEq, Repr

namespace Flag

/-- The long form of an option. -/
def long : Flag → Text
  | .steps => "steps".toList
  | .keys => "keys".toList
  | .minimal => "minimal".toList
  | .screen => "screen".toList
  | .help => "help".toList
  | .version => "version".toList

/-- The short form of an option, if it has one. -/
def short? : Flag → Option Char
  | .steps => some 's'
  | .keys => some 'k'
  | .minimal => some 'm'
  | .screen => none
  | .help => some 'h'
  | .version => some 'V'

/-- Whether an option comes with a value. -/
def takesValue : Flag → Bool
  | .steps | .keys => true
  | _ => false

end Flag

/-- What is wrong with the words of a command line. -/
inductive UsageError where
  | unexpectedArgument (word : Text)
  | missingValue (flag : Flag)
  | unexpectedValue (flag : Flag)
  | invalidValue (flag : Flag) (value : Text)
  | repeated (flag : Flag)
  | missingName
  | emptyName
  deriving DecidableEq, Repr

/-- The wording of a usage error. -/
def UsageError.message : UsageError → Text
  | .unexpectedArgument word => "unexpected argument '".toList ++ word ++ "' found".toList
  | .missingValue flag => "a value is required for '--".toList ++ flag.long ++ "'".toList
  | .unexpectedValue flag => "no value is expected for '--".toList ++ flag.long ++ "'".toList
  | .invalidValue flag value =>
      "invalid value '".toList ++ value ++ "' for '--".toList ++ flag.long ++ "'".toList
  | .repeated flag =>
      "the argument '--".toList ++ flag.long ++ "' cannot be used multiple times".toList
  | .missingName => "a file name is required".toList
  | .emptyName => "a file name cannot be empty".toList

/-- Why words are not read to their end. -/
inductive Detour where
  | invalid (e : UsageError)
  | help
  | version
  deriving DecidableEq, Repr

/-- The tasks by name. -/
inductive Task where
  | run | assemble | disassemble | check | fix
  deriving DecidableEq, Repr

namespace Task

/-- The task with a name. -/
def ofName? (word : Text) : Option Task :=
  [ ("run".toList, Task.run), ("assemble".toList, .assemble),
    ("disassemble".toList, .disassemble), ("check".toList, .check),
    ("fix".toList, .fix) ].lookup word

/-- The options that a task takes. -/
def flags : Task → List Flag
  | .run => [.steps, .keys, .minimal, .screen, .help]
  | _ => [.help]

/-- The number of names that a task takes at most. -/
def nameLimit : Task → Nat
  | .assemble | .disassemble => 2
  | _ => 1

end Task

namespace Arguments

/-- The words read so far: names, and options with their values. -/
structure Words where
  names : List Text
  settings : List (Flag × Text)
  deriving DecidableEq, Repr

namespace Words

/-- Nothing has been read. -/
def empty : Words :=
  ⟨[], []⟩

/-- One more name. -/
def addName (limit : Nat) (word : Text) (w : Words) : Except Detour Words :=
  if limit ≤ w.names.length then .error (.invalid (.unexpectedArgument word))
  else if word.isEmpty then .error (.invalid .emptyName)
  else .ok { w with names := w.names ++ [word] }

/-- One more option. -/
def addFlag (flag : Flag) (value : Text) (w : Words) : Except Detour Words :=
  if flag = .help then .error .help
  else if flag = .version then .error .version
  else if w.settings.any (·.1 = flag) then .error (.invalid (.repeated flag))
  else if flag = .steps ∧ Text.unsigned? 64 value = none then
    .error (.invalid (.invalidValue flag value))
  else .ok { w with settings := w.settings ++ [(flag, value)] }

def value? (flag : Flag) (w : Words) : Option Text :=
  w.settings.lookup flag

end Words

/-- Whether a word has the form of an option. A dash alone has not. -/
def looksLikeOption : Text → Bool
  | '-' :: _ :: _ => true
  | _ => false

/-- Options by their short forms, joined in one word. An option at the end may
    still wait for its value, which is then the next word. -/
def readShort (flags : List Flag) : Text → Words → Except Detour (Words × Option Flag)
  | [], w => .ok (w, none)
  | c :: rest, w =>
      match flags.find? (·.short? = some c) with
      | none => .error (.invalid (.unexpectedArgument ['-', c]))
      | some flag =>
          if flag.takesValue then
            match rest with
            | [] => .ok (w, some flag)
            | '=' :: value => (w.addFlag flag value).map (·, none)
            | value => (w.addFlag flag value).map (·, none)
          else
            match w.addFlag flag [] with
            | .error e => .error e
            | .ok w => readShort flags rest w

/-- An option by its long form, with what stands behind an equals sign. It may
    still wait for its value. -/
def readLong (flags : List Flag) (body : Text) (w : Words) :
    Except Detour (Words × Option Flag) :=
  let name := body.takeWhile (· ≠ '=')
  match flags.find? (·.long = name) with
  | none => .error (.invalid (.unexpectedArgument ("--".toList ++ name)))
  | some flag =>
      match flag.takesValue, body.drop name.length with
      | true, [] => .ok (w, some flag)
      | true, _ :: value => (w.addFlag flag value).map (·, none)
      | false, [] => (w.addFlag flag []).map (·, none)
      | false, _ :: _ => .error (.invalid (.unexpectedValue flag))

/-- A word that has the form of an option. -/
def readOption (flags : List Flag) (word : Text) (w : Words) :
    Except Detour (Words × Option Flag) :=
  match word with
  | '-' :: '-' :: body => readLong flags body w
  | _ => readShort flags (word.drop 1) w

/-- The words of a task. An option may be waiting for its value. -/
def readWords (task : Task) : Option Flag → List Text → Words → Except Detour Words
  | some flag, [], _ => .error (.invalid (.missingValue flag))
  | none, [], w => .ok w
  | some flag, word :: rest, w =>
      if looksLikeOption word then .error (.invalid (.missingValue flag))
      else
        match w.addFlag flag word with
        | .error e => .error e
        | .ok w => readWords task none rest w
  | none, word :: rest, w =>
      if word = "--".toList then
        rest.foldlM (fun (w : Words) name => w.addName task.nameLimit name) w
      else if looksLikeOption word then
        match readOption task.flags word w with
        | .error e => .error e
        | .ok (w, waiting) => readWords task waiting rest w
      else
        match w.addName task.nameLimit word with
        | .error e => .error e
        | .ok w => readWords task none rest w

/-- The options of a run. -/
def runOptions (w : Words) : RunOptions where
  steps := (w.value? .steps).bind (Text.unsigned? 64)
  keys := w.value? .keys
  minimal := (w.value? .minimal).isSome
  screen := (w.value? .screen).isSome

/-- Words behind a request for help: nothing, or the name of a task. -/
def readHelp : List Text → Detour
  | [] => .help
  | [word] => if (Task.ofName? word).isSome then .help else .invalid (.unexpectedArgument word)
  | _ :: word :: _ => .invalid (.unexpectedArgument word)

/-- The command of a task. -/
def readTask (task : Task) (words : List Text) : Except Detour Command :=
  match readWords task none words .empty with
  | .error e => .error e
  | .ok w =>
      match w.names with
      | [] => .error (.invalid .missingName)
      | name :: more =>
          .ok <| match task with
            | .run => .run name (runOptions w)
            | .assemble => .assemble name more.head?
            | .disassemble => .disassemble name more.head?
            | .check => .check name
            | .fix => .fix name

end Arguments

namespace Command

/-- The command for a file that is given without a task. -/
def ofNames (w : Arguments.Words) : Command :=
  match w.names with
  | [] => .about
  | name :: _ => .run name (Arguments.runOptions .empty)

/-- Words up to the name of a task. -/
def parseFrom (w : Arguments.Words) : List Text → Except Detour Command
  | [] => .ok (ofNames w)
  | word :: rest =>
      match Task.ofName? word with
      | some task => Arguments.readTask task rest
      | none =>
          if word = "help".toList then .error (Arguments.readHelp rest)
          else if word = "--".toList then
            (rest.foldlM (fun (w : Arguments.Words) name => w.addName 1 name) w).map ofNames
          else if Arguments.looksLikeOption word then
            match Arguments.readOption [.help, .version] word w with
            | .error e => .error e
            | .ok (w, _) => parseFrom w rest
          else
            match w.addName 1 word with
            | .error e => .error e
            | .ok w => parseFrom w rest

/-- The command that the words of a command line ask for. -/
def parse (words : List Text) : Except Detour Command :=
  parseFrom .empty words

end Command

end Chip8
