import Mathlib.Data.List.DropRight
import Udroid.Devil.Quote

/-!
# Commands on a device

`DeviceUtils.RunShellCommand` builds a line for the shell of a device from the arguments of a
command, and `AdbWrapper.Shell` sends it and reads the exit status off what comes back.

- `Adb.runShell`: one line, and the status behind its output.
- `buildCommand`: the line for a command, a directory, an environment and a user.
- `Adb.runShellCommand`: the whole function, with its detours over temporary files.
-/

namespace Udroid.Devil

open Udroid.Unix Udroid.Unix.Shell

/-! ## Section 1: Texts as Python reads them -/

/-- What `strip` takes off a text. -/
def isSpace (c : Char) : Bool := " \t\n\r\x0b\x0c".toList.contains c

def rstrip (text : Text) : Text := text.rdropWhile isSpace

/-- `int(text)`. -/
def parseInt (text : Text) : Option Int :=
  let digits (ds : Text) : Option Int :=
    if ds ≠ [] ∧ ds.all Char.isDigit then some (Nat.ofDigitChars 10 ds 0) else none
  match rstrip (text.dropWhile isSpace) with
  | '-' :: ds => (digits ds).map (- ·)
  | '+' :: ds => digits ds
  | ds => digits ds

/-- What stands before the last `c` and behind it. -/
def splitLast (c : Char) : Text → Option (Text × Text)
  | [] => none
  | d :: rest =>
      match splitLast c rest with
      | some (before, after) => some (d :: before, after)
      | none => if d = c then some ([], rest) else none

/-- `text.splitlines()`, with the line so far. -/
def splitLinesFrom (line : Text) : Text → List Text
  | [] => if line = [] then [] else [line]
  | '\r' :: '\n' :: rest => line :: splitLinesFrom [] rest
  | c :: rest =>
      if c = '\n' ∨ c = '\r' then line :: splitLinesFrom [] rest
      else splitLinesFrom (line ++ [c]) rest

def splitLines (text : Text) : List Text := splitLinesFrom [] text

/-! ## Section 2: The functions -/

inductive Failure where
  /-- `KeyError`. -/
  | keyError (key : Text)
  /-- `AdbShellCommandFailedError`; without a status when there was none in the output. -/
  | shellCommand (command output : Text) (status : Option Int)
  /-- `CommandFailedError`, when more than one line came where one was expected. -/
  | moreLines (output : List Text)
  /-- A file that could not be pulled. -/
  | pull (path : Text)
  /-- `ValueError`, when a text is split at an empty one. -/
  | emptySeparator
deriving DecidableEq

/-- What the host does with a device; `none` is for `adb` itself failing. -/
structure Adb (σ : Type) where
  /-- What `adb shell` prints. -/
  shell : Text → σ → Option (Text × σ)
  /-- `adb push`, of a file with these contents. -/
  push : Text → Text → σ → σ
  /-- The contents of a file that `adb pull` brings. -/
  pull : Text → σ → Option Text

/-- What a function returns or raises, and the state of the device behind it. -/
abbrev Result (σ α : Type) := Option (Except Failure α × σ)

variable {σ : Type}

/-- The end of `AdbWrapper.Shell`: the status is behind the last percent sign. -/
def checkStatus (command output : Text) : Except Failure Text :=
  let found := (splitLast '%' output).getD (output, [])
  match parseInt found.2 with
  | none => .error (.shellCommand command output none)
  | some status =>
      if status ≠ 0 then .error (.shellCommand command found.1 (some status)) else .ok found.1

/-- The line that `AdbWrapper.Shell` sends. -/
def statusLine (command : Text) : Text :=
  "( ".toList ++ rstrip command ++ " );echo %$?".toList

/-- `AdbWrapper.Shell`, where the status is to be 0. -/
def Adb.runShell (adb : Adb σ) (command : Text) (w : σ) : Result σ Text :=
  (adb.shell (statusLine command) w).map fun r => (checkStatus command r.1, r.2)

/-- The name of a `DeviceTempFile`. -/
def tempFile (random : Nat) (suffix : Text) : Text :=
  "/data/local/tmp/temp_file-".toList ++ Nat.toDigits 16 random ++ suffix

/-- `DeviceTempFile.close`, which expects no status. -/
def Adb.deleteTemp (adb : Adb σ) (path : Text) (w : σ) : Option σ :=
  (adb.shell ("rm -f ".toList ++ singleQuote path) w).map Prod.snd

/-- The options of `RunShellCommand`.  An option that is not given is an empty text or list. -/
structure Options where
  checkReturn : Bool
  cwd : Text
  env : List (Text × Text)
  runAs : Text
  asRoot : Bool
  singleLine : Bool
  largeOutput : Bool
  rawOutput : Bool

/-- The random numbers of the temporary files. -/
structure Random where
  script : Nat
  output : Nat
  secondScript : Nat

/-- What `RunShellCommand` knows about the device. -/
structure Known where
  /-- `NeedsSU`. -/
  needsSu : Bool
  /-- `build_version_sdk` is that of Marshmallow or above. -/
  marshmallow : Bool

/-- `handle_check_return`. -/
def Adb.handleCheckReturn (adb : Adb σ) (o : Options) (cmd : Text) (w : σ) : Result σ Text :=
  (adb.runShell cmd w).map fun r =>
    match r.1 with
    | .error (.shellCommand command output status) =>
        if o.checkReturn then (.error (.shellCommand command output status), r.2)
        else (.ok output, r.2)
    | res => (res, r.2)

/-- `_MAX_ADB_COMMAND_LENGTH`. -/
def maxAdbCommandLength : Nat := 512

/-- `handle_large_command`. -/
def Adb.handleLargeCommand (adb : Adb σ) (o : Options) (random : Nat) (cmd : Text) (w : σ) :
    Result σ Text :=
  if cmd.length < maxAdbCommandLength then adb.handleCheckReturn o cmd w
  else
    let script := tempFile random ".sh".toList
    (adb.handleCheckReturn o ("sh ".toList ++ singleQuote script) (adb.push script cmd w)).bind
      fun r => (adb.deleteTemp script r.2).map fun w' => (r.1, w')

/-- `handle_large_output` in large output mode. -/
def Adb.withOutputFile (adb : Adb σ) (o : Options) (random output : Nat) (cmd : Text) (w : σ) :
    Result σ Text :=
  let file := tempFile output []
  (adb.handleLargeCommand o random ("( ".toList ++ cmd ++ " )>".toList ++ file) w).bind fun r =>
    let contents := match r.1 with
      | .error e => .error e
      | .ok _ => (adb.pull file r.2).elim (.error (.pull file)) .ok
    (adb.deleteTemp file r.2).map fun w' => (contents, w')

/-- `handle_large_output`. -/
def Adb.handleLargeOutput (adb : Adb σ) (o : Options) (random : Random) (cmd : Text) (w : σ) :
    Result σ Text :=
  if o.largeOutput then adb.withOutputFile o random.script random.output cmd w
  else
    (adb.handleLargeCommand o random.script cmd w).bind fun r =>
      match r.1 with
      -- without a status the output was cut off, so the command is run again
      | .error (.shellCommand _ _ none) =>
          adb.withOutputFile o random.secondScript random.output cmd r.2
      | res => some (res, r.2)

/-- `_VALID_SHELL_VARIABLE`; the end of its pattern also matches before a last newline. -/
def validShellVariable (key : Text) : Bool :=
  isName key || (key.getLast? == some '\n' && isName key.dropLast)

/-- `env_quote`. -/
def envQuote (kv : Text × Text) : Text := kv.1 ++ '=' :: doubleQuote kv.2

/-- `_Su`. -/
def su (known : Known) (command : Text) : Text :=
  if known.marshmallow then "su 0 ".toList ++ command else "su -c ".toList ++ command

/-- What `RunShellCommand` makes of a command before it is sent. -/
def buildCommand (known : Known) (o : Options) (cmd : Text) : Except Failure Text :=
  match o.env.find? fun kv => !validShellVariable kv.1 with
  | some kv => .error (.keyError kv.1)
  | none =>
      let cmd := if o.env = [] then cmd
        else [' '].intercalate (o.env.map envQuote) ++ ' ' :: cmd
      let cmd := if o.cwd = [] then cmd
        else "cd ".toList ++ singleQuote o.cwd ++ " && ".toList ++ cmd
      let cmd := if o.runAs = [] then cmd
        else "run-as ".toList ++ singleQuote o.runAs ++ " sh -c ".toList ++ singleQuote cmd
      .ok (if o.asRoot ∧ known.needsSu then su known ("sh -c ".toList ++ singleQuote cmd) else cmd)

/-- What `RunShellCommand` returns. -/
inductive Output where
  | raw (output : Text)
  | lines (output : List Text)
  | line (output : Text)
deriving DecidableEq

/-- The end of `RunShellCommand`. -/
def finish (o : Options) (output : Text) : Except Failure Output :=
  if o.rawOutput then .ok (.raw output)
  else if o.singleLine then
    match splitLines output with
    | [] => .ok (.line [])
    | [line] => .ok (.line line)
    | ls => .error (.moreLines ls)
  else .ok (.lines (splitLines output))

/-- `RunShellCommand` with a string, from the second step on. -/
def Adb.runCommand (adb : Adb σ) (known : Known) (o : Options) (random : Random) (cmd : Text)
    (w : σ) : Result σ Output :=
  match buildCommand known o cmd with
  | .error e => some (.error e, w)
  | .ok cmd => (adb.handleLargeOutput o random cmd w).map fun r => (r.1.bind (finish o), r.2)

/-- `RunShellCommand` with a sequence of arguments. -/
def Adb.runShellCommand (adb : Adb σ) (known : Known) (o : Options) (random : Random)
    (argv : List Text) (w : σ) : Result σ Output :=
  adb.runCommand known o random ([' '].intercalate (argv.map singleQuote)) w

end Udroid.Devil
