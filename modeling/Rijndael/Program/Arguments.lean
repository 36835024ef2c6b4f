import Rijndael.Cipher
import Rijndael.Key.Size
import Rijndael.Text.Digits

/-!
# The arguments of the program

The program is called with a command and options. Arguments are read from
left to right on two levels, before the command and after it. Options that
take a value are written `--name value` or `--name=value`, flags are written
`--name`, and the short forms of flags may be put together as in `-vv`.

Options of the whole program may stand on either level, and on the second
level they take precedence. On one level an option with a value may be given
once; the verbosity flag counts. Asking for the version is possible on the
first level only. It is answered as soon as it is read, as is asking for help,
so that what follows is not looked at.

## Main definitions

* `Command` and `Invocation`, what the program is asked to do;
* `Invocation.ofArguments`, which reads the arguments.
-/

namespace Rijndael.Program

/-! ## What is asked for -/

/-- What the program is to do. -/
inductive Command where
  /-- Transforms one block under one key, both given in hexadecimal. -/
  | transform (d : Direction) (keyText blockText : String)
  | knownAnswers
  /-- Decrypts what was encrypted, for generated keys and blocks. -/
  | check (samples : Nat) (seed : Option UInt64) (size : KeySize)
  | demo (seed : Option UInt64)
  deriving DecidableEq

/-- A call of the program. -/
structure Invocation where
  /-- The number of contexts that may be live at once, if that is limited. -/
  maxContexts : Option Nat
  /-- How often more log entries were asked for. -/
  verbosity : Nat
  command : Command
  deriving DecidableEq

/-- Why the arguments lead to no invocation. -/
inductive Halt where
  | usage
  | version
  | help
  deriving DecidableEq, Repr

/-! ## Options -/

/-- An option that takes a value. -/
inductive OptionName where
  | maxContexts
  | keyHex
  | blockHex
  | samples
  | seed
  | keyBits
  deriving DecidableEq, Repr

/-- An option together with its value. -/
inductive Setting where
  | maxContexts (limit : UInt64)
  | keyHex (text : String)
  | blockHex (text : String)
  | samples (count : UInt64)
  | seed (value : UInt64)
  | keyBits (size : KeySize)
  deriving DecidableEq

def Setting.name : Setting → OptionName
  | maxContexts _ => .maxContexts
  | keyHex _ => .keyHex
  | blockHex _ => .blockHex
  | samples _ => .samples
  | seed _ => .seed
  | keyBits _ => .keyBits

namespace OptionName

/-- How an option is written, after two dashes. -/
def text : OptionName → String
  | maxContexts => "max-contexts"
  | keyHex => "key-hex"
  | blockHex => "block-hex"
  | samples => "samples"
  | seed => "seed"
  | keyBits => "key-bits"

/-- The setting that gives an option the value written in a text. -/
def read? (name : OptionName) (value : String) : Option Setting :=
  match name with
  | maxContexts => (Text.number64? value).map .maxContexts
  | keyHex => some (.keyHex value)
  | blockHex => some (.blockHex value)
  | samples => (Text.number64? value).map .samples
  | seed => (Text.number64? value).map .seed
  | keyBits => (KeySize.all.find? fun size => toString size.bits = value).map .keyBits

end OptionName

/-- An option without a value. -/
inductive Flag where
  | verbose
  | help
  | version
  deriving DecidableEq, Repr

namespace Flag

/-- How a flag is written, after two dashes. -/
def text : Flag → String
  | verbose => "verbose"
  | help => "help"
  | version => "version"

/-- The short form of a flag, after one dash. -/
def short : Flag → Char
  | verbose => 'v'
  | help => 'h'
  | version => 'V'

end Flag

/-! ## One level of arguments -/

/-- What may be written on a level. -/
structure Level where
  options : List OptionName
  flags : List Flag

/-- What one argument is. -/
inductive Argument where
  /-- An option, with its value if that is written in the same argument. -/
  | option (name : OptionName) (value : Option String)
  /-- Flags; those in a row of short forms that are not known are blank. -/
  | flags (flags : List (Option Flag))
  /-- Two dashes alone, which end the options. -/
  | endOfOptions
  /-- An argument that does not start with a dash, or a dash alone. -/
  | word
  /-- An option that is not known, or a flag with a value. -/
  | unknown

/-- Tells what an argument is on a level. -/
def Level.classify (level : Level) (argument : String) : Argument :=
  match argument.toList with
  | ['-', '-'] => .endOfOptions
  | '-' :: '-' :: body =>
    let name := String.ofList (body.takeWhile (· != '='))
    let value := match body.dropWhile (· != '=') with
      | [] => none
      | _ :: value => some (String.ofList value)
    match level.options.find? fun option => option.text = name with
    | some option => .option option value
    | none =>
      match level.flags.find? fun flag => flag.text = name, value with
      | some flag, none => .flags [some flag]
      | _, _ => .unknown
  | '-' :: first :: rest =>
    .flags ((first :: rest).map fun c => level.flags.find? fun flag => flag.short = c)
  | _ => .word

/-- What the arguments of a level have said. -/
structure Given where
  settings : List Setting
  verbosity : Nat

namespace Given

/-- Nothing was said. -/
def nothing : Given := ⟨[], 0⟩

/-- Adds the setting of an option, which must not have been set before. -/
def set (given : Given) (name : OptionName) (value : String) : Except Halt Given :=
  match name.read? value with
  | some setting =>
    if given.settings.any fun old => old.name = name then
      .error .usage
    else
      .ok { given with settings := setting :: given.settings }
  | none => .error .usage

/-- Obeys flags in order. -/
def obey (given : Given) : List (Option Flag) → Except Halt Given
  | [] => .ok given
  | some .verbose :: rest => obey { given with verbosity := given.verbosity + 1 } rest
  | some .version :: _ => .error .version
  | some .help :: _ => .error .help
  | none :: _ => .error .usage

end Given

/-- Whether an argument can be the value of the option before it. -/
def isValue (argument : String) : Bool :=
  match argument.toList with
  | '-' :: _ :: _ => false
  | _ => true

/-- Reads the arguments of a level up to the first that is a word, and returns
that and all after it unread. `awaiting` is the option whose value comes
next. -/
def Level.read (level : Level) (given : Given) (awaiting : Option OptionName) :
    List String → Except Halt (Given × List String)
  | [] => if awaiting.isNone then .ok (given, []) else .error .usage
  | argument :: rest =>
    match awaiting with
    | some name =>
      if isValue argument then do
        level.read (← given.set name argument) none rest
      else
        .error .usage
    | none =>
      match level.classify argument with
      | .option name none => level.read given (some name) rest
      | .option name (some value) => do level.read (← given.set name value) none rest
      | .flags flags => do level.read (← given.obey flags) none rest
      | .endOfOptions => if rest.isEmpty then .ok (given, []) else .error .usage
      | .word => .ok (given, argument :: rest)
      | .unknown => .error .usage

/-! ## Commands -/

/-- The name of a command. -/
inductive CommandName where
  | enc
  | dec
  | kat
  | check
  | demo
  deriving DecidableEq, Repr

namespace CommandName

/-- How a command is written. -/
def text : CommandName → String
  | enc => "enc"
  | dec => "dec"
  | kat => "kat"
  | check => "check"
  | demo => "demo"

/-- All commands. -/
def all : List CommandName := [enc, dec, kat, check, demo]

/-- The command that a word names. -/
def ofText? (word : String) : Option CommandName := all.find? fun name => name.text = word

/-- The options of a command. -/
def options : CommandName → List OptionName
  | enc | dec => [.keyHex, .blockHex]
  | kat => []
  | check => [.samples, .seed, .keyBits]
  | demo => [.seed]

/-- The level of arguments after a command. -/
def level (name : CommandName) : Level := ⟨.maxContexts :: name.options, [.verbose, .help]⟩

/-- The command with its settings, unless a setting is missing. -/
def command? (name : CommandName) (settings : List Setting) : Option Command :=
  let keyText := settings.findSome? fun | .keyHex text => some text | _ => none
  let blockText := settings.findSome? fun | .blockHex text => some text | _ => none
  let samples := settings.findSome? fun | .samples count => some count.toNat | _ => none
  let seed := settings.findSome? fun | .seed value => some value | _ => none
  let size := settings.findSome? fun | .keyBits size => some size | _ => none
  match name with
  | enc => do return .transform .encrypt (← keyText) (← blockText)
  | dec => do return .transform .decrypt (← keyText) (← blockText)
  | kat => some .knownAnswers
  | check => some (.check (samples.getD 64) seed (size.getD .aes128))
  | demo => some (.demo seed)

end CommandName

/-! ## All arguments -/

/-- The level of arguments before the command. -/
def firstLevel : Level := ⟨[.maxContexts], [.verbose, .help, .version]⟩

/-- The words after which help is shown: the command `help`, which may be
followed by one command. -/
def asksForHelp : List String → Bool
  | ["help"] => true
  | ["help", word] => word = "help" || (CommandName.ofText? word).isSome
  | _ => false

/-- The limit among the settings. -/
def limit? (settings : List Setting) : Option Nat :=
  settings.findSome? fun | .maxContexts limit => some limit.toNat | _ => none

/-- The invocation that the arguments of the program describe. -/
def Invocation.ofArguments (arguments : List String) : Except Halt Invocation := do
  let (outer, words) ← firstLevel.read .nothing none arguments
  if asksForHelp words then
    throw .help
  match words with
  | [] => throw .usage
  | word :: rest =>
    let some name := CommandName.ofText? word | throw .usage
    let (inner, surplus) ← name.level.read .nothing none rest
    let some command := name.command? inner.settings | throw .usage
    if surplus.isEmpty then
      return {
        maxContexts := (limit? inner.settings).or (limit? outer.settings)
        verbosity := if inner.verbosity = 0 then outer.verbosity else inner.verbosity
        command }
    else
      throw .usage

end Rijndael.Program
