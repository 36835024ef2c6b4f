import Rijndael.Program.Commands

/-!
# Running the program

From the arguments, the log setting of the environment and some random bytes
to all that a run of the program shows: its exit code, its output, its error
report and its log.
-/

namespace Rijndael.Program

/-- What a run of the program shows. -/
structure Report where
  exitCode : UInt8
  output : String
  errors : String
  log : List Entry

/-- The exit code for arguments that make no sense. -/
def usageExitCode : UInt8 := 2

/-- The report when the arguments lead to no invocation. The texts that explain
the arguments, as help or after a mistake, belong to the reader of arguments and
are not part of the report. -/
def Halt.report : Halt → Report
  | usage => ⟨usageExitCode, "", "", []⟩
  | version => ⟨0, "rijndael 0.1.0\n", "", []⟩
  | help => ⟨0, "", "", []⟩

/-- The log entries that are shown: those that the setting of the environment
states, or warnings and errors if there is no setting. Verbosity takes the place
of the rule for the whole program and leaves the rules for parts of it. Where
there is no rule at all, errors are shown. -/
def logFilter (verbosity : Nat) (setting : Option String) : LogFilter :=
  let stated := (setting.map LogFilter.ofSetting).getD (.upTo .warn)
  let filter := match verbosity with
    | 0 => stated
    | 1 => stated.set ⟨none, .upTo .debug⟩
    | _ => stated.set ⟨none, .upTo .trace⟩
  if filter.rules.isEmpty then .upTo .error else filter

/-- The lines of a text, each ended by a line feed. -/
def unlines (lines : List String) : String := String.join (lines.map fun line => line ++ "\n")

/-- Carries out an invocation on a store of its own. -/
def Invocation.run (i : Invocation) (setting : Option String) (random : Vector UInt8 32) :
    Report :=
  let console := Console.start (.empty i.maxContexts) (logFilter i.verbosity setting)
  match (i.command.action random).run console with
  | .ok () console => ⟨0, unlines console.printed.toList, "", console.log.toList⟩
  | .error failure console =>
    ⟨1, unlines console.printed.toList, failure.report, console.log.toList⟩

def run (arguments : List String) (setting : Option String) (random : Vector UInt8 32) : Report :=
  match Invocation.ofArguments arguments with
  | .ok i => i.run setting random
  | .error halt => halt.report

end Rijndael.Program
