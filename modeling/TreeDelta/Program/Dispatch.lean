import TreeDelta.Program.Run
/-!
# One command for all programs

The first word of the common command names the program that gets the other words, or asks for
the version, for help or for the settings of all programs.
-/

namespace TreeDelta

namespace Program

def word : Program → Text
  | update => "update"
  | mergeDiff => "merge-diff"

end Program

namespace Dispatch

def usage : Text :=
  "Usage: deltaupdate [OPTIONS]\n\n" ++
  "OPTIONS: -h, --version, --config, COMMANDS\x7b" ++
    Text.intercalate ", " (Program.all.map Program.word) ++ "\x7d\n\n" ++
  "Examples: deltaupdate --version\n" ++
  "          deltaupdate update -h\n" ++
  "          deltaupdate update source.json commands.json\n" ++
  "          deltaupdate merge-diff before.json after.json first.json second.json"

def showSettings : Run Unit := do
  Run.printError "All available config options, and their current values:\n\n"
  for p in Program.all do
    Run.printError (← Run.need (p.settingsText (← get).settings))
    Run.printError "\n"

/-- Runs the common command (`main_dispatch`). -/
def run : List Text → Run Nat
  | [] => throw (.text ("Option missing.\n\n" ++ usage))
  | word :: rest =>
    match Program.all.find? fun p => p.word = word with
    | some p => p.run rest
    | none => do
      if word = "--version" then throw (.text Program.version)
      else if word = "-h" ∨ word = "--help" then throw (.text usage)
      else if word = "--config" then
        showSettings
        return 1
      else throw (.text ("Unrecognized command '" ++ word ++ "'\n\n" ++ usage ++ "."))

/-- Runs the command of a name: a program, or else the common command. -/
def command (name : Text) : List Text → Run Nat :=
  match Program.all.find? fun p => p.name = name with
  | some p => p.run
  | none => run

/-- The end of a run and all that it did. -/
def outcome (console : Console) (steps : Run Nat) : Exit × Console :=
  match steps.run.run console with
  | (.ok n, console) => (.code n, console)
  | (.error ended, console) => (ended, console)

end Dispatch

end TreeDelta
