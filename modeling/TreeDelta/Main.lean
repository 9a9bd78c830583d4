import TreeDelta.Program.Dispatch
import TreeDelta.Program.Streams
import TreeDelta.Settings.File
/-!
# The command

Reads the files that the command line may name, runs the command on them as a value, and
carries out what the run asks for.
-/

namespace TreeDelta.Main

def readIfThere (name : String) : IO (Option Text) := do
  try return some (Text.ofString (← IO.FS.readFile name))
  catch _ => return none

def directoryIsThere (name : String) : IO Bool := do
  try (← IO.FS.realPath name).isDir
  catch _ => return false

/-- The words of a command line, and what stands behind an equals sign or a short name. -/
def possibleNames (words : List Text) : List Text :=
  words.flatMap fun word =>
    [word, word.drop 2] ++ ((Grammar.splitEquals word).map fun (_, behind) => [behind]).getD []

/-- The names of the directories on the way to a name, and the name. -/
def waysTo (name : Text) : List Text :=
  let parts := name.splitOn (.char '/')
  (List.range parts.length).map fun n => Text.intercalate "/" (parts.take (n + 1))

def lookAt (disk : Disk) (name : Text) : IO Disk := do
  match name.string?, disk.locate name with
  | some path, .ok place =>
    if ← directoryIsThere path then
      return { disk with directories := place :: disk.directories }
    match ← readIfThere path with
    | some text => return disk.put place text
    | none => return disk
  | _, _ => return disk

/-- The files and directories that a command line may name. -/
def diskFor (words : List Text) : IO Disk := do
  let working := Disk.placeOf (← IO.currentDir).toString
  ((possibleNames words).flatMap waysTo).foldlM lookAt ⟨working, [], []⟩

/-- The directories of settings files that the environment names, the most important first. -/
def configPath : IO (List Text) := do
  let path := ((← IO.getEnv "JUPYTER_CONFIG_PATH").getD "").splitOn ":"
  let user := ((← IO.getEnv "JUPYTER_CONFIG_DIR").map fun name => [name]).getD []
  return ((path ++ user).filter (!·.isEmpty)).map Text.ofString

def pathTo (name directory : Text) : Text := directory ++ "/" ++ name

/-- Where settings come from, with the files as they are now. -/
def settingsIn (working : Text) : IO Settings.Source := do
  let configPath ← configPath
  let name := Settings.baseName ++ ".json"
  let texts ← (working :: configPath).mapM fun directory => do
    let text ← ((pathTo name directory).string?.map readIfThere).getD (return none)
    return (pathTo name directory, text)
  let contents (name directory : Text) : Option Text := (texts.lookup (pathTo name directory)).bind id
  return { load := Settings.fileLoader contents, working, configPath }

def put (out : IO.FS.Stream) (text : Text) : IO Unit := do
  let stream : Stream := ⟨.utf8 false, "strict"⟩
  match (stream.prepared false false).bytes text with
  | .ok bytes => out.write ⟨bytes.toArray⟩
  | .error _ => return ()

/-- A record of the log: the first letter of its level, and its text. -/
def logLine (entry : LogEntry) : Text :=
  "[" ++ entry.level.name.take 1 ++ "] " ++ entry.text ++ "\n"

def save (changes : List (Location × Text)) : IO Unit :=
  changes.forM fun (place, text) => do
    if let some path := (Disk.fullName place).string? then
      IO.FS.writeFile path (text.string?.getD "")

/-- Runs the common command on the words of a command line. -/
def run (words : List Text) : IO UInt32 := do
  let disk ← diskFor words
  let settings ← settingsIn (Disk.fullName disk.working)
  let (ended, console) :=
    Dispatch.outcome { disk, settings, palette := .standard } (Dispatch.run words)
  put (← IO.getStdout) console.stdout
  let errors ← IO.getStderr
  put errors console.stderr
  put errors (Text.joined (console.log.map logLine))
  save (console.disk.changesFrom disk)
  match ended with
  | .code n => return n.toUInt32
  | .text s =>
    put errors (s ++ "\n")
    return 1
  | .fault f =>
    put errors ("Failed. " ++ f.message ++ "\n")
    return 1
  | .disk _ =>
    put errors "A file cannot be read or written.\n"
    return 1

end TreeDelta.Main

def main (words : List String) : IO UInt32 := TreeDelta.Main.run (words.map TreeDelta.Text.ofString)
