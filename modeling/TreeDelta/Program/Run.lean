import TreeDelta.Program.Disk
import TreeDelta.Program.Options
import TreeDelta.Json.Reader
import TreeDelta.Settings.Basic
import TreeDelta.Update.Apply
import TreeDelta.Update.Factory
import TreeDelta.Delta.Document
import TreeDelta.Delta.Merge
import TreeDelta.Report.Delta
/-!
# Running the programs

A run is a value: what it printed, the files as it left them, its log, and how it ended. The
programs are steps in the monad `Run`, which stops at the first end and keeps all that was
done before it.
-/

namespace TreeDelta

inductive Exit where
  | code (n : Nat)
  /-- With a text for the user. -/
  | text (s : Text)
  /-- With a fault that the program does not handle. -/
  | fault (f : Fault)
  /-- With a file that cannot be read or written. -/
  | disk (f : DiskFault)

/-- What a run has done so far, and what it finds. -/
structure Console where
  stdout : Text := []
  stderr : Text := []
  disk : Disk
  settings : Settings.Source
  palette : Report.Palette
  log : List LogEntry := []
  level : Level := .info

abbrev Run := ExceptT Exit (StateM Console)

namespace Run

def print (text : Text) : Run Unit := modify fun c => { c with stdout := c.stdout ++ text }

def printError (text : Text) : Run Unit := modify fun c => { c with stderr := c.stderr ++ text }

/-- Adds the records that the program's level lets through. -/
def report (log : List LogEntry) : Run Unit :=
  modify fun c => { c with log := c.log ++ shownAt c.level log }

def need {α : Type} : Except Fault α → Run α
  | .ok a => pure a
  | .error f => throw (.fault f)

def needFile {α : Type} : Except DiskFault α → Run α
  | .ok a => pure a
  | .error f => throw (.disk f)

/-- The names of files that are there. The first one that is missing ends the run with 1, and
so does, with a fault, an argument that is no name. -/
def requireFiles : List (Option Text) → Run (List Text)
  | [] => pure []
  | none :: _ => throw (.fault (.wrongType .list))
  | some name :: rest => do
    if !(← get).disk.contains name then
      print ("Missing file " ++ name ++ "\n")
      throw (.code 1)
    return name :: (← requireFiles rest)

/-- Reads a value from a file; `choice` says what the null file gives. -/
def readFile (run : Nat) (name choice : Text) : Run Value := do
  if name = nullFile then need (readNothing run (.str choice))
  else need (readJson run (← needFile ((← get).disk.read name)))

def writeText (name text : Text) : Run Unit := do
  let disk ← needFile ((← get).disk.write name text)
  modify fun c => { c with disk := disk }

/-- Writes a value to a file. The file is emptied first, and stays so if writing fails. -/
def writeFile (name : Text) (indent : Except Fault (Option Int)) (v : Value) : Run Unit := do
  writeText name []
  writeText name (← need (do writeJson (← indent) v))

end Run

/-! ## Options -/

def Level.choices : List (Text × Level) :=
  [("DEBUG", .debug), ("INFO", .info), ("WARN", .warning), ("ERROR", .error),
    ("CRITICAL", .critical)]

namespace Program

/-- The switches of both programs (`add_generic_args`, `add_output_args`). -/
def commonSwitches : List Switch :=
  [⟨["-h", "--help"], .stop .help⟩,
   ⟨["--version"], .stop .version⟩,
   ⟨["--config"], .stop .settings⟩,
   ⟨["--log-level"], .choice "log_level" (Level.choices.map (·.1))⟩,
   ⟨["-o", "--output"], .text "output"⟩,
   ⟨["--indent"], .number "indent"⟩,
   ⟨["--no-color"], .flag "color" false⟩,
   ⟨["--snip-base64"], .flag "snip_base64" true⟩]

def grammar : Program → Grammar
  | update =>
    ⟨commonSwitches ++
      [⟨["--diff-output"], .text "diff_output"⟩, ⟨["--no-diff"], .flag "show_diff" false⟩],
     ["source", "commands"]⟩
  | mergeDiff => ⟨commonSwitches, ["before", "after", "stored", "merging"]⟩

/-- The values of the switches that are not used, before any settings. -/
def defaults : List (String × Value) :=
  [("log_level", .str "INFO"), ("output", .null), ("indent", .int 2), ("color", .bool true),
   ("snip_base64", .bool false), ("diff_output", .null), ("show_diff", .bool true)]

/-- The defaults with the settings in their places. -/
def defaultsWith (settings : List (Key × Value)) : List (String × Value) :=
  defaults.map fun (dest, v) => (dest, (Fields.get? (.str dest) settings).getD v)

end Program

/-- The values of a program's options: those given, the latest first, and the defaults. -/
structure Options where
  given : List (String × Value)
  defaults : List (String × Value)

namespace Options

def get (o : Options) (dest : String) : Value :=
  (((o.given ++ o.defaults).find? fun (name, _) => name = dest).map (·.2)).getD .null

/-- The log level, if one is given; settings do not change it. -/
def level? (o : Options) : Option Level :=
  ((o.given.find? fun (name, _) => name = "log_level").map (·.2)).bind fun v =>
    Level.choices.lookup v.plain

def file? (o : Options) (dest : String) : Except Fault (Option Text) :=
  match o.get dest with
  | .str name => .ok (if name.isEmpty then none else some name)
  | v => if v.isTruthy then .error (.wrongType v.type) else .ok none

def indent (o : Options) : Except Fault (Option Int) :=
  match o.get "indent" with
  | .null => .ok none
  | .int i => .ok (some i)
  | .bool b => .ok (some (if b then 1 else 0))
  | v => .error (.wrongType v.type)

/-- The style of reports. Colour is on or off, as a truth value or as 1 or 0. -/
def style (palette : Report.Palette) (o : Options) : Except Fault Report.Style :=
  let color := o.get "color"
  let snip := (o.get "snip_base64").isTruthy
  if color.equal (.bool true) then .ok (.of palette true snip)
  else if color.equal (.bool false) then .ok (.of palette false snip)
  else .error (if color.toKey?.isSome then .unknownName else .unhashable)

end Options

namespace Program

def version : Text := "0.3.0"

def settingsText (source : Settings.Source) (p : Program) : Except Fault Text := do
  let shown ← Settings.displayed (← Settings.build source true p)
  .ok (Report.mapping false [] [(.str p.ownSection.name, .map default shown)])

/-- The settings that stand in for unused switches (`ConfigBackedParser`); documents that cannot be
read are left out of account. -/
def settingsOrNone (source : Settings.Source) (p : Program) : Except Fault (List (Key × Value)) :=
  match Settings.build source false p with
  | .error .malformedJson | .error .longNumber | .error .badSettings => .ok []
  | r => r

def parseWords (p : Program) (words : List Text) : Run (Options × List (Option Text)) := do
  let source := (← get).settings
  let settings ← Run.need (p.settingsOrNone source)
  match p.grammar.parse (defaultsWith settings) words with
  | .misuse => throw (.code 2)
  | .wordless => throw (.fault (.wrongType .list))
  | .stop .help => throw (.code 0)
  | .stop .version =>
    Run.print (p.name ++ " " ++ version ++ "\n")
    throw (.code 0)
  | .stop .settings =>
    Run.printError (← Run.need (p.settingsText source))
    throw (.code 1)
  | .run given defaults arguments => pure (⟨given, defaults⟩, arguments)

def showDelta (o : Options) (d : Delta) : Run Unit := do
  let style ← Run.need (o.style (← get).palette)
  let (text, fault) := Report.delta style [] d
  Run.print text
  if let some f := fault then throw (.fault f)
  Run.print (← Run.need (Report.summary style d))

/-- Shows a delta, or says that there is none. -/
def showDeltaOrNone (o : Options) (d : Delta) : Run Unit :=
  if d.isNothing then Run.print "No changes.\n" else showDelta o d

/-- The identities of what a run reads and makes. -/
inductive Origin where
  | firstFile | secondFile | thirdFile | fourthFile | result
deriving DecidableEq, Repr

def Origin.number : Origin → Nat
  | firstFile => 1
  | secondFile => 2
  | thirdFile => 3
  | fourthFile => 4
  | result => 5

/-- A value as printed; text needs no indentation. -/
def printedJson (o : Options) (v : Value) : Except Fault Text := do
  match v with
  | .str _ => jsonText none v
  | _ => jsonText (← o.indent) v

/-- Updates the value of one file by the commands of another (`main_update`). -/
def runUpdate (o : Options) (source commands : Text) : Run Nat := do
  let value ← Run.readFile Origin.firstFile.number source "empty"
  let raw ← Run.readFile Origin.secondFile.number commands "empty"
  Run.report (updateLog raw)
  match Value.update (Factory.functions []) Origin.result.number value raw with
  | .error f@(.command _) =>
    Run.report [⟨.error, "Invalid commands in " ++ commands ++ ": " ++ f.message⟩]
    return 1
  | .error f => throw (.fault f)
  | .ok outcome =>
    if let some name := ← Run.need (o.file? "diff_output") then
      Run.writeFile name o.indent (outcome.delta.toDocument Origin.result.number [])
    match ← Run.need (o.file? "output") with
    | some name => Run.writeFile name o.indent outcome.value
    | none => Run.print ((← Run.need (printedJson o outcome.value)) ++ "\n")
    if (o.get "show_diff").isTruthy then showDeltaOrNone o outcome.delta
    return 0

def readDelta (origin : Origin) (name : Text) : Run (Except Fault Delta) := do
  return Delta.ofDocument (← Run.readFile origin.number name "none")

/-- A fault of deltas, which the program reports; it ends with any other. -/
def refuse (stored merging : Text) (f : Fault) : Run Nat := do
  match f with
  | .delta _ | .mergeOrder _ _ =>
    Run.report (f.mergeLog ++
      [⟨.error, "Cannot merge " ++ merging ++ " into " ++ stored ++ ": " ++ f.message⟩])
    return 1
  | f => throw (.fault f)

/-- Merges the deltas of two files (`main_merge_diff`), given the values before and after both
updates. -/
def runMerge (o : Options) (before after stored merging : Text) : Run Nat := do
  let old ← Run.readFile Origin.firstFile.number before "empty"
  let new ← Run.readFile Origin.secondFile.number after "empty"
  match ← readDelta .thirdFile stored with
  | .error f => refuse stored merging f
  | .ok earlier =>
    match ← readDelta .fourthFile merging with
    | .error f => refuse stored merging f
    | .ok later =>
      match earlier.merge old new later with
      | .error e => refuse stored merging e.fault
      | .ok net =>
        match ← Run.need (o.file? "output") with
        | some name => Run.writeFile name o.indent (net.toDocument Origin.result.number [])
        | none => showDeltaOrNone o net
        return 0

def run (p : Program) (words : List Text) : Run Nat := do
  let (o, arguments) ← p.parseWords words
  if let some level := o.level? then modify fun c => { c with level := level }
  match p, ← Run.requireFiles arguments with
  | update, [source, commands] => runUpdate o source commands
  | mergeDiff, [before, after, stored, merging] => runMerge o before after stored merging
  | _, _ => throw (.code 2)

end Program

end TreeDelta
