import TreeDelta.Settings.Overlay
import TreeDelta.Json.Writer
/-!
# Settings

Settings come in sections. A program has a chain of sections, from the most general to its
own; each section has settings of its own and can be overridden by the settings documents,
which are merged first, the less important ones below the more important ones.
`Settings.build` gives the settings in force.
-/

namespace TreeDelta

inductive Section where
  | base | global | printing | update | mergeDiff
deriving DecidableEq, Repr

namespace Section

def all : List Section := [base, global, printing, update, mergeDiff]

def name : Section → Text
  | base => "DeltaUpdateConfigurable"
  | global => "Global"
  | printing => "_Printing"
  | update => "Update"
  | mergeDiff => "MergeDiff"

/-- The settings that a section itself defines, with their defaults (`configured_traits`). -/
def own : Section → List (Key × Value)
  | base => []
  | global => [(.str "log_level", .str "INFO")]
  | printing =>
    [(.str "color", .bool true), (.str "indent", .int 2), (.str "snip_base64", .bool false)]
  | update => [(.str "show_diff", .bool true)]
  | mergeDiff => []

/-- The section and those it refines, the most general first. -/
def chain : Section → List Section
  | base => [base]
  | global => [base, global]
  | printing => [base, global, printing]
  | update => [base, global, printing, update]
  | mergeDiff => [base, global, printing, mergeDiff]

def ofName? (name : Text) : Option Section := all.find? fun s => s.name = name

/-- A section's own settings as another section has them, if it has all of them. -/
def seenFrom? (of user : Section) : Option (List (Key × Value)) :=
  if of ∈ user.chain || of.own.isEmpty then some of.own else none

end Section

/-- A program that takes settings. -/
inductive Program where
  | update | mergeDiff
deriving DecidableEq, Repr

namespace Program

def all : List Program := [update, mergeDiff]

def name : Program → Text
  | update => "dupdate"
  | mergeDiff => "dmergediff"

def ownSection : Program → Section
  | update => .update
  | mergeDiff => .mergeDiff

def ofName (name : Text) : Except Fault Program :=
  match all.find? fun p => p.name = name with
  | some p => .ok p
  | none => .error (.unknownEntry name (all.map Program.name))

end Program

namespace Settings

/-- What reads a settings file: given the name of the file and a directory, it returns the
entries of the document there, or nothing if there is no such file. -/
abbrev Loader := Text → Text → Except Fault (Option (List (Key × Value)))

/-- Where settings come from. -/
structure Source where
  load : Loader
  /-- The working directory. -/
  working : Text
  /-- The directories that are known to hold settings, the most important first. -/
  configPath : List Text

/-- The directories that are searched (`config_search_path`), the most important first. -/
def Source.searchPath (source : Source) : List Text := source.working :: source.configPath

/-- Goes through the documents of the files of a name that are there and say something
(`_load_config_files`). The directories come in order of importance and are taken backwards. -/
def eachFile {α : Type} (load : Loader) (base : Text) (path : List Text)
    (step : α → List (Key × Value) → Except Fault α) (start : α) : Except Fault α :=
  path.reverse.foldlM (fun done directory => do
    match ← load (base ++ ".json") directory with
    | none | some [] => .ok done
    | some document => step done document) start

section
variable {α : Type} {load : Loader} {base : Text} {step : α → List (Key × Value) → Except Fault α}

/-- The least important directories are the first to be looked at. -/
theorem eachFile_cons (directory : Text) (path : List Text) (start : α) :
    eachFile load base (directory :: path) step start =
      eachFile load base path step start >>= eachFile load base [directory] step := by
  unfold eachFile
  rw [List.reverse_cons, List.foldlM_append]
  rfl

theorem eachFile_missing {path : List Text}
    (h : ∀ directory ∈ path, load (base ++ ".json") directory = .ok none) (start : α) :
    eachFile load base path step start = .ok start := by
  induction path with
  | nil => rfl
  | cons directory path ih =>
    obtain ⟨first, rest⟩ := List.forall_mem_cons.1 h
    rw [eachFile_cons, ih rest]
    simp [eachFile, first, bind, Except.bind, pure, Except.pure]

end

/-- The name of settings files, without its ending. -/
def baseName : Text := "deltaupdate_config"

def merged (source : Source) (keepNull : Bool) : Except Fault (List (Key × Value)) :=
  eachFile source.load baseName source.searchPath (overlay keepNull) []

/-- The settings after a section: its own, and then what the documents say of it. -/
def addSection (keepNull : Bool) (documents settings : List (Key × Value)) (s : Section) :
    Except Fault (List (Key × Value)) := do
  let settings ← overlay keepNull settings s.own
  match Fields.get? (.str s.name) documents with
  | none => .ok settings
  | some (.map _ new) => overlay keepNull settings new
  | some v => .error (.unsupported v.type)

/-- The settings of a program (`build_config`): the sections of its chain, the most general
first, each overridden by what the documents say of it. -/
def build (source : Source) (keepNull : Bool) (program : Program) :
    Except Fault (List (Key × Value)) := do
  let documents ← merged source keepNull
  program.ownSection.chain.foldlM (addSection keepNull documents) []

/-- Settings with every value as JSON text, for display (`modify_config_for_print`). -/
def displayed : List (Key × Value) → Except Fault (List (Key × Value))
  | [] => .ok []
  | (k, .map id below) :: rest => do
    let shown ← displayed below
    let others ← displayed rest
    .ok ((k, if shown.isEmpty then .str "\x7b\x7d" else .map id shown) :: others)
  | (k, v) :: rest => do
    let shown ← v.toJson false
    let others ← displayed rest
    .ok ((k, .str (Json.text none shown)) :: others)

end Settings

end TreeDelta
