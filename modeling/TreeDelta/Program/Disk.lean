import TreeDelta.Text.Encoding
/-!
# Files

The files a program can see, as a value. A name leads from the root or from the working
directory along its parts, each of which has to be found in a directory; `Disk.locate` says
where it leads or why it leads nowhere. Reading looks a place up, and writing adds or replaces
a file in a directory that is there. The null file is always there, holds nothing and keeps
nothing.
-/

namespace TreeDelta

/-- A place on a disk: the names that lead there from the root. -/
abbrev Location := List Text

/-- The name of the file that holds nothing. -/
def nullFile : Text := "/dev/null"

def nullPlace : Location := ["dev", "null"]

/-- Files with their texts, the working directory, and directories that are known besides
those on the way to these. -/
structure Disk where
  working : Location
  files : List (Location × Text)
  directories : List Location := []

/-- Why a file cannot be read or written. -/
inductive DiskFault where
  | missing
  | isDirectory
  /-- What is no directory stands where the name needs one. -/
  | notDirectory
  /-- The name holds a sign that no name may hold. -/
  | badName
  | unencodable
  | tooLong
deriving DecidableEq, Repr

namespace Disk

/-- The bytes of a name; stray bytes in it are kept. -/
def nameBytes? (name : Text) : Option (List UInt8) := (Text.Encoding.utf8 false).encode .byte name

/-- A name of so many bytes, or one that cannot be encoded. -/
def isLongerThan (most : Nat) (name : Text) : Bool :=
  (nameBytes? name).all fun bytes => most < bytes.length

def textAt? (disk : Disk) (place : Location) : Option Text :=
  if place = nullPlace then some [] else disk.files.lookup place

/-- A directory is at the place: one that is known, or that something known is in. -/
def isDirectory (disk : Disk) (place : Location) : Bool :=
  disk.directories.contains place || place.isPrefixOf disk.working ||
    (nullPlace :: disk.files.map (·.1)).any fun other =>
      place.length < other.length && place.isPrefixOf other

/-- The fault of looking for something in a place, if it is no directory. -/
def noDirectory (disk : Disk) (place : Location) : DiskFault :=
  if (disk.textAt? place).isSome then .notDirectory else .missing

/-- One part further on. Empty parts and dots stay, and two dots go back. -/
def step (disk : Disk) (place : Location) (part : Text) : Except DiskFault Location :=
  if !disk.isDirectory place then .error (disk.noDirectory place)
  else if part = [] ∨ part = "." then .ok place
  else if part = ".." then .ok place.dropLast
  else if isLongerThan 255 part then .error .tooLong
  else .ok (place ++ [part])

def follow (disk : Disk) (place : Location) (parts : List Text) : Except DiskFault Location :=
  parts.foldlM (step disk) place

/-- The parts of a name that a system would accept, and where they start. -/
def partsOf (disk : Disk) (name : Text) : Except DiskFault (Location × List Text) :=
  if (nameBytes? name).isNone then .error .unencodable
  else if .char '\x00' ∈ name then .error .badName
  else if name = [] then .error .missing
  else if isLongerThan 4095 name then .error .tooLong
  else .ok (if name.startsWith "/" then [] else disk.working, name.splitOn (.char '/'))

def locate (disk : Disk) (name : Text) : Except DiskFault Location := do
  let (start, parts) ← disk.partsOf name
  disk.follow start parts

def contains (disk : Disk) (name : Text) : Bool :=
  match disk.locate name with
  | .ok place => disk.isDirectory place || (disk.textAt? place).isSome
  | .error _ => false

def read (disk : Disk) (name : Text) : Except DiskFault Text := do
  let place ← disk.locate name
  match disk.textAt? place with
  | some text => .ok text
  | none => .error (if disk.isDirectory place then .isDirectory else .missing)

/-- Where a file of the name can be written. The last part has to name it. -/
def placeFor (disk : Disk) (name : Text) : Except DiskFault Location := do
  let (start, parts) ← disk.partsOf name
  let steps := parts.filter (· ≠ [])
  let directory ← disk.follow start steps.dropLast
  let place ← disk.step directory (steps.getLast?.getD [])
  if parts.getLast? = some [] ∨ disk.isDirectory place then .error .isDirectory else .ok place

def put (disk : Disk) (place : Location) (text : Text) : Disk :=
  if place = nullPlace then disk
  else if (disk.textAt? place).isSome then
    { disk with files :=
        disk.files.map fun (other, old) => (other, if other = place then text else old) }
  else { disk with files := disk.files ++ [(place, text)] }

def write (disk : Disk) (name text : Text) : Except DiskFault Disk := do
  .ok (disk.put (← disk.placeFor name) text)

/-- The files that another disk lacks or has with another text. -/
def changesFrom (disk before : Disk) : List (Location × Text) :=
  disk.files.filter fun (place, text) => before.textAt? place ≠ some text

def fullName (place : Location) : Text := if place = [] then "/" else Text.intercalate "/" ([] :: place)

def localName? (disk : Disk) (place : Location) : Option Text :=
  if disk.working.isPrefixOf place then
    some (Text.intercalate "/" (place.drop disk.working.length))
  else none

/-- The changes in the working directory, by name. -/
def localChangesFrom (disk before : Disk) : List (Text × Text) :=
  (disk.changesFrom before).filterMap fun (place, text) =>
    (disk.localName? place).map (·, text)

def placeOf (name : Text) : Location :=
  (name.splitOn (.char '/')).filter fun part => part ≠ [] ∧ part ≠ "."

def ofFiles (working : Location) (directories : List Location) (files : List (Text × Text)) :
    Disk :=
  files.foldl (fun disk (name, text) => disk.put (working ++ placeOf name) text)
    ⟨working, [], directories⟩

end Disk

end TreeDelta
