import TreeDelta.Settings.Basic
import TreeDelta.Json.Reader
/-!
# Settings files

The programs leave it to `Settings.Loader` how a file becomes a document. `Settings.fileLoader` is
a loader of files with known texts. It takes JSON objects for documents, and their version for no
entry of theirs.
-/

namespace TreeDelta

namespace Settings

def versionKey : Key := .str "version"

/-- The one version of documents that is known, and that of a document which tells none. -/
def knownVersion : Value := .int 1

/-- Reads the file of a name in a directory. -/
def fileLoader (contents : Text → Text → Option Text) : Loader := fun name directory =>
  match contents name directory with
  | none => .ok none
  | some text => do
    match ← readJson 0 text with
    | .map _ fields =>
      if ((Fields.get? versionKey fields).getD knownVersion).equal knownVersion then
        .ok (some (Fields.erase versionKey fields))
      else .error .badSettings
    | v => .error (.wrongType v.type)

end Settings

end TreeDelta
