import TreeDelta.Proofs.Delta.Decode
import TreeDelta.Proofs.Program.Fold
/-!
# Documents that are refused

What the merge program does with files of deltas that are none. Once it has found its four files and
read the values before and after, it decodes the stored delta and then the later one, and ends with 1
and one record of what is wrong with the first that is refused. Only a fault that is not one of deltas
gets through: the one of a key that is a list or an object (`Json.IsStumbling`).
-/

namespace TreeDelta

/-! ## What a file is read as -/

/-- Reading the file gives the value. What the null file gives goes by `choice`. -/
def Disk.Yields (disk : Disk) (run : Nat) (name choice : Text) (v : Value) : Prop :=
  if name = nullFile then readNothing run (.str choice) = .ok v
  else ∃ text, disk.read name = .ok text ∧ readJson run text = .ok v

theorem Disk.contains_nullFile (disk : Disk) : disk.contains nullFile = true := by
  simp [contains, locate_nullFile, textAt?]

variable {run : Nat} {name choice : Text} {v : Value} {c : Console}

theorem Disk.Yields.contains {disk : Disk} (h : disk.Yields run name choice v) :
    disk.contains name = true := by
  by_cases hn : name = nullFile
  · rw [hn]
    exact disk.contains_nullFile
  · rw [Yields, if_neg hn] at h
    obtain ⟨text, hread, -⟩ := h
    rw [Disk.read, bind_eq_ok] at hread
    obtain ⟨place, hplace, htext⟩ := hread
    rw [Disk.contains, hplace]
    cases ht : disk.textAt? place with
    | none => rw [ht] at htext; cases htext
    | some found => simp [ht]

theorem Disk.Keeps.yields {disk : Disk} {text : Text} (h : disk.Keeps name text)
    (hv : readJson run text = .ok v) : disk.Yields run name choice v := by
  rw [Yields, if_neg h.ne_nullFile]
  exact ⟨text, h.read, hv⟩

theorem Run.readFile_of_yields (h : c.disk.Yields run name choice v) :
    (readFile run name choice).Ends c v c := by
  by_cases hn : name = nullFile
  · rw [Disk.Yields, if_pos hn] at h
    rw [readFile, if_pos hn, ends_need]
    exact ⟨h, rfl⟩
  · rw [Disk.Yields, if_neg hn] at h
    obtain ⟨text, hread, hv⟩ := h
    simp only [readFile, if_neg hn, ends_bind, ends_get, ends_needFile, ends_need]
    exact ⟨c, c, ⟨rfl, rfl⟩, text, c, ⟨hread, rfl⟩, hv, rfl⟩

namespace Program

open Run

variable {words : List Text}

/-! ## Merging what is no delta -/

/-- The record of a fault of one of two deltas. -/
def refusal (stored merging : Text) (problem : DeltaFault) : LogEntry :=
  ⟨.error, "Cannot merge " ++ merging ++ " into " ++ stored ++ ": " ++ problem.message⟩

theorem refuse_delta (stored merging : Text) (problem : DeltaFault) (c : Console) :
    (refuse stored merging (.delta problem)).from_ c =
      (.ok 1, { c with log := c.log ++ shownAt c.level [refusal stored merging problem] }) := rfl

theorem refuse_unhashable (stored merging : Text) (c : Console) :
    (refuse stored merging .unhashable).from_ c = (.error (.fault .unhashable), c) := rfl

/-- A run of the merge program that takes its words, finds its four files and can read the first three
of them; `stored` is the document of the stored delta. -/
structure MergeAttempt (c : Console) (words : List Text) (stored : Json) where
  options : Options
  beforeFile : Text
  afterFile : Text
  storedFile : Text
  mergingFile : Text
  taken : (mergeDiff.parseWords words).Ends c
    (options, [beforeFile, afterFile, storedFile, mergingFile].map some) c
  before_read : ∃ v, c.disk.Yields Origin.firstFile.number beforeFile "empty" v
  after_read : ∃ v, c.disk.Yields Origin.secondFile.number afterFile "empty" v
  stored_read : c.disk.Yields Origin.thirdFile.number storedFile "none"
    (.ofJson Origin.thirdFile.number [] stored)
  merging_there : c.disk.contains mergingFile = true

namespace MergeAttempt

variable {stored document : Json} {origin : Origin}

/-- The documents that the run comes to decode: that of the stored delta, and that of the later one if
the stored one is accepted. -/
inductive ComesTo (m : MergeAttempt c words stored) : Origin → Json → Prop where
  | stored : m.ComesTo .thirdFile stored
  | merging {document : Json} (accepted : stored.IsDelta)
      (read : c.disk.Yields Origin.fourthFile.number m.mergingFile "none"
        (.ofJson Origin.fourthFile.number [] document)) : m.ComesTo .fourthFile document

/-- The console after the fault has been reported. -/
def reported (m : MergeAttempt c words stored) (problem : DeltaFault) : Console :=
  let console := c.leveled m.options
  { console with
    log := console.log ++ shownAt console.level [refusal m.storedFile m.mergingFile problem] }

theorem ends_readDelta_of_yields (h : c.disk.Yields origin.number name "none"
    (.ofJson origin.number [] document)) :
    (readDelta origin name).Ends c (Delta.ofDocument (.ofJson origin.number [] document)) c := by
  rw [readDelta, ends_bind]
  exact ⟨_, c, readFile_of_yields h, ends_pure.2 ⟨rfl, rfl⟩⟩

/-- A run that comes to a document which is refused comes to that fault. -/
theorem from_of_refused (m : MergeAttempt c words stored) {f : Fault} (hm : m.ComesTo origin document)
    (h : Delta.ofDocument (.ofJson origin.number [] document) = .error f) :
    (mergeDiff.run words).from_ c =
      (refuse m.storedFile m.mergingFile f).from_ (c.leveled m.options) := by
  let console := c.leveled m.options
  obtain ⟨old, hold⟩ := m.before_read
  obtain ⟨new, hnew⟩ := m.after_read
  have hall : ∀ name ∈ [m.beforeFile, m.afterFile, m.storedFile, m.mergingFile],
      c.disk.contains name = true := by
    simp [hold.contains, hnew.contains, m.stored_read.contains, m.merging_there]
  rw [run_from m.taken hall, onFiles, runMerge, from_bind_of_ends (readFile_of_yields (c := console) hold),
    from_bind_of_ends (readFile_of_yields (c := console) hnew),
    from_bind_of_ends (ends_readDelta_of_yields (c := console) m.stored_read)]
  cases hm with
  | stored => rw [h]
  | merging accepted read =>
    obtain ⟨d, hd, -⟩ := Delta.ofDocument_of_isDelta accepted Origin.thirdFile.number []
    rw [hd]
    simp only
    rw [from_bind_of_ends (ends_readDelta_of_yields (c := console) read), h]

end MergeAttempt

/-- The document of a delta, and nothing else, is decoded: to nothing if there is nothing in it, and
else to a change or to a tree in which no tree is empty. What is no such document is refused with a
fault of the delta, unless decoding stumbles over a key that is a list or an object. The merge program
ends with 1 if it comes to a document that is refused, and with the fault of the key if decoding
stumbles. -/
theorem malformed_refused (document : Json) (run : Nat) (place : List Key) :
    ((∃ d, Delta.ofDocument (.ofJson run place document) = .ok d) ↔ document.IsDelta) ∧
      (∀ d, Delta.ofDocument (.ofJson run place document) = .ok d →
        d = .nothing ∧ (document = .null ∨ document = .arr []) ∨
          d.Solid ∧ document ≠ .null ∧ document ≠ .arr []) ∧
      (¬ document.IsDelta → ¬ document.IsStumbling →
        ∃ problem, Delta.ofDocument (.ofJson run place document) = .error (.delta problem)) ∧
      (document.IsStumbling ↔ Delta.ofDocument (.ofJson run place document) = .error .unhashable) ∧
      ∀ {c : Console} {words : List Text} {stored : Json} {origin : Origin}
        (m : MergeAttempt c words stored), m.ComesTo origin document →
        (¬ document.IsDelta → ¬ document.IsStumbling →
          ∃ problem, Dispatch.outcome c (mergeDiff.run words) = (.code 1, m.reported problem)) ∧
        (document.IsStumbling →
          Dispatch.outcome c (mergeDiff.run words) = (.fault .unhashable, c.leveled m.options)) := by
  refine ⟨⟨fun ⟨d, hd⟩ => Delta.isDelta_of_ofDocument hd, fun h => ?_⟩, fun d hd => ?_,
    fun hd hs => Delta.ofDocument_refused hd hs run place,
    ⟨fun h => Delta.ofDocument_of_stumbling h run place, Delta.isStumbling_of_ofDocument⟩,
    fun {c words stored origin} m hm => ⟨fun hd hs => ?_, fun hs => ?_⟩⟩
  · obtain ⟨d, e, -⟩ := Delta.ofDocument_of_isDelta h run place
    exact ⟨d, e⟩
  · obtain ⟨d', e, shape⟩ := Delta.ofDocument_of_isDelta (Delta.isDelta_of_ofDocument hd) run place
    rw [hd] at e
    cases e
    exact shape
  · obtain ⟨problem, e⟩ := Delta.ofDocument_refused hd hs origin.number []
    refine ⟨problem, ?_⟩
    rw [outcome_eq, m.from_of_refused hm e, refuse_delta]
    rfl
  · have e := Delta.ofDocument_of_stumbling hs origin.number []
    rw [outcome_eq, m.from_of_refused hm e, refuse_unhashable]

/-- A list that holds a number, in the file of the later delta, while nothing was stored before. -/
theorem malformed_refused_of_number :
    let document : Json := .arr [.int 1]
    let c := desk [("b", "null"), ("a", "null"), ("i", "null"), ("j", "[1]")]
    ¬ document.IsDelta ∧ ¬ document.IsStumbling ∧
      ∃ m : MergeAttempt c ["b", "a", "i", "j", "-o", "n"] .null, m.ComesTo .fourthFile document ∧
        ∃ problem, Dispatch.outcome c (mergeDiff.run ["b", "a", "i", "j", "-o", "n"]) =
          (.code 1, m.reported problem) := by
  intro document c
  have refused : Delta.ofDocument (.ofJson 0 [] document) = .error (.delta (.entryWithoutKey (.int 1))) := by
    simp [document, Value.ofJson, Value.ofItems, Delta.ofDocument, Delta.ofEntries, bind, Except.bind]
  have hd : ¬ document.IsDelta := by
    intro h
    obtain ⟨d, e, -⟩ := Delta.ofDocument_of_isDelta h 0 []
    rw [refused] at e
    cases e
  have hs : ¬ document.IsStumbling := by
    intro h
    have e := Delta.ofDocument_of_stumbling h 0 []
    rw [refused] at e
    cases e
  have hb : c.disk.Keeps "b" "null" := keeps_desk (by decide +kernel) rfl
  have ha : c.disk.Keeps "a" "null" := keeps_desk (by decide +kernel) rfl
  have hi : c.disk.Keeps "i" "null" := keeps_desk (by decide +kernel) rfl
  have hj : c.disk.Keeps "j" "[1]" := keeps_desk (by decide +kernel) rfl
  have hnull : ∀ run, readJson run "null" = .ok .null := fun run => by
    rw [readJson, show Json.parse "null" = .ok .null from Json.parse_text_bare .null none]
    rfl
  have hdocument : ∀ run, readJson run "[1]" = .ok (.ofJson run [] document) := fun run => by
    have hreadable : document.Readable := .arr (by simpa using Folds.readable_one)
    rw [readJson, show Json.parse "[1]" = .ok document from Json.parse_text_bare hreadable none]
  let m : MergeAttempt c ["b", "a", "i", "j", "-o", "n"] .null :=
    { options := storing [("output", .str "n")]
      beforeFile := "b"
      afterFile := "a"
      storedFile := "i"
      mergingFile := "j"
      taken := (ends_parseWords (unsettled_desk _) (takes_merge (by decide))).2 ⟨rfl, rfl⟩
      before_read := ⟨_, hb.yields (hnull _)⟩
      after_read := ⟨_, ha.yields (hnull _)⟩
      stored_read := hi.yields (hnull _)
      merging_there := hj.contains }
  have hm : m.ComesTo .fourthFile document := .merging (Or.inl rfl) (hj.yields (hdocument _))
  exact ⟨hd, hs, m, hm, ((malformed_refused document 0 []).2.2.2.2 m hm).1 hd hs⟩

/-- An entry with a list for its key is no entry, but what comes of it is no fault of the delta. -/
theorem malformed_not_refused :
    let document : Json := .arr [.obj [("key", .arr []), ("op", .str "add")]]
    ¬ document.IsDelta ∧
      ¬ ∃ problem, Delta.ofDocument (.ofJson 0 [] document) = .error (.delta problem) := by
  intro document
  have hs : Json.Stumbles ([] ++ [.obj [("key", .arr []), ("op", .str "add")]]) :=
    .key Json.areEntries_nil rfl rfl
  have unhashable := Delta.ofDocument_of_stumbling ⟨_, rfl, hs⟩ 0 []
  constructor
  · intro h
    obtain ⟨d, e, -⟩ := Delta.ofDocument_of_isDelta h 0 []
    cases unhashable.symm.trans e
  · rintro ⟨problem, e⟩
    cases unhashable.symm.trans e

end Program

end TreeDelta
