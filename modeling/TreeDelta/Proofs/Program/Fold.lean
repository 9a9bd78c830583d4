import TreeDelta.Proofs.Delta.Stored
import TreeDelta.Proofs.Json.Parse
import TreeDelta.Proofs.Program.Words
import TreeDelta.Settings.File
/-!
# A series of updates over files

Each update run reads the result of the one before it and leaves its own result and delta; a merge
run after each of them folds its delta into the net delta so far. All values and deltas are read
again from their texts every time, so what one run has is a copy of what another one had. The
invariant is `Tracks`: the net delta, as it is read, leads from the first value to the last
(`Reading.kept`). An update run starts it (`UpdateRun.tracks`), a merge run keeps it
(`MergeRun.tracks`), and `Folds.consistent` says what it comes to for a reader of the files.
-/

namespace TreeDelta

/-! ## Texts and what they are read as -/

namespace Text

/-- The text of a string that holds no NaN, if it is a document at all. -/
def IsClean (text : Text) : Prop := text.IsString ∧ ∀ j, Json.parse text = .ok j → j.NaNFree

/-- Whenever it is read, the text gives a copy of the value. -/
def Reads (text : Text) (v : Value) : Prop := ∀ run, ∃ w, readJson run text = .ok w ∧ v.Copy w

/-- Whenever it is read, a copy of the delta is decoded from the text. -/
def ReadsDelta (text : Text) (d : Delta) : Prop :=
  ∀ run, ∃ w e, readJson run text = .ok w ∧ Delta.ofDocument w = .ok e ∧ d.Copy e

theorem IsClean.reads {text : Text} (h : text.IsClean) {run : Nat} {v : Value}
    (hr : readJson run text = .ok v) : v.IsJson ∧ text.Reads v := by
  unfold readJson at hr
  split at hr
  · rename_i j hj
    cases hr
    have hreadable := Json.readable_of_parse h.1 hj
    have hclean := h.2 j hj
    refine ⟨Json.isJson_ofJson hreadable hclean run [], fun run' => ?_⟩
    refine ⟨.ofJson run' [] j, ?_, Json.copy_ofJson hreadable hclean run [] run' []⟩
    rw [readJson, hj]
  · cases hr
  · cases hr

theorem reads_written {v : Value} {indent : Option Int} {text : Text} (h : v.IsJson)
    (hw : writeJson indent v = .ok text) : text.Reads v := Value.readJson_of_written h hw

theorem readsDelta_written {d : Delta} {indent : Option Int} {text : Text} {run : Nat}
    (h : d = .nothing ∨ d.Storable) (hw : writeJson indent (d.toDocument run []) = .ok text) :
    text.ReadsDelta d := by
  intro run'
  obtain ⟨w, hread, hcopy⟩ := Value.readJson_of_written (Delta.isJson_document h run []) hw run'
  obtain ⟨e, he, hde⟩ := Delta.decode_copy h hcopy
  exact ⟨w, e, hread, he, hde⟩

end Text

/-! ## Runs of the programs -/

/-- A run of the update program that ends with 0, with the texts that it reads and those that it
leaves behind. -/
structure UpdateRun (source commands result delta : Text) where
  before : Console
  after : Console
  words : List Text
  options : Options
  sourceFile : Text
  commandsFile : Text
  resultFile : Text
  deltaFile : Text
  unsettled : before.Unsettled
  taken : Program.update.Takes words options [sourceFile, commandsFile]
  source_there : before.disk.Keeps sourceFile source
  commands_there : before.disk.Keeps commandsFile commands
  result_named : options.file? "output" = .ok (some resultFile)
  delta_named : options.file? "diff_output" = .ok (some deltaFile)
  ended : Dispatch.outcome before (Program.update.run words) = (.code 0, after)
  /-- The two files are not one. -/
  apart : after.disk.locate resultFile ≠ after.disk.locate deltaFile
  result_left : after.disk.Keeps resultFile result
  delta_left : after.disk.Keeps deltaFile delta

/-- All that a run of the merge program takes: the files that it reads with their texts, and a file
to write to. -/
structure MergeRun (before after stored merging : Text) where
  console : Console
  words : List Text
  options : Options
  beforeFile : Text
  afterFile : Text
  storedFile : Text
  mergingFile : Text
  netFile : Text
  indent : Option Int
  unsettled : console.Unsettled
  taken : Program.mergeDiff.Takes words options [beforeFile, afterFile, storedFile, mergingFile]
  before_there : console.disk.Keeps beforeFile before
  after_there : console.disk.Keeps afterFile after
  stored_there : console.disk.Keeps storedFile stored
  merging_there : console.disk.Keeps mergingFile merging
  net_named : options.file? "output" = .ok (some netFile)
  net_offered : console.disk.Offers netFile
  indented : options.indent = .ok indent
  fits : FitsIndent indent

namespace MergeRun

variable {before after stored merging : Text}

/-- How the run ends, and the console that it leaves. -/
def outcome (m : MergeRun before after stored merging) : Exit × Console :=
  Dispatch.outcome m.console (Program.mergeDiff.run m.words)

/-- The run leaves the text in its file, however it ends. -/
def Leaves (m : MergeRun before after stored merging) (net : Text) : Prop :=
  m.outcome.2.disk.Keeps m.netFile net

end MergeRun

/-- Updates by a series of commands, each of the result of the one before, and merges of their
deltas into one. -/
inductive Folds (source : Text) : List Text → Text → Text → Prop
  | first {commands result delta : Text} (update : UpdateRun source commands result delta) :
      Folds source [commands] result delta
  | next {series : List Text} {commands before after net delta net' : Text}
      (fold : Folds source series before net) (update : UpdateRun before commands after delta)
      (merge : MergeRun source after net delta) (left : merge.Leaves net') :
      Folds source (series ++ [commands]) after net'

/-! ## One run -/

open Delta (Leads)
open Program (Updating Merging)

variable {s t r x y : Text} {u v w : Value} {d e : Delta}

/-- An update run has carried out an update of its texts. -/
theorem UpdateRun.went (run : UpdateRun s t r x) : Nonempty (Updating run.options s t x r) := by
  have hends := Program.ends_of_outcome run.unsettled run.taken run.ended
  obtain ⟨-, hends⟩ := (Program.ends_run run.unsettled run.taken).1 hends
  obtain ⟨x', r', between, hwent, hdelta, hresult⟩ :=
    Program.runUpdate_ends (c := run.before.leveled run.options) run.source_there run.commands_there
      run.result_named run.delta_named hends
  -- both files hold what has been written to them
  have hr : r = r' := hresult.keeps_self run.result_left
  have ⟨place, hplace, _⟩ := hdelta
  have hkept := (hresult.keeps_other (hdelta.locate_self hplace) run.apart).1 run.delta_left
  have hx : x = x' := hdelta.keeps_self hkept
  exact hx ▸ hr ▸ hwent

/-- An update run leaves the texts of a result and of a delta that leads there. -/
theorem UpdateRun.tracks (run : UpdateRun s t r x) (hs : s.Reads u) (hu : u.IsJson) (ht : t.IsClean) :
    ∃ v d, v.IsJson ∧ d.IsJson ∧ r.Reads v ∧ x.ReadsDelta d ∧ Leads .kept u v d := by
  obtain ⟨m⟩ := run.went
  obtain ⟨w, hw, hcopy⟩ := hs Program.Origin.firstFile.number
  rw [m.value_read] at hw
  cases hw
  obtain ⟨hvalue, hjson, hleads⟩ := Value.update_json (hu.copy hcopy) (ht.reads m.raw_read).1 m.updated
  refine ⟨m.outcome.value, m.outcome.delta, hvalue, hjson, Text.reads_written hvalue m.result_written,
    Text.readsDelta_written (hleads.storable hjson) m.delta_written, ?_⟩
  exact hleads.kept_of_exact.from_copy (hu.copy hcopy) hcopy.symm

/-- A merge run ends with 0, and leaves the text of a delta that leads where both deltas lead
together. -/
theorem MergeRun.tracks (run : MergeRun s t x y) (hs : s.Reads u) (ht : t.Reads w)
    (hx : x.ReadsDelta d) (hy : y.ReadsDelta e) (hu : u.IsJson) (hv : v.IsJson) (hw : w.IsJson)
    (hd : d.IsJson) (he : e.IsJson) (h : Leads .kept u v d) (h' : Leads .kept v w e) :
    ∃ net m, run.outcome.1 = .code 0 ∧ run.Leaves net ∧ m.IsJson ∧ net.ReadsDelta m ∧
      Leads .kept u w m := by
  obtain ⟨u', hu', hcu⟩ := hs Program.Origin.firstFile.number
  obtain ⟨w', hw', hcw⟩ := ht Program.Origin.secondFile.number
  obtain ⟨dx, d', hdx, hd', hcd⟩ := hx Program.Origin.thirdFile.number
  obtain ⟨dy, e', hdy, he', hce⟩ := hy Program.Origin.fourthFile.number
  have hju := hu.copy hcu
  have hjw := hw.copy hcw
  obtain ⟨m, hm, hjm, hl⟩ := Leads.merge_kept hju hv hjw (hcd.isJson hd) (hce.isJson he)
    ((h.from_copy hu hcu).copied hcd) ((h'.to_copy hw hcw).copied hce)
  obtain ⟨text, htext, -⟩ := Value.readJson_written
    (Delta.isJson_document (hl.storable hjm) Program.Origin.result.number []) run.fits
  obtain ⟨place, hplace, hnull⟩ := run.net_offered
  have hwrites : run.console.disk.Writes run.netFile text _ := ⟨place, hplace, rfl⟩
  have hmerging : Merging run.options s t x y text :=
    ⟨u', w', dx, dy, d', e', m, run.indent, hu', hw', hdx, hdy, hd', he', hm, run.indented, htext⟩
  have hends := Program.runMerge_ends (c := run.console.leveled run.options) run.before_there
    run.after_there run.stored_there run.merging_there run.net_named hmerging hwrites
  have hall : ∀ name ∈ [run.beforeFile, run.afterFile, run.storedFile, run.mergingFile],
      run.console.disk.contains name = true := by
    simp [run.before_there.contains, run.after_there.contains, run.stored_there.contains,
      run.merging_there.contains]
  have houtcome := Program.outcome_of_ends ((Program.ends_run run.unsettled run.taken).2 ⟨hall, hends⟩)
  refine ⟨text, m, ?_, ?_, hjm, Text.readsDelta_written (hl.storable hjm) htext, ?_⟩
  · rw [outcome, houtcome]
  · rw [Leaves, outcome, houtcome]
    exact hwrites.keeps run.net_offered
  · exact (hl.from_copy hju hcu.symm).to_copy hjw hcw.symm

/-! ## A series of runs -/

/-- The net delta, as it is read, leads from the first value to the last. -/
def Tracks (s r net : Text) : Prop :=
  ∃ u v d, u.IsJson ∧ v.IsJson ∧ d.IsJson ∧ s.Reads u ∧ r.Reads v ∧ net.ReadsDelta d ∧ Leads .kept u v d

variable {series : List Text} {net : Text}

/-- One more update and one more merge. -/
theorem Tracks.next {commands after delta : Text} (h : Tracks s r net) (hc : commands.IsClean)
    (update : UpdateRun r commands after delta) (merge : MergeRun s after net delta) :
    ∃ net', merge.outcome.1 = .code 0 ∧ merge.Leaves net' ∧ Tracks s after net' := by
  obtain ⟨u, v, d, hu, hv, hd, hs, hr, hnet, hl⟩ := h
  obtain ⟨w, e, hw, he, hafter, hdelta, hl'⟩ := update.tracks hr hv hc
  obtain ⟨net', m, hcode, hleft, hm, hnet', hl⟩ := merge.tracks hs hafter hnet hdelta hu hv hw hd he hl hl'
  exact ⟨net', hcode, hleft, u, w, m, hu, hw, hm, hs, hafter, hnet', hl⟩

theorem Folds.tracks (hs : s.IsClean) (hc : ∀ commands ∈ series, commands.IsClean)
    (h : Folds s series r net) : Tracks s r net := by
  induction h with
  | first update =>
    obtain ⟨m⟩ := update.went
    obtain ⟨hu, hsu⟩ := hs.reads m.value_read
    obtain ⟨v, d, hv, hd, hr, hnet, hl⟩ := update.tracks hsu hu (hc _ (by simp))
    exact ⟨_, v, d, hu, hv, hd, hsu, hr, hnet, hl⟩
  | next fold update merge left ih =>
    have htracks := ih fun commands hm => hc commands (by simp [hm])
    obtain ⟨net', -, hleft, htracks'⟩ := htracks.next (hc _ (by simp)) update merge
    rwa [left.unique hleft]

/-! ## What readers of the files find -/

/-- What a delta tells of two values: it is well formed, at each of its changes stand values that
are equal to its own, and apart from these the values are equal. -/
structure Delta.Describes (u v : Value) (d : Delta) : Prop where
  valid : d = .nothing ∨ d.isValid = true
  node : ∀ p c, d.at_ p = .node c → (u.at_ p).equal c.old = true ∧ c.new.equal (v.at_ p) = true
  nothing : d = .nothing → u.equal v = true
  apart : ∀ p, d.Apart p → (u.at_ p).equal (v.at_ p) = true

theorem Value.IsJson.copy_self (h : u.IsJson) : u.Copy u := by
  induction h with
  | null => exact .null
  | bool b => exact .bool b
  | int => exact .int _
  | float x => exact .float x
  | str => exact .str _
  | list _ ih =>
    refine .list rfl fun n a b ha hb => ?_
    rw [ha] at hb
    cases hb
    exact ih a (List.mem_of_getElem? ha)
  | map distinct _ _ ih =>
    refine .map distinct distinct (fun _ => rfl) fun k a b ha hb => ?_
    rw [ha] at hb
    cases hb
    obtain ⟨l, hm, -⟩ := Fields.exists_mem_of_get? ha
    exact ih l a hm

theorem Value.IsStored.at_ (h : u.IsStored) (p : List Key) : (u.at_ p).IsStored := by
  induction p generalizing u with
  | nil => exact h
  | cons k p ih => exact ih (h.child k)

theorem Value.IsStored.equal_self (h : u.IsStored) : u.equal u = true := by
  rcases h with rfl | h
  · rw [Value.equal]
  · exact h.copy_self.equal

/-- Data of JSON that is an equal item is equal: it holds no NaN. -/
theorem Value.IsStored.equal (h : u.IsStored) (he : u.equalItem v = true) : u.equal v = true := by
  rcases Value.equalItem_iff.1 he with rfl | he
  · exact h.equal_self
  · exact he

theorem Delta.Leads.describes (h : Leads .kept u v d) (hu : u.IsJson) (hv : v.IsJson) :
    d.Describes u v := by
  have hlike : Likeness Reading.kept.before := Reading.kept_joins.before
  have hnodes := fun p c => h.node_at hlike id (p := p) (c := c)
  have hstored := fun p => Value.IsStored.at_ (Or.inr hu) p
  have hapart : ∀ p, d.Apart p → (u.at_ p).equal (v.at_ p) = true := fun p hp =>
    (hstored p).equal (h.apart_at hlike (Or.inl hu.full) (Or.inl hv.full) hp)
  refine ⟨h.valid hlike Value.likeness_equalItem.absent, fun p c hc => ?_, ?_, hapart⟩
  · obtain ⟨hold, hnew, -, -⟩ := hnodes p c hc
    refine ⟨(hstored p).equal hold, ?_⟩
    rcases Value.equalItem_iff.1 hnew with hnew | hnew
    · rw [hnew]
      exact Value.IsStored.equal_self (Value.IsStored.at_ (Or.inr hv) p)
    · exact hnew
  · rintro rfl
    exact hapart [] fun q c hq => by simp at hq

/-- Whoever reads the files, the net delta describes what has changed from the first value to the
last. -/
theorem Tracks.describes (h : Tracks s r net) (i j k : Nat) :
    ∃ u v document d, readJson i s = .ok u ∧ readJson j r = .ok v ∧ readJson k net = .ok document ∧
      Delta.ofDocument document = .ok d ∧ d.Describes u v := by
  obtain ⟨u, v, d, hu, hv, -, hs, hr, hnet, hl⟩ := h
  obtain ⟨u', hu', hcu⟩ := hs i
  obtain ⟨v', hv', hcv⟩ := hr j
  obtain ⟨document, e, hdocument, he, hde⟩ := hnet k
  have hl' := ((hl.from_copy hu hcu).to_copy hv hcv).copied hde
  exact ⟨u', v', document, e, hu', hv', hdocument, he, hl'.describes (hu.copy hcu) (hv.copy hcv)⟩

/-- The net delta of a series of updates over files describes what has changed from the first value
to the last, and every further merge ends with 0 and leaves a net delta. -/
theorem Folds.consistent (hs : s.IsClean) (hc : ∀ commands ∈ series, commands.IsClean)
    (h : Folds s series r net) :
    (∀ i j k, ∃ u v document d, readJson i s = .ok u ∧ readJson j r = .ok v ∧
      readJson k net = .ok document ∧ Delta.ofDocument document = .ok d ∧ d.Describes u v) ∧
    ∀ {commands after delta : Text}, commands.IsClean → UpdateRun r commands after delta →
      ∀ merge : MergeRun s after net delta,
        merge.outcome.1 = .code 0 ∧ ∃ net', merge.Leaves net' ∧ Folds s (series ++ [commands]) after net' := by
  have htracks := h.tracks hs hc
  refine ⟨htracks.describes, fun hcommands update merge => ?_⟩
  obtain ⟨net', hcode, hleft, -⟩ := htracks.next hcommands update merge
  exact ⟨hcode, net', hleft, h.next update merge hleft⟩

/-! ## Plain runs -/

/-- A merge run with plain words: the names of four files, and one to write to. -/
def MergeRun.plain {console : Console} {b a i j n : Text} (hc : console.Unsettled)
    (h : ∀ name ∈ [b, a, i, j, n], name.Plain) (hb : console.disk.Keeps b s) (ha : console.disk.Keeps a r)
    (hi : console.disk.Keeps i x) (hj : console.disk.Keeps j y) (hn : console.disk.Offers n) :
    MergeRun s r x y where
  console := console
  words := [b, a, i, j, "-o", n]
  options := Program.storing [("output", .str n)]
  beforeFile := b
  afterFile := a
  storedFile := i
  mergingFile := j
  netFile := n
  indent := some 2
  unsettled := hc
  taken := Program.takes_merge h
  before_there := hb
  after_there := ha
  stored_there := hi
  merging_there := hj
  net_named := by
    have hne : n ≠ [] := by
      rintro rfl
      obtain ⟨place, hplace, -⟩ := hn
      cases hplace
    exact congrArg Except.ok (if_neg (by simpa using hne))
  net_offered := hn
  indented := rfl
  fits := by
    rintro _ ⟨⟩
    decide

/-- A console in an empty directory but for these files. -/
def desk (files : List (Text × Text)) : Console where
  disk := ⟨[], files.map fun (name, text) => ([name], text), []⟩
  settings := ⟨Settings.fileLoader fun _ _ => none, Disk.fullName [], []⟩
  palette := .standard

theorem unsettled_desk (files : List (Text × Text)) : (desk files).Unsettled := fun _ _ => rfl

theorem keeps_desk {files : List (Text × Text)} {name text : Text} (bare : Disk.IsBare name)
    (held : (desk files).disk.files.lookup [name] = some text) : (desk files).disk.Keeps name text := by
  have hne : [name] ≠ nullPlace := by simp [nullPlace]
  exact ⟨[name], Disk.locate_bare bare, hne, by rw [Disk.textAt?, if_neg hne, held]⟩

/-- Where an update of JSON data by such data can be carried out, some run carries it out. -/
theorem UpdateRun.plain {raw : Value} {outcome : Outcome} (hju : u.IsJson) (hjraw : raw.IsJson)
    (hu : readJson Program.Origin.firstFile.number s = .ok u)
    (hraw : readJson Program.Origin.secondFile.number t = .ok raw)
    (hupdate : Value.update (Factory.functions []) Program.Origin.result.number u raw = .ok outcome) :
    ∃ r x, writeJson (some 2) outcome.value = .ok r ∧ Nonempty (UpdateRun s t r x) := by
  have hfits : FitsIndent (some 2) := by
    rintro _ ⟨⟩
    decide
  obtain ⟨hvalue, hjson, hleads⟩ := Value.update_json hju hjraw hupdate
  obtain ⟨r, hr, -⟩ := Value.readJson_written hvalue hfits
  obtain ⟨x, hx, -⟩ := Value.readJson_written
    (Delta.isJson_document (hleads.storable hjson) Program.Origin.result.number []) hfits
  refine ⟨r, x, hr, ?_⟩
  let c := desk [("s", s), ("c", t)]
  let o := Program.storing [("show_diff", .bool false), ("diff_output", .str "d"), ("output", .str "r")]
  have hs : c.disk.Keeps "s" s := keeps_desk (by decide +kernel) rfl
  have ht : c.disk.Keeps "c" t := keeps_desk (by decide +kernel) rfl
  have hplain : ∀ name ∈ (["s", "c", "r", "d"] : List Text), name.Plain := by decide
  have hc : c.Unsettled := unsettled_desk _
  have hplaceD : c.disk.placeFor "d" = .ok ["d"] := Disk.placeFor_bare (by decide +kernel) rfl
  have hbetween := Disk.writes_put hplaceD x
  have hplaceR : ((c.disk.put ["d"] []).put ["d"] x).placeFor "r" = .ok ["r"] :=
    Disk.placeFor_bare (by decide +kernel) rfl
  have hafter := Disk.writes_put hplaceR r
  have hindent : o.indent = .ok (some 2) := by rfl
  obtain ⟨d, hends, hd⟩ := Program.ends_runUpdate (c := c.leveled o) (o := o) hs ht (by rfl) (by rfl)
    (by rfl) ⟨u, raw, outcome, some 2, hu, hraw, hupdate, hindent, hx, hr⟩ hbetween hafter
  have htaken := Program.takes_update hplain
  have hall : ∀ name ∈ (["s", "c"] : List Text), c.disk.contains name = true := by
    simp [hs.contains, ht.contains]
  have houtcome := Program.outcome_of_ends ((Program.ends_run hc htaken).2 ⟨hall, hends⟩)
  rw [← hd] at hafter
  have hlocateD := hbetween.locate_self hplaceD
  have hapart : d.disk.locate "r" ≠ d.disk.locate "d" := by
    rw [hafter.locate_self hplaceR, hafter.locate hlocateD]
    decide
  have hkept := hbetween.keeps ⟨["d"], hplaceD, by decide⟩
  exact ⟨⟨c, d, _, o, "s", "c", "r", "d", hc, htaken, hs, ht, by rfl, by rfl, houtcome, hapart,
    hafter.keeps ⟨["r"], hplaceR, by decide⟩, (hafter.keeps_other hlocateD hapart).2 hkept⟩⟩

/-- Any four texts can be in the files that a merge run takes. -/
theorem MergeRun.exists_plain (s r x y : Text) : Nonempty (MergeRun s r x y) := by
  let c := desk [("b", s), ("a", r), ("i", x), ("j", y)]
  have hb : c.disk.Keeps "b" s := keeps_desk (by decide +kernel) rfl
  have ha : c.disk.Keeps "a" r := keeps_desk (by decide +kernel) rfl
  have hi : c.disk.Keeps "i" x := keeps_desk (by decide +kernel) rfl
  have hj : c.disk.Keeps "j" y := keeps_desk (by decide +kernel) rfl
  have hn : c.disk.Offers "n" := ⟨["n"], Disk.placeFor_bare (by decide +kernel) rfl, by decide⟩
  exact ⟨MergeRun.plain (unsettled_desk _) (by decide) hb ha hi hj hn⟩

/-! ## Two pushes -/

namespace Folds

/-- A mapping with a list of so many items. -/
def holding (n : Nat) : Json := .obj [("a", .arr (List.replicate n (.int 1)))]

/-- A push onto that list. -/
def pushing : Json := .obj [("a", .obj [("$push", .int 1)])]

theorem nanFree_pushing : pushing.NaNFree :=
  .obj (by simp [Json.NaNFree.obj, Json.NaNFree.int])

theorem nanFree_holding (n : Nat) : (holding n).NaNFree := by
  have hitems : ∀ j ∈ List.replicate n (Json.int 1), j.NaNFree := fun j hj => by
    rw [List.eq_of_mem_replicate hj]
    exact .int 1
  exact .obj (by simpa using Json.NaNFree.arr hitems)

theorem readable_one : (Json.int 1).Readable := by
  have hone : 1 ≤ Text.mostDigits := by decide
  exact .int hone

theorem readable_holding (n : Nat) : (holding n).Readable := by
  have hitems : ∀ j ∈ List.replicate n (Json.int 1), j.Readable := fun j hj => by
    rw [List.eq_of_mem_replicate hj]
    exact readable_one
  refine .obj (by simp) ?_ ?_
  · simp
    decide
  · simpa using Json.Readable.arr hitems

theorem readable_pushing : pushing.Readable := by
  have hpush : (Json.obj [("$push", .int 1)]).Readable := by
    refine .obj (by simp) ?_ ?_
    · simp
      decide
    · simpa using readable_one
  refine .obj (by simp) ?_ ?_
  · simp
    decide
  · simpa using hpush

theorem parse_holding : Json.parse "\x7b\"a\": []\x7d" = .ok (holding 0) :=
  Json.parse_text_bare (readable_holding 0) none

theorem parse_pushing : Json.parse "\x7b\"a\": \x7b\"$push\": 1\x7d\x7d" = .ok pushing :=
  Json.parse_text_bare readable_pushing none

theorem update_holding : ∃ o, Value.update (Factory.functions []) 5 (.ofJson 1 [] (holding 0))
    (.ofJson 2 [] pushing) = .ok o ∧ o.value.toJson true = .ok (holding 1) := ⟨_, rfl, by cbv⟩

theorem update_holding' : ∃ o, Value.update (Factory.functions []) 5 (.ofJson 1 [] (holding 1))
    (.ofJson 2 [] pushing) = .ok o := ⟨_, rfl⟩

/-- The same push twice, over files, and a merge. -/
theorem consistent_pushes :
    let s : Text := "\x7b\"a\": []\x7d"
    let push : Text := "\x7b\"a\": \x7b\"$push\": 1\x7d\x7d"
    ∃ r net, s.IsClean ∧ (∀ commands ∈ [push, push], commands.IsClean) ∧ Folds s [push, push] r net ∧
      ∀ i j k, ∃ u v document d, readJson i s = .ok u ∧ readJson j r = .ok v ∧
        readJson k net = .ok document ∧ Delta.ofDocument document = .ok d ∧ d.Describes u v := by
  intro s push
  have hs : s.IsClean := by
    refine ⟨Text.isString_ofString _, fun j hj => ?_⟩
    rw [parse_holding] at hj
    cases hj
    exact nanFree_holding 0
  have hpush : push.IsClean := by
    refine ⟨Text.isString_ofString _, fun j hj => ?_⟩
    rw [parse_pushing] at hj
    cases hj
    exact nanFree_pushing
  have hread : ∀ run, readJson run s = .ok (.ofJson run [] (holding 0)) := fun run => by
    rw [readJson, parse_holding]
  have hread' : ∀ run, readJson run push = .ok (.ofJson run [] pushing) := fun run => by
    rw [readJson, parse_pushing]
  obtain ⟨o, hupdate, hdoc⟩ := update_holding
  have hpushing := (hpush.reads (hread' 2)).1
  obtain ⟨r, x, hr, ⟨first⟩⟩ :=
    UpdateRun.plain (hs.reads (hread 1)).1 hpushing (hread 1) (hread' 2) hupdate
  have hr' : r = Json.text (some 2) (holding 1) ++ "\n" := by
    rw [writeJson, jsonText, hdoc] at hr
    exact (Except.ok.inj hr).symm
  have hread'' : readJson 1 r = .ok (.ofJson 1 [] (holding 1)) := by
    rw [hr', readJson, Json.parse_text (readable_holding 1)]
  obtain ⟨o', hupdate'⟩ := update_holding'
  have hholding := Json.isJson_ofJson (readable_holding 1) (nanFree_holding 1) 1 []
  obtain ⟨r', x', -, ⟨second⟩⟩ := UpdateRun.plain hholding hpushing hread'' (hread' 2) hupdate'
  obtain ⟨merge⟩ := MergeRun.exists_plain s r' x x'
  have hone : ∀ commands ∈ [push], commands.IsClean := by simpa using hpush
  have htwo : ∀ commands ∈ [push, push], commands.IsClean := by simpa using hpush
  obtain ⟨-, net, -, hfold⟩ := (consistent hs hone (.first first)).2 hpush second merge
  exact ⟨r', net, hs, htwo, hfold, (consistent hs htwo hfold).1⟩

end Folds

end TreeDelta
