import Mathlib.Data.List.Permutation
import TreeDelta.Program.Dispatch
import TreeDelta.Proofs.Program.Disk
/-!
# What runs do

`Run.Ends x c a d` says that the steps `x` go through from the console `c`, with `a` for their
result, and leave the console `d`. One lemma for each kind of step says when that is so; what whole
programs do to files follows from these.
-/

namespace TreeDelta

namespace Run

variable {α β : Type} {c d : Console}

/-- What the steps come to from a console, and the console they leave. -/
def from_ (x : Run α) (c : Console) : Except Exit α × Console := x.run.run c

/-- The steps go through from a console, and leave a result and a console. -/
def Ends (x : Run α) (c : Console) (a : α) (d : Console) : Prop := x.from_ c = (.ok a, d)

theorem from_bind (x : Run α) (f : α → Run β) (c : Console) :
    (x >>= f).from_ c = match x.from_ c with
      | (.ok a, e) => (f a).from_ e
      | (.error ended, e) => (.error ended, e) := by
  have h : (x >>= f).from_ c = (ExceptT.bindCont f (x.from_ c).1).run (x.from_ c).2 := rfl
  rw [h]
  rcases x.from_ c with ⟨_ | _, _⟩ <;> rfl

theorem ends_bind {x : Run α} {f : α → Run β} {b : β} :
    (x >>= f).Ends c b d ↔ ∃ a e, x.Ends c a e ∧ (f a).Ends e b d := by
  simp only [Ends, from_bind]
  rcases x.from_ c with ⟨_ | a, e⟩ <;> simp

/-- Steps that go through are followed by the rest. -/
theorem from_bind_of_ends {x : Run α} {f : α → Run β} {a : α} (h : x.Ends c a d) :
    (x >>= f).from_ c = (f a).from_ d := by
  rw [from_bind, show x.from_ c = (.ok a, d) from h]

theorem ends_pure {a b : α} : (pure a : Run α).Ends c b d ↔ b = a ∧ d = c := by
  have h : (pure a : Run α).from_ c = (.ok a, c) := rfl
  rw [Ends, h]
  simp [eq_comm]

theorem not_ends_throw {ended : Exit} {a : α} : ¬ (throw ended : Run α).Ends c a d := by
  have h : (throw ended : Run α).from_ c = (.error ended, c) := rfl
  rw [Ends, h]
  simp

theorem ends_modify {f : Console → Console} {u : Unit} : (modify f : Run Unit).Ends c u d ↔ d = f c := by
  have h : (modify f : Run Unit).from_ c = (.ok (), f c) := rfl
  rw [Ends, h]
  simp [eq_comm]

theorem ends_get {e : Console} : (get : Run Console).Ends c e d ↔ e = c ∧ d = c := by
  have h : (get : Run Console).from_ c = (.ok c, c) := rfl
  rw [Ends, h]
  simp [eq_comm]

theorem need_ok (a : α) : need (.ok a) = pure a := rfl

theorem ends_need {x : Except Fault α} {a : α} : (need x).Ends c a d ↔ x = .ok a ∧ d = c := by
  cases x with
  | ok b => rw [need, ends_pure, Except.ok.injEq, eq_comm (a := a)]
  | error f =>
    rw [need]
    simp [not_ends_throw]

theorem ends_needFile {x : Except DiskFault α} {a : α} : (needFile x).Ends c a d ↔ x = .ok a ∧ d = c := by
  cases x with
  | ok b => rw [needFile, ends_pure, Except.ok.injEq, eq_comm (a := a)]
  | error f =>
    rw [needFile]
    simp [not_ends_throw]

/-! ## Files -/

theorem ends_requireFiles {names : List Text} {found : List Text} :
    (requireFiles (names.map some)).Ends c found d ↔
      (∀ name ∈ names, c.disk.contains name = true) ∧ found = names ∧ d = c := by
  induction names generalizing found d with
  | nil =>
    rw [List.map_nil, requireFiles, ends_pure]
    simp
  | cons name names ih =>
    simp only [List.map_cons, requireFiles, ends_bind, ends_get]
    constructor
    · rintro ⟨_, _, ⟨rfl, rfl⟩, h⟩
      split at h
      · simp only [ends_bind, not_ends_throw, false_and, and_false, exists_false] at h
      · rename_i hc
        simp only [ends_bind, ih, ends_pure] at h
        obtain ⟨_, _, ⟨hall, rfl, rfl⟩, rfl, rfl⟩ := h
        exact ⟨List.forall_mem_cons.2 ⟨by simpa using hc, hall⟩, rfl, rfl⟩
    · rintro ⟨hall, rfl, rfl⟩
      obtain ⟨hc, hall⟩ := List.forall_mem_cons.1 hall
      refine ⟨d, d, ⟨rfl, rfl⟩, ?_⟩
      rw [hc]
      simp only [Bool.not_true, Bool.false_eq_true, if_false, ends_bind, ih, ends_pure]
      exact ⟨names, d, ⟨hall, rfl, rfl⟩, rfl, rfl⟩

theorem ends_readFile {run : Nat} {name choice text : Text} {v : Value} (h : c.disk.Keeps name text) :
    (readFile run name choice).Ends c v d ↔ readJson run text = .ok v ∧ d = c := by
  simp only [readFile, if_neg h.ne_nullFile, ends_bind, ends_get, ends_needFile, ends_need]
  constructor
  · rintro ⟨_, _, ⟨rfl, rfl⟩, read, _, ⟨hread, rfl⟩, hv⟩
    rw [h.read] at hread
    cases hread
    exact hv
  · rintro ⟨hv, rfl⟩
    exact ⟨_, _, ⟨rfl, rfl⟩, _, _, ⟨h.read, rfl⟩, hv, rfl⟩

theorem ends_writeText {name text : Text} {u : Unit} :
    (writeText name text).Ends c u d ↔
      ∃ place, c.disk.placeFor name = .ok place ∧ d = { c with disk := c.disk.put place text } := by
  simp only [writeText, ends_bind, ends_get, ends_needFile, ends_modify, Disk.write, bind_eq_ok]
  constructor
  · rintro ⟨_, _, ⟨rfl, rfl⟩, _, _, ⟨⟨place, hplace, hput⟩, rfl⟩, rfl⟩
    cases hput
    exact ⟨place, hplace, rfl⟩
  · rintro ⟨place, hplace, rfl⟩
    exact ⟨_, _, ⟨rfl, rfl⟩, _, _, ⟨⟨place, hplace, rfl⟩, rfl⟩, rfl⟩

/-- A value is written to a file by its text, and nothing else is written. -/
theorem ends_writeFile {name : Text} {indent : Except Fault (Option Int)} {v : Value} {u : Unit} :
    (writeFile name indent v).Ends c u d ↔ ∃ i text after, indent = .ok i ∧ writeJson i v = .ok text ∧
      c.disk.Writes name text after ∧ d = { c with disk := after } := by
  simp only [writeFile, ends_bind, ends_need, ends_writeText, bind_eq_ok]
  constructor
  · rintro ⟨_, _, ⟨place, hplace, rfl⟩, text, _, ⟨⟨i, hi, htext⟩, rfl⟩, again, hagain, rfl⟩
    have hput : (c.disk.put place []).placeFor name = .ok place := Disk.placeFor_put hplace []
    rw [hput] at hagain
    cases hagain
    exact ⟨i, text, _, hi, htext, ⟨place, hplace, rfl⟩, rfl⟩
  · rintro ⟨i, text, _, hi, htext, ⟨place, hplace, rfl⟩, rfl⟩
    exact ⟨(), _, ⟨place, hplace, rfl⟩, text, _, ⟨⟨i, hi, htext⟩, rfl⟩, place,
      Disk.placeFor_put hplace [], rfl⟩

/-! ## Early ends -/

/-- The steps never end early with code 0. -/
def Steady (x : Run α) : Prop := ∀ c d, x.from_ c ≠ (.error (.code 0), d)

theorem steady_bind {x : Run α} {f : α → Run β} (hx : x.Steady) (hf : ∀ a, (f a).Steady) :
    (x >>= f).Steady := by
  intro c d h
  rw [from_bind] at h
  split at h
  · exact hf _ _ _ h
  · rename_i ended e he
    cases h
    exact hx _ _ he

theorem steady_pure (a : α) : (pure a : Run α).Steady := by
  intro c d h
  cases h

theorem steady_throw {ended : Exit} (h : ended ≠ .code 0) : (throw ended : Run α).Steady := by
  intro c d ht
  have hc : (throw ended : Run α).from_ c = (.error ended, c) := rfl
  rw [hc] at ht
  cases ht
  exact h rfl

theorem steady_modify (f : Console → Console) : (modify f : Run Unit).Steady := by
  intro c d h
  cases h

theorem steady_get : (get : Run Console).Steady := by
  intro c d h
  cases h

theorem steady_need (x : Except Fault α) : (need x).Steady := by
  cases x with
  | ok a => exact steady_pure a
  | error f => exact steady_throw (by simp)

theorem steady_needFile (x : Except DiskFault α) : (needFile x).Steady := by
  cases x with
  | ok a => exact steady_pure a
  | error f => exact steady_throw (by simp)

theorem steady_requireFiles (names : List (Option Text)) : (requireFiles names).Steady := by
  induction names with
  | nil => exact steady_pure _
  | cons name names ih =>
    cases name with
    | none => exact steady_throw (by simp)
    | some name =>
      refine steady_bind steady_get fun c => ?_
      dsimp only
      split
      · exact steady_bind (steady_modify _) fun _ => steady_bind (steady_throw (by simp)) fun _ =>
          steady_bind ih fun _ => steady_pure _
      · exact steady_bind ih fun _ => steady_pure _

theorem steady_readFile (run : Nat) (name choice : Text) : (readFile run name choice).Steady := by
  unfold readFile
  split
  · exact steady_need _
  · exact steady_bind steady_get fun _ => steady_bind (steady_needFile _) fun _ => steady_need _

theorem steady_writeText (name text : Text) : (writeText name text).Steady :=
  steady_bind steady_get fun _ => steady_bind (steady_needFile _) fun _ => steady_modify _

theorem steady_writeFile (name : Text) (indent : Except Fault (Option Int)) (v : Value) :
    (writeFile name indent v).Steady :=
  steady_bind (steady_writeText _ _) fun _ => steady_bind (steady_need _) fun _ => steady_writeText _ _

end Run

/-! ## Words -/

/-- No settings file is there. -/
def Console.Unsettled (c : Console) : Prop :=
  ∀ directory ∈ c.settings.searchPath, c.settings.load (Settings.baseName ++ ".json") directory = .ok none

/-- The console with the level that the options ask for. -/
def Console.leveled (c : Console) (o : Options) : Console := { c with level := o.level?.getD c.level }

namespace Program

open Run

variable {c d : Console}

/-- Without settings files the program takes the words for options and the names of files. -/
def Takes (p : Program) (words : List Text) (o : Options) (names : List Text) : Prop :=
  p.grammar.parse Program.defaults words = .run o.given o.defaults (names.map some)

theorem defaults_unsettled (p : Program) (hc : c.Unsettled) :
    (p.settingsOrNone c.settings).map defaultsWith = .ok Program.defaults := by
  rw [settingsOrNone, Settings.build, Settings.merged, Settings.eachFile_missing hc]
  cases p <;> cbv

variable {p : Program} {o : Options} {words names : List Text}

theorem ends_parseWords (hc : c.Unsettled) (h : p.Takes words o names)
    {found : Options × List (Option Text)} :
    (p.parseWords words).Ends c found d ↔ found = (o, names.map some) ∧ d = c := by
  have hdefaults := defaults_unsettled p hc
  cases hs : p.settingsOrNone c.settings with
  | error f => rw [hs] at hdefaults; cases hdefaults
  | ok settings =>
    rw [hs, Except.map, Except.ok.injEq] at hdefaults
    rw [Takes] at h
    simp only [parseWords, ends_bind, ends_get, ends_need]
    constructor
    · rintro ⟨_, _, ⟨rfl, rfl⟩, _, _, ⟨hread, rfl⟩, hparse⟩
      rw [hs] at hread
      cases hread
      simp only [hdefaults, h, ends_pure] at hparse
      exact hparse
    · rintro ⟨rfl, rfl⟩
      refine ⟨_, _, ⟨rfl, rfl⟩, _, _, ⟨hs, rfl⟩, ?_⟩
      simp only [hdefaults, h, ends_pure, and_self]

/-- What a program does with files of these names. -/
def onFiles (o : Options) : Program → List Text → Run Nat
  | update, [source, commands] => runUpdate o source commands
  | mergeDiff, [before, after, stored, merging] => runMerge o before after stored merging
  | _, _ => throw (.code 2)

theorem run_eq (p : Program) (words : List Text) :
    p.run words = (do
      let (o, arguments) ← p.parseWords words
      if let some level := o.level? then modify fun c => { c with level := level }
      onFiles o p (← requireFiles arguments)) := rfl

/-- A program that has taken its words goes on to the files, if they are all there. -/
theorem run_from (hw : (p.parseWords words).Ends c (o, names.map some) c)
    (hn : ∀ name ∈ names, c.disk.contains name = true) :
    (p.run words).from_ c = (onFiles o p names).from_ (c.leveled o) := by
  have hfiles : (requireFiles (names.map some)).Ends (c.leveled o) names (c.leveled o) :=
    ends_requireFiles.2 ⟨hn, rfl, rfl⟩
  rw [run_eq, from_bind_of_ends hw]
  cases hl : o.level? with
  | none =>
    have hc : c.leveled o = c := by rw [Console.leveled, hl]; rfl
    rw [hc] at hfiles ⊢
    simp only [hl]
    exact from_bind_of_ends hfiles
  | some level =>
    have hm : (modify fun c : Console => { c with level := level } : Run Unit).Ends c () (c.leveled o) := by
      rw [ends_modify, Console.leveled, hl]
      rfl
    simp only [hl]
    rw [from_bind_of_ends hm]
    exact from_bind_of_ends hfiles

/-- A program goes on to the files that its words name, if they are all there. -/
theorem ends_run {n : Nat} (hc : c.Unsettled) (h : p.Takes words o names) :
    (p.run words).Ends c n d ↔
      (∀ name ∈ names, c.disk.contains name = true) ∧ (onFiles o p names).Ends (c.leveled o) n d := by
  cases hl : o.level? with
  | none =>
    have hc' : c.leveled o = c := by rw [Console.leveled, hl]; rfl
    simp [run_eq, ends_bind, ends_parseWords hc h, hl, ends_requireFiles, hc', and_assoc]
  | some level =>
    have hc' : c.leveled o = { c with level := level } := by rw [Console.leveled, hl]; rfl
    simp [run_eq, ends_bind, ends_parseWords hc h, hl, ends_requireFiles, ends_modify, hc', and_assoc]

/-! ## What the programs do to files -/

theorem disk_showDelta {e : Delta} {u : Unit} (h : (showDeltaOrNone o e).Ends c u d) : d.disk = c.disk := by
  unfold showDeltaOrNone at h
  split at h
  · rw [print, ends_modify] at h
    rw [h]
  · simp only [showDelta, print, ends_bind, ends_get, ends_need, ends_modify] at h
    obtain ⟨_, _, ⟨rfl, rfl⟩, style, _, ⟨-, rfl⟩, _, _, rfl, h⟩ := h
    split at h
    · simp only [ends_bind, not_ends_throw, false_and, exists_false] at h
    · simp only [ends_bind, ends_need, ends_modify] at h
      obtain ⟨_, _, ⟨-, rfl⟩, rfl⟩ := h
      rfl

/-- An update of one text by another: what the two are read as, what comes of them, and the texts
of the delta and of the result. -/
structure Updating (o : Options) (source commands delta result : Text) where
  value : Value
  raw : Value
  outcome : Outcome
  indent : Option Int
  value_read : readJson Origin.firstFile.number source = .ok value
  raw_read : readJson Origin.secondFile.number commands = .ok raw
  updated : Value.update (Factory.functions []) Origin.result.number value raw = .ok outcome
  indented : o.indent = .ok indent
  delta_written : writeJson indent (outcome.delta.toDocument Origin.result.number []) = .ok delta
  result_written : writeJson indent outcome.value = .ok result

/-- An update that ends with 0 has written its delta, and then its result. -/
theorem runUpdate_ends {source commands out diff s t : Text} (hs : c.disk.Keeps source s)
    (ht : c.disk.Keeps commands t) (hout : o.file? "output" = .ok (some out))
    (hdiff : o.file? "diff_output" = .ok (some diff)) (h : (runUpdate o source commands).Ends c 0 d) :
    ∃ x r between, Nonempty (Updating o s t x r) ∧ c.disk.Writes diff x between ∧
      between.Writes out r d.disk := by
  simp only [runUpdate, ends_bind, ends_readFile hs] at h
  obtain ⟨u, _, ⟨hu, rfl⟩, raw, e, hraw, _, e', hlog, h⟩ := h
  obtain ⟨hread, rfl⟩ := (ends_readFile ht).1 hraw
  rw [report, ends_modify] at hlog
  have hdisk : e'.disk = e.disk := by rw [hlog]
  clear hlog
  split at h
  · simp only [report, ends_bind, ends_pure] at h
    obtain ⟨_, _, _, hn, -⟩ := h
    cases hn
  · exact absurd h not_ends_throw
  · rename_i outcome hupdate
    simp only [hdiff, hout, need_ok, pure_bind, ends_bind, ends_writeFile] at h
    obtain ⟨_, _, ⟨i, x, between, hi, hx, hbetween, rfl⟩, _, _,
      ⟨j, r, after, hj, hr, hafter, rfl⟩, h⟩ := h
    rw [hi] at hj
    cases hj
    have hd : d.disk = after := by
      split at h
      · simp only [ends_bind, ends_pure] at h
        obtain ⟨_, _, hshow, -, rfl⟩ := h
        exact disk_showDelta hshow
      · rw [(ends_pure.1 h).2]
    rw [hdisk] at hbetween
    rw [hd]
    exact ⟨x, r, between, ⟨u, raw, outcome, i, hu, hread, hupdate, hi, hx, hr⟩, hbetween, hafter⟩

/-- Where an update can be carried out and both its results written, the run ends with 0 unless it
has something to show. -/
theorem ends_runUpdate {source commands out diff s t x r : Text} {between after : Disk}
    (hs : c.disk.Keeps source s) (ht : c.disk.Keeps commands t) (hout : o.file? "output" = .ok (some out))
    (hdiff : o.file? "diff_output" = .ok (some diff)) (hshow : (o.get "show_diff").isTruthy = false)
    (m : Updating o s t x r) (hbetween : c.disk.Writes diff x between)
    (hafter : between.Writes out r after) :
    ∃ d, (runUpdate o source commands).Ends c 0 d ∧ d.disk = after := by
  let logged : Console := { c with log := c.log ++ shownAt c.level (updateLog m.raw) }
  refine ⟨{ logged with disk := after }, ?_, rfl⟩
  simp only [runUpdate, ends_bind]
  refine ⟨m.value, c, (ends_readFile hs).2 ⟨m.value_read, rfl⟩, m.raw, c,
    (ends_readFile ht).2 ⟨m.raw_read, rfl⟩, (), logged, ends_modify.2 rfl, ?_⟩
  simp only [m.updated, hdiff, hout, need_ok, pure_bind, ends_bind]
  refine ⟨(), { logged with disk := between },
    ends_writeFile.2 ⟨m.indent, x, between, m.indented, m.delta_written, hbetween, rfl⟩,
    (), { logged with disk := after },
    ends_writeFile.2 ⟨m.indent, r, after, m.indented, m.result_written, hafter, rfl⟩, ?_⟩
  rw [hshow]
  exact ends_pure.2 ⟨rfl, rfl⟩

/-- A merge of two deltas: what the four texts are read as, the net delta, and its text. -/
structure Merging (o : Options) (before after stored merging net : Text) where
  first : Value
  last : Value
  storedDocument : Value
  mergingDocument : Value
  earlier : Delta
  later : Delta
  merged : Delta
  indent : Option Int
  first_read : readJson Origin.firstFile.number before = .ok first
  last_read : readJson Origin.secondFile.number after = .ok last
  stored_read : readJson Origin.thirdFile.number stored = .ok storedDocument
  merging_read : readJson Origin.fourthFile.number merging = .ok mergingDocument
  earlier_decoded : Delta.ofDocument storedDocument = .ok earlier
  later_decoded : Delta.ofDocument mergingDocument = .ok later
  merges : earlier.merge first last later = .ok merged
  indented : o.indent = .ok indent
  net_written : writeJson indent (merged.toDocument Origin.result.number []) = .ok net

theorem ends_readDelta {origin : Origin} {name text : Text} {document : Value} (h : c.disk.Keeps name text)
    (hread : readJson origin.number text = .ok document) {found : Except Fault Delta} :
    (readDelta origin name).Ends c found d ↔ found = Delta.ofDocument document ∧ d = c := by
  simp only [readDelta, ends_bind, ends_readFile h, ends_pure, hread]
  constructor
  · rintro ⟨_, _, ⟨hv, rfl⟩, rfl, rfl⟩
    cases hv
    exact ⟨rfl, rfl⟩
  · rintro ⟨rfl, rfl⟩
    exact ⟨document, d, ⟨rfl, rfl⟩, rfl, rfl⟩

/-- Where a merge can be carried out and its result written, the run ends with 0. -/
theorem runMerge_ends {before after stored merging out s t x y net : Text} {disk : Disk}
    (hbefore : c.disk.Keeps before s) (hafter : c.disk.Keeps after t) (hstored : c.disk.Keeps stored x)
    (hmerging : c.disk.Keeps merging y) (hout : o.file? "output" = .ok (some out))
    (m : Merging o s t x y net) (hwrite : c.disk.Writes out net disk) :
    (runMerge o before after stored merging).Ends c 0 { c with disk := disk } := by
  simp only [runMerge, ends_bind]
  refine ⟨m.first, c, (ends_readFile hbefore).2 ⟨m.first_read, rfl⟩, m.last, c,
    (ends_readFile hafter).2 ⟨m.last_read, rfl⟩, _, c,
    (ends_readDelta hstored m.stored_read).2 ⟨rfl, rfl⟩, ?_⟩
  simp only [m.earlier_decoded, ends_bind]
  refine ⟨_, c, (ends_readDelta hmerging m.merging_read).2 ⟨rfl, rfl⟩, ?_⟩
  simp only [m.later_decoded, m.merges, hout, need_ok, pure_bind, ends_bind]
  exact ⟨(), _, ends_writeFile.2 ⟨m.indent, net, disk, m.indented, m.net_written, hwrite, rfl⟩,
    ends_pure.2 ⟨rfl, rfl⟩⟩

/-! ## Exit codes -/

theorem steady_showDelta (o : Options) (e : Delta) : (showDeltaOrNone o e).Steady := by
  unfold showDeltaOrNone
  split
  · exact steady_modify _
  · refine steady_bind steady_get fun _ => steady_bind (steady_need _) fun style => ?_
    refine steady_bind (steady_modify _) fun _ => ?_
    split
    · exact steady_bind (steady_throw (by simp)) fun _ => steady_bind (steady_need _) fun _ => steady_modify _
    · exact steady_bind (steady_need _) fun _ => steady_modify _

theorem steady_runUpdate (o : Options) (source commands : Text) : (runUpdate o source commands).Steady := by
  refine steady_bind (steady_readFile _ _ _) fun value => steady_bind (steady_readFile _ _ _) fun raw =>
    steady_bind (steady_modify _) fun _ => ?_
  split
  · exact steady_bind (steady_modify _) fun _ => steady_pure _
  · exact steady_throw (by simp)
  · rename_i outcome _
    have hshow : (if (o.get "show_diff").isTruthy then do
        showDeltaOrNone o outcome.delta
        pure 0 else pure 0 : Run Nat).Steady := by
      split
      · exact steady_bind (steady_showDelta _ _) fun _ => steady_pure _
      · exact steady_pure _
    refine steady_bind (steady_need _) fun diff => ?_
    dsimp only
    split
    · refine steady_bind (steady_writeFile _ _ _) fun _ => steady_bind (steady_need _) fun out => ?_
      split
      · exact steady_bind (steady_writeFile _ _ _) fun _ => hshow
      · exact steady_bind (steady_need _) fun _ => steady_bind (steady_modify _) fun _ => hshow
    · refine steady_bind (steady_need _) fun out => ?_
      split
      · exact steady_bind (steady_writeFile _ _ _) fun _ => hshow
      · exact steady_bind (steady_need _) fun _ => steady_bind (steady_modify _) fun _ => hshow

theorem steady_onFiles (o : Options) (names : List Text) : (onFiles o update names).Steady := by
  unfold onFiles
  split
  · exact steady_runUpdate _ _ _
  · contradiction
  · exact steady_throw (by simp)

theorem outcome_eq (x : Run Nat) (c : Console) :
    Dispatch.outcome c x = match x.from_ c with
      | (.ok n, d) => (.code n, d)
      | (.error ended, d) => (ended, d) := rfl

theorem outcome_of_ends {x : Run Nat} {n : Nat} (h : x.Ends c n d) :
    Dispatch.outcome c x = (.code n, d) := by
  rw [outcome_eq, show x.from_ c = (.ok n, d) from h]

/-- An update that has taken its words exits with 0 only if it goes through. -/
theorem ends_of_outcome (hc : c.Unsettled) (ht : update.Takes words o names)
    (h : Dispatch.outcome c (update.run words) = (.code 0, d)) : (update.run words).Ends c 0 d := by
  have hparsed : (update.parseWords words).from_ c = (.ok (o, names.map some), c) :=
    (ends_parseWords hc ht).2 ⟨rfl, rfl⟩
  have hrest : ∀ names, (do
      if let some level := o.level? then modify fun c => { c with level := level }
      onFiles o update (← requireFiles names) : Run Nat).Steady := by
    intro names
    dsimp only
    split
    · exact steady_bind (steady_modify _) fun _ => steady_bind (steady_requireFiles _) (steady_onFiles o)
    · exact steady_bind (steady_requireFiles _) (steady_onFiles o)
  rw [outcome_eq] at h
  split at h
  · rename_i n e he
    cases h
    exact he
  · rename_i ended e he
    cases h
    rw [run_eq, from_bind, hparsed] at he
    exact absurd he (hrest _ c d)

end Program

end TreeDelta
