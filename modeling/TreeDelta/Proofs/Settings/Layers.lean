import TreeDelta.Proofs.Except
import TreeDelta.Proofs.Fields
import TreeDelta.Proofs.Json.Parse
import TreeDelta.Settings.File
/-!
# Which setting is in force

Settings come in two orders at once: documents from the most to the least important, and the sections of
a program from its own to the most general. `Settings.inForce?` says how the two decide: the program's
own section first, no section beyond the one that defines the setting, and within a section the most
important document that mentions the key, where null leaves the section out of account. `build_layers`
says that this is what comes of writing document over document and section over section
(`Settings.build`), and that no section outside the chain matters.

Where sections hold plain settings, `Settings.overlay` cannot fail and is `lay`, entry by entry; look-up
after it is `get?_lay`, from which the rest is put together.
-/

namespace TreeDelta

namespace Settings

/-! ## Plain settings over others -/

/-- No setting is a section of its own. -/
def Flat (fields : List (Key × Value)) : Prop := ∀ k v, (k, v) ∈ fields → v.fields? = none

/-- One setting written over others: null takes its key away. -/
def layOne (k : Key) (v : Value) (target : List (Key × Value)) : List (Key × Value) :=
  if v = .null then Fields.erase k target else Fields.put k v target

/-- Plain settings written over others, in order. -/
def lay (target new : List (Key × Value)) : List (Key × Value) :=
  new.foldl (fun acc (k, v) => layOne k v acc) target

/-- A setting, unless it says nothing. -/
def said (setting : Option Value) : Option Value := setting.filter (· ≠ .null)

@[simp] theorem said_none : said none = none := rfl

@[simp] theorem said_null : said (some .null) = none := rfl

theorem said_some {v : Value} (h : v ≠ .null) : said (some v) = some v := by
  simp [said, h]

@[simp] theorem said_said (setting : Option Value) : said (said setting) = said setting := by
  cases setting with
  | none => rfl
  | some v => by_cases h : v = .null <;> simp [said, h]

/-- Writing a plain setting. -/
theorem overlay_cons_plain {v : Value} (h : v.fields? = none) (k : Key) (target rest : List (Key × Value)) :
    overlay false target ((k, v) :: rest) = overlay false (layOne k v target) rest := by
  cases v with
  | map => cases h
  | null => rw [overlay]; rfl
  | _ => rw [overlay] <;> first | rfl | simp

theorem overlay_flat {new target : List (Key × Value)} (h : Flat new) :
    overlay false target new = .ok (lay target new) := by
  induction new generalizing target with
  | nil => rw [overlay]; rfl
  | cons entry rest ih =>
    obtain ⟨k, v⟩ := entry
    obtain ⟨hv, hr⟩ := Fields.forall_cons.1 h
    rw [overlay_cons_plain hv]
    exact ih hr

theorem said_or {a b : Option Value} (ha : said a = a) (hb : said b = b) : said (a.or b) = a.or b := by
  cases a with
  | none => exact hb
  | some v => exact ha

theorem said_get? {fields : List (Key × Value)} (h : ∀ k v, (k, v) ∈ fields → v ≠ .null) (k : Key) :
    said (Fields.get? k fields) = Fields.get? k fields := by
  cases hk : Fields.get? k fields with
  | none => rfl
  | some v =>
    obtain ⟨l, hl, -⟩ := Fields.exists_mem_of_get? hk
    exact said_some (h l v hl)

theorem get?_layOne (k l : Key) (v : Value) (target : List (Key × Value)) :
    Fields.get? k (layOne l v target) = if k.same l then said (some v) else Fields.get? k target := by
  unfold layOne
  split
  · rename_i hv
    rw [Fields.get?_erase, hv, said_null]
  · rename_i hv
    rw [Fields.get?_put, said_some hv]

/-- Written settings are found, null takes away, and keys that are not mentioned keep what they had. -/
theorem get?_lay {new target : List (Key × Value)} (hd : Fields.Distinct new) (k : Key) :
    Fields.get? k (lay target new) =
      if (Fields.get? k new).isSome then said (Fields.get? k new) else Fields.get? k target := by
  induction new generalizing target with
  | nil => rfl
  | cons entry rest ih =>
    obtain ⟨l, v⟩ := entry
    have step : lay target ((l, v) :: rest) = lay (layOne l v target) rest := rfl
    rw [step, ih (Fields.distinct_cons.1 hd).2, get?_layOne, Fields.get?_cons]
    by_cases hk : k.same l = true
    · simp [hk, Fields.get?_rest_of_same hd hk]
    · simp [hk]

/-- Over settings none of which is null. -/
theorem get?_lay_said {new target : List (Key × Value)} (hd : Fields.Distinct new) {k : Key}
    {below : Option Value} (h : Fields.get? k target = said below) :
    Fields.get? k (lay target new) = said ((Fields.get? k new).or below) := by
  rw [get?_lay hd, h]
  cases Fields.get? k new <;> rfl

theorem forall_lay {P : Value → Prop} {new target : List (Key × Value)}
    (ht : ∀ k v, (k, v) ∈ target → P v) (hn : ∀ k v, (k, v) ∈ new → P v) :
    ∀ k v, (k, v) ∈ lay target new → P v := by
  induction new generalizing target with
  | nil => exact ht
  | cons entry rest ih =>
    obtain ⟨l, w⟩ := entry
    obtain ⟨hw, hr⟩ := Fields.forall_cons.1 hn
    have one : ∀ k v, (k, v) ∈ layOne l w target → P v := by
      intro k v hm
      unfold layOne at hm
      split at hm
      · exact ht k v (List.mem_filter.1 hm).1
      · rcases Fields.mem_put hm with ⟨-, rfl⟩ | hm
        · exact hw
        · exact ht k v hm
    exact ih one hr

theorem distinct_lay {new target : List (Key × Value)} (h : Fields.Distinct target) :
    Fields.Distinct (lay target new) := by
  induction new generalizing target with
  | nil => exact h
  | cons entry rest ih =>
    obtain ⟨k, v⟩ := entry
    have one : Fields.Distinct (layOne k v target) := by
      unfold layOne
      split
      · exact Fields.distinct_erase h
      · exact Fields.distinct_put h
    exact ih one

/-! ## Documents over others -/

/-- What a document says in the section of a name. -/
def entriesAt (name : Key) (document : List (Key × Value)) : List (Key × Value) :=
  ((Fields.get? name document).bind Value.fields?).getD []

/-- What a document says in a section. -/
def entriesIn (document : List (Key × Value)) (s : Section) : List (Key × Value) :=
  entriesAt (.str s.name) document

/-- All entries are sections. -/
def Sectioned (fields : List (Key × Value)) : Prop :=
  ∀ k v, Fields.get? k fields = some v → ∃ id entries, v = .map id entries

/-- All entries are sections of plain settings, none of which stands twice. -/
structure Plain (document : List (Key × Value)) : Prop where
  distinct : Fields.Distinct document
  sections : ∀ k v, (k, v) ∈ document → ∃ id entries, v = .map id entries ∧ Fields.Distinct entries ∧ Flat entries

theorem Plain.entries {document : List (Key × Value)} (h : Plain document) (k : Key) :
    Fields.Distinct (entriesAt k document) ∧ Flat (entriesAt k document) := by
  cases hk : Fields.get? k document with
  | none =>
    have e : entriesAt k document = [] := by rw [entriesAt, hk]; rfl
    rw [e]
    exact ⟨List.nodup_nil, fun _ _ hm => by cases hm⟩
  | some v =>
    obtain ⟨l, hl, -⟩ := Fields.exists_mem_of_get? hk
    obtain ⟨id, entries, rfl, hd, hf⟩ := h.sections l v hl
    have e : entriesAt k document = entries := by rw [entriesAt, hk]; rfl
    rw [e]
    exact ⟨hd, hf⟩

/-- A section as it is after writing: gone if it is left without entries. -/
theorem get?_settle_map (k l : Key) (id : Ident) (entries target : List (Key × Value)) :
    Fields.get? l (settle false k (.map id entries) target) =
      if l.same k then (if entries = [] then none else some (.map id entries)) else Fields.get? l target := by
  cases entries with
  | nil => exact Fields.get?_erase l k target
  | cons entry rest => exact Fields.get?_put l k _ target

theorem Sectioned.settle {target : List (Key × Value)} (h : Sectioned target) (k : Key) (id : Ident)
    (entries : List (Key × Value)) : Sectioned (settle false k (.map id entries) target) := by
  intro l v hv
  rw [get?_settle_map] at hv
  split at hv
  · split at hv
    · cases hv
    · cases hv; exact ⟨id, entries, rfl⟩
  · exact h l v hv

theorem entriesAt_settle (k l : Key) (id : Ident) (entries target : List (Key × Value)) :
    entriesAt l (settle false k (.map id entries) target) =
      if l.same k then entries else entriesAt l target := by
  rw [entriesAt, get?_settle_map]
  split
  · cases entries <;> rfl
  · rfl

/-- Writing a document over others writes section over section. -/
theorem overlay_plain {document target : List (Key × Value)} (h : Plain document)
    (ht : Sectioned target) :
    ∃ after, overlay false target document = .ok after ∧ Sectioned after ∧
      ∀ l, entriesAt l after = lay (entriesAt l target) (entriesAt l document) := by
  induction document generalizing target with
  | nil => exact ⟨target, by rw [overlay], ht, fun l => rfl⟩
  | cons entry rest ih =>
    obtain ⟨k, v⟩ := entry
    have hd := (Fields.distinct_cons.1 h.distinct).2
    obtain ⟨⟨id, new, rfl, hnew, hflat⟩, hs⟩ := Fields.forall_cons.1 h.sections
    obtain ⟨old, found⟩ : ∃ old, (Fields.get? k target).getD (.map id []) = .map old (entriesAt k target) := by
      cases hg : Fields.get? k target with
      | none => exact ⟨id, by rw [entriesAt, hg]; rfl⟩
      | some w =>
        obtain ⟨old, entries, rfl⟩ := ht k w hg
        exact ⟨old, by rw [entriesAt, hg]; rfl⟩
    obtain ⟨after, ha, hsec, hall⟩ := ih ⟨hd, hs⟩ (ht.settle k old (lay (entriesAt k target) new))
    refine ⟨after, ?_, hsec, fun l => ?_⟩
    · rw [overlay, found]
      simp only [overlay_flat hflat]
      exact ha
    · rw [hall l, entriesAt_settle]
      by_cases hl : l.same k = true
      · have e : entriesAt l rest = [] := by
          rw [entriesAt, Fields.get?_rest_of_same h.distinct hl]
          rfl
        have e' : entriesAt l ((k, .map id new) :: rest) = new := by
          rw [entriesAt, Fields.get?_cons, if_pos hl]; rfl
        have e'' : entriesAt l target = entriesAt k target := by
          rw [entriesAt, entriesAt, Fields.get?_congr hl]
        rw [if_pos hl, e, e', e'']
        rfl
      · have e : entriesAt l ((k, .map id new) :: rest) = entriesAt l rest := by
          rw [entriesAt, entriesAt, Fields.get?_cons, if_neg hl]
        rw [if_neg hl, e]

/-! ## Files -/

/-- The entries of a settings document of a known version: apart from the version, sections of plain
settings. -/
structure IsDocument (fields : List (Key × Value)) : Prop where
  version : ∀ v, Fields.get? versionKey fields = some v → v.equal knownVersion = true
  sections : ∀ k v, (k, v) ∈ fields → versionKey.same k = false → ∃ id entries, v = .map id entries ∧ Flat entries

/-- What a file says: nothing if it is missing. -/
inductive Carries : Option Text → List (Key × Value) → Prop
  | missing : Carries none []
  | document {text : Text} {id : Ident} {fields : List (Key × Value)}
      (read : readJson 0 text = .ok (.map id fields)) (isDocument : IsDocument fields) :
      Carries (some text) fields

/-- The loader reads files with these texts: it tells which are missing, and a JSON object that has no
version, or version 1, is a document with the object's entries, apart from the version. -/
structure Loader.Reads (load : Loader) (contents : Text → Text → Option Text) : Prop where
  missing : ∀ {name directory}, contents name directory = none → load name directory = .ok none
  document : ∀ {name directory text id fields}, contents name directory = some text →
    readJson 0 text = .ok (.map id fields) →
    (∀ v, Fields.get? versionKey fields = some v → v.equal knownVersion = true) →
    load name directory = .ok (some (Fields.erase versionKey fields))

theorem fileLoader_reads (contents : Text → Text → Option Text) : (fileLoader contents).Reads contents where
  missing := fun there => by rw [fileLoader, there]
  document := fun {name directory text id fields} there read version => by
    have known : ((Fields.get? versionKey fields).getD knownVersion).equal knownVersion = true := by
      cases hg : Fields.get? versionKey fields with
      | none => simp [knownVersion, Value.equal, Value.numeric?, Value.number?]
      | some v => exact version v hg
    rw [fileLoader, there]
    simp only [read, bind, Except.bind, if_pos known]

theorem IsDocument.plain {text : Text} {id : Ident} {fields : List (Key × Value)}
    (read : readJson 0 text = .ok (.map id fields)) (isDocument : IsDocument fields) :
    Plain (Fields.erase versionKey fields) := by
  obtain ⟨hd, hkeyed⟩ := Value.keyed_map.1 (Json.keyed_readJson read)
  refine ⟨Fields.distinct_erase hd, fun k v hm => ?_⟩
  obtain ⟨hm, hk⟩ := List.mem_filter.1 hm
  obtain ⟨id', entries, rfl, hflat⟩ := isDocument.sections k v hm (by simpa using hk)
  exact ⟨id', entries, rfl, (Value.keyed_map.1 (hkeyed k _ hm)).1, hflat⟩

theorem versionKey_not_section (s : Section) : (Key.str s.name).same versionKey = false := by
  cases s <;> decide

/-- The entries of a section, of all documents together; the most important document comes first. -/
def layers (documents : List (List (Key × Value))) (s : Section) : List (Key × Value) :=
  documents.foldr (fun document below => lay below (entriesIn document s)) []

/-- A document that says nothing could as well be gone through. -/
theorem eachFile_document {α : Type} {load : Loader} {base directory : Text}
    {step : α → List (Key × Value) → Except Fault α} {start : α} {document : List (Key × Value)}
    (h : load (base ++ ".json") directory = .ok (some document)) (nothing : step start [] = .ok start) :
    eachFile load base [directory] step start = step start document := by
  cases document with
  | nil => simp [eachFile, h, nothing, bind, Except.bind, pure, Except.pure]
  | cons entry rest =>
    simp only [eachFile, List.reverse_cons, List.reverse_nil, List.nil_append, List.foldlM_cons,
      List.foldlM_nil, h]
    exact bind_pure (step start (entry :: rest))

/-- The files together have, section by section, what their documents have. -/
theorem eachFile_eq_layers {load : Loader} {contents : Text → Text → Option Text}
    (reads : load.Reads contents) {base : Text} {path : List Text} {documents : List (List (Key × Value))}
    (h : List.Forall₂ Carries (path.map (contents (base ++ ".json"))) documents) :
    ∃ all, eachFile load base path (overlay false) [] = .ok all ∧ Sectioned all ∧
      ∀ s, entriesIn all s = layers documents s := by
  induction path generalizing documents with
  | nil =>
    cases h
    exact ⟨[], rfl, fun k v hv => by (cases hv), fun s => rfl⟩
  | cons directory path ih =>
    rw [List.map_cons] at h
    obtain ⟨fields, documents, hfile, hfiles, rfl⟩ := List.forall₂_cons_left_iff.1 h
    obtain ⟨all, ha, hsec, hall⟩ := ih hfiles
    rw [eachFile_cons, ha]
    generalize there : contents (base ++ ".json") directory = file at hfile
    cases hfile with
    | missing => exact ⟨all, eachFile_missing (by simpa using reads.missing there) _, hsec, hall⟩
    | @document text ident _ read isDocument =>
      obtain ⟨after, ho, hsec', hafter⟩ := overlay_plain (isDocument.plain read) hsec
      have hload := reads.document there read isDocument.version
      refine ⟨after, (eachFile_document hload (by rw [overlay])).trans ho, hsec', fun s => ?_⟩
      have e : entriesAt (.str s.name) (Fields.erase versionKey fields) = entriesIn fields s := by
        rw [entriesIn, entriesAt, entriesAt, Fields.get?_erase_other (versionKey_not_section s)]
      rw [entriesIn, hafter, e, ← entriesIn, hall s]
      rfl

/-! ## Sections over others -/

/-- What the documents set a key to in a section: the most important one that mentions it decides. -/
def setting? (documents : List (List (Key × Value))) (k : Key) (s : Section) : Option Value :=
  said (documents.findSome? fun document => Fields.get? k (entriesIn document s))

/-- The sections that can set a key, out of sections from the most special to the most general: none
beyond the first that defines the setting itself. -/
def ruling (k : Key) : List Section → List Section
  | [] => []
  | s :: more => if Fields.has k s.own then [s] else s :: ruling k more

/-- The setting in force: that of the most special section that can set it and does, and otherwise
what the sections define. -/
def inForce? (documents : List (List (Key × Value))) (sections : List Section) (k : Key) : Option Value :=
  ((ruling k sections).findSome? (setting? documents k)).or (sections.findSome? fun s => Fields.get? k s.own)

theorem inForce?_cons (documents : List (List (Key × Value))) (s : Section) (more : List Section) (k : Key) :
    inForce? documents (s :: more) k =
      (setting? documents k s).or ((Fields.get? k s.own).or (inForce? documents more k)) := by
  unfold inForce?
  rw [ruling, Fields.has, List.findSome?_cons]
  cases hown : Fields.get? k s.own with
  | none => cases hs : setting? documents k s <;> simp [hs]
  | some v => cases hs : setting? documents k s <;> simp [hs]

theorem own_regular (s : Section) :
    Fields.Distinct s.own ∧ Flat s.own ∧ ∀ k v, (k, v) ∈ s.own → v ≠ .null := by
  have hall : ∀ entry ∈ s.own, entry.2.fields? = none ∧ entry.2 ≠ .null := by cases s <;> decide
  exact ⟨by cases s <;> decide, fun k v hm => (hall _ hm).1, fun k v hm => (hall _ hm).2⟩

theorem layers_regular {documents : List (List (Key × Value))} {s : Section}
    (h : ∀ document ∈ documents, Flat (entriesIn document s)) :
    Fields.Distinct (layers documents s) ∧ Flat (layers documents s) := by
  induction documents with
  | nil => exact ⟨List.nodup_nil, fun _ _ hm => by cases hm⟩
  | cons document documents ih =>
    obtain ⟨hfirst, hrest⟩ := List.forall_mem_cons.1 h
    exact ⟨distinct_lay (ih hrest).1, forall_lay (ih hrest).2 hfirst⟩

theorem get?_layers {documents : List (List (Key × Value))} {s : Section}
    (h : ∀ document ∈ documents, Fields.Distinct (entriesIn document s)) (k : Key) :
    Fields.get? k (layers documents s) = setting? documents k s := by
  induction documents with
  | nil => rfl
  | cons document documents ih =>
    obtain ⟨hfirst, hrest⟩ := List.forall_mem_cons.1 h
    have step : layers (document :: documents) s = lay (layers documents s) (entriesIn document s) := rfl
    rw [step, get?_lay_said hfirst (ih hrest), setting?, List.findSome?_cons]
    cases Fields.get? k (entriesIn document s) <;> rfl

/-- The settings of sections from the most special to the most general. -/
def settingsFrom (documents : List (List (Key × Value))) (sections : List Section) : List (Key × Value) :=
  sections.foldr (fun s below => lay (lay below s.own) (layers documents s)) []

theorem get?_settingsFrom {documents : List (List (Key × Value))} (h : ∀ document ∈ documents, ∀ s,
    Fields.Distinct (entriesIn document s) ∧ Flat (entriesIn document s)) (sections : List Section)
    (k : Key) :
    Fields.get? k (settingsFrom documents sections) = inForce? documents sections k ∧
      said (inForce? documents sections k) = inForce? documents sections k := by
  induction sections with
  | nil => exact ⟨rfl, rfl⟩
  | cons s more ih =>
    obtain ⟨hbelow, hsaid⟩ := ih
    obtain ⟨hd, -, hnull⟩ := own_regular s
    have hlayers := get?_layers (fun document hm => (h document hm s).1) k
    have hdistinct := (layers_regular fun document hm => (h document hm s).2).1
    have hall : said ((setting? documents k s).or ((Fields.get? k s.own).or (inForce? documents more k))) =
        (setting? documents k s).or ((Fields.get? k s.own).or (inForce? documents more k)) :=
      said_or (said_said _) (said_or (said_get? hnull k) hsaid)
    have hown := get?_lay_said hd (hbelow.trans hsaid.symm)
    have step : settingsFrom documents (s :: more) =
        lay (lay (settingsFrom documents more) s.own) (layers documents s) := rfl
    rw [inForce?_cons]
    exact ⟨by rw [step, get?_lay_said hdistinct hown, hlayers, hall], hall⟩

/-- One more section: what it defines, and then what the documents say in it. -/
theorem addSection_ok {all : List (Key × Value)} {s : Section} (h : Sectioned all)
    (hflat : Flat (entriesIn all s)) (settings : List (Key × Value)) :
    addSection false all settings s = .ok (lay (lay settings s.own) (entriesIn all s)) := by
  rw [addSection, overlay_flat (own_regular s).2.1]
  cases hs : Fields.get? (.str s.name) all with
  | none =>
    have e : entriesIn all s = [] := by rw [entriesIn, entriesAt, hs]; rfl
    rw [e]
    rfl
  | some v =>
    obtain ⟨id, entries, rfl⟩ := h _ v hs
    have e : entriesIn all s = entries := by rw [entriesIn, entriesAt, hs]; rfl
    rw [e] at hflat ⊢
    exact overlay_flat hflat

theorem Carries.entries {file : Option Text} {document : List (Key × Value)} (h : Carries file document)
    (s : Section) : Fields.Distinct (entriesIn document s) ∧ Flat (entriesIn document s) := by
  cases h with
  | missing => exact ⟨List.nodup_nil, fun _ _ hm => by cases hm⟩
  | @document text id fields read isDocument =>
    have hplain := (isDocument.plain read).entries (.str s.name)
    rwa [entriesAt, Fields.get?_erase_other (versionKey_not_section s)] at hplain

/-- The texts of the settings files, the most important first. -/
def Source.files (source : Source) (contents : Text → Text → Option Text) : List (Option Text) :=
  source.searchPath.map (contents (baseName ++ ".json"))

section
variable {source : Source} {contents : Text → Text → Option Text} {documents : List (List (Key × Value))}

theorem build_eq {p : Program} (reads : source.load.Reads contents)
    (h : List.Forall₂ Carries (source.files contents) documents) :
    build source false p = .ok (settingsFrom documents p.ownSection.chain.reverse) := by
  have hflat : ∀ s, Flat (layers documents s) := fun s =>
    (layers_regular fun document hm => by
      obtain ⟨file, -, hf⟩ := exists_of_forall₂ h.flip hm
      exact (hf.entries s).2).2
  obtain ⟨all, ha, hsec, hall⟩ := eachFile_eq_layers reads h
  have step : addSection false all = fun settings s => .ok (lay (lay settings s.own) (layers documents s)) := by
    funext settings s
    rw [addSection_ok hsec (hall s ▸ hflat s), hall s]
  rw [build, merged, ha]
  show List.foldlM (addSection false all) [] p.ownSection.chain = _
  rw [step, settingsFrom, List.foldr_reverse]
  exact List.foldlM_pure

/-- The settings of a program are those in force, whatever the files that its loader reads: for every key,
the setting of the program's own section or of the one next to it that has one, not beyond the section that
defines it, and else the default; within a section the most important file that mentions the key decides.
Files that agree on the sections of the program's chain give the same settings. -/
theorem build_layers {p : Program} (reads : source.load.Reads contents)
    (h : List.Forall₂ Carries (source.files contents) documents) :
    ∃ settings, build source false p = .ok settings ∧
      (∀ k, Fields.get? k settings = inForce? documents p.ownSection.chain.reverse k) ∧
      ∀ {other : Source} {otherContents : Text → Text → Option Text}
        {otherDocuments : List (List (Key × Value))}, other.load.Reads otherContents →
        List.Forall₂ Carries (other.files otherContents) otherDocuments →
        List.Forall₂ (fun document other => ∀ s ∈ p.ownSection.chain,
          entriesIn document s = entriesIn other s) documents otherDocuments →
        build other false p = .ok settings := by
  have regular : ∀ document ∈ documents, ∀ s,
      Fields.Distinct (entriesIn document s) ∧ Flat (entriesIn document s) := fun document hm => by
    obtain ⟨file, -, hf⟩ := exists_of_forall₂ h.flip hm
    exact hf.entries
  refine ⟨_, build_eq reads h, fun k => (get?_settingsFrom regular _ k).1, ?_⟩
  intro other otherContents otherDocuments otherReads ho agree
  have same : ∀ s ∈ p.ownSection.chain, layers documents s = layers otherDocuments s := by
    intro s hs
    clear h ho regular
    induction agree with
    | nil => rfl
    | cons hfirst _ ih => simp only [layers, List.foldr_cons] at ih ⊢; rw [ih, hfirst s hs]
  rw [build_eq otherReads ho, settingsFrom, settingsFrom]
  congr 1
  refine List.foldr_ext _ _ _ fun s hs below => ?_
  rw [same s (List.mem_reverse.1 hs)]

end

/-- A null in the most important file unsets what a less important one says in that section, the general
section that sets the indentation too is then heard, and colour is not taken from a section more general
than the one that defines it. -/
theorem build_layers_of_null :
    let first : Text := "\x7b\"Update\": \x7b\"indent\": null\x7d, \"Global\": \x7b\"color\": false\x7d\x7d"
    let last : Text :=
      "\x7b\"version\": 1, \"Update\": \x7b\"indent\": 4\x7d, \"_Printing\": \x7b\"indent\": 8\x7d\x7d"
    let texts : List (Text × Text) := [("/work", first), ("/etc", last)]
    let contents (_ directory : Text) : Option Text := texts.lookup directory
    let source : Source :=
      { load := fileLoader contents, working := "/work", configPath := ["/home", "/etc"] }
    ∃ documents settings, source.load.Reads contents ∧
      List.Forall₂ Carries (source.files contents) documents ∧
      build source false .update = .ok settings ∧
      Fields.get? (.str "indent") settings = some (.int 8) ∧
      Fields.get? (.str "color") settings = some (.bool true) := by
  intro first last texts contents source
  let upper : List (Key × Value) :=
    [(.str "Update", .map ⟨0, [.int 0]⟩ [(.str "indent", .null)]),
      (.str "Global", .map ⟨0, [.int 1]⟩ [(.str "color", .bool false)])]
  let lower : List (Key × Value) :=
    [(.str "version", .int 1), (.str "Update", .map ⟨0, [.int 1]⟩ [(.str "indent", .int 4)]),
      (.str "_Printing", .map ⟨0, [.int 2]⟩ [(.str "indent", .int 8)])]
  have hupper : IsDocument upper := by
    refine ⟨fun v hv => ?_, fun k v hm _ => ?_⟩
    · have none_there : Fields.get? versionKey upper = none := by decide
      rw [none_there] at hv
      cases hv
    · simp only [upper, List.mem_cons, Prod.mk.injEq, List.not_mem_nil, or_false] at hm
      rcases hm with ⟨-, rfl⟩ | ⟨-, rfl⟩ <;> exact ⟨_, _, rfl, by simp [Flat, Value.fields?]⟩
  have hlower : IsDocument lower := by
    refine ⟨fun v hv => ?_, fun k v hm hk => ?_⟩
    · have one_there : Fields.get? versionKey lower = some (.int 1) := by decide
      rw [one_there] at hv
      cases hv
      simp [knownVersion, Value.equal, Value.numeric?, Value.number?]
    · simp only [lower, List.mem_cons, Prod.mk.injEq, List.not_mem_nil, or_false] at hm
      rcases hm with ⟨rfl, -⟩ | ⟨-, rfl⟩ | ⟨-, rfl⟩
      · exact absurd hk (by decide)
      · exact ⟨_, _, rfl, by simp [Flat, Value.fields?]⟩
      · exact ⟨_, _, rfl, by simp [Flat, Value.fields?]⟩
  have hfirst : readJson 0 first = .ok (.map ⟨0, []⟩ upper) := by
    decide +kernel
  have hlast : readJson 0 last = .ok (.map ⟨0, []⟩ lower) := by
    decide +kernel
  have files : source.files contents = [some first, none, some last] := by
    simp only [source, Source.files, Source.searchPath, List.map_cons, List.map_nil, contents, texts]
    decide
  have carried : List.Forall₂ Carries (source.files contents) [upper, [], lower] :=
    files ▸ .cons (.document hfirst hupper) (.cons .missing (.cons (.document hlast hlower) .nil))
  have reads : source.load.Reads contents := fileLoader_reads contents
  obtain ⟨settings, hbuild, hget, -⟩ := build_layers (p := .update) reads carried
  exact ⟨_, settings, reads, carried, hbuild, (hget _).trans (by decide), (hget _).trans (by decide)⟩

end Settings

end TreeDelta
