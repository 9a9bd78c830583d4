import TreeDelta.Proofs.Delta.Chain
import TreeDelta.Proofs.Delta.Document
/-!
# Which documents are deltas

The grammar of delta documents (`Json.IsDelta`) and what decoding does with data outside of it. All
that is refused is refused with a fault of the delta, but for one case: where a list of accepted
entries goes on with an entry whose key is a list or an object, decoding stumbles over the key itself
(`Json.Stumbles`).

Decoding a list takes its entries one after the other (`ofEntries_append`), and an entry with a key is
taken in by `contentOf`. So everything is proved for one more entry at the end of a list and for the
lists in patch entries, which is what `Json.entries_induction` goes by.
-/

namespace TreeDelta

/-! ## The grammar -/

namespace Json

def toKey? : Json → Option Key
  | null => some .null
  | bool b => some (.bool b)
  | int i => some (.int i)
  | float x => some (.float x)
  | nan => some (.nan Ident.ofNaN)
  | str s => some (.str s)
  | arr _ | obj _ => none

/-- The key of an entry, if it is a scalar. -/
def entryKey? (item : Json) : Option Key := (item.get? "key").bind toKey?

/-- The object tells a change: its `op` is the name of a kind. -/
def NamesChange (item : Json) : Prop := ∃ kind : ChangeKind, item.get? "op" = some (.str kind.name)

/-- The object tells a tree, whose entries these are. -/
def Patches (item : Json) (inner : List Json) : Prop :=
  item.get? "op" = some (.str "patch") ∧ item.get? "diff" = some (.arr inner)

/-- The items are the entries of a tree: each has a scalar for its key, no two have the same key, and
each tells a change or a tree that is not empty. -/
inductive AreEntries : List Json → Prop where
  | of {items : List Json} (keyed : ∀ item ∈ items, item.entryKey?.isSome = true)
      (apart : (items.filterMap entryKey?).Pairwise fun k l => k.same l = false)
      (told : ∀ item ∈ items, item.NamesChange ∨ ∃ inner, item.Patches inner)
      (nonempty : ∀ item inner, item ∈ items → item.Patches inner → inner ≠ [])
      (below : ∀ item inner, item ∈ items → item.Patches inner → AreEntries inner) : AreEntries items

/-- The document is that of a delta: null, a change, or a list of entries. -/
def IsDelta (j : Json) : Prop :=
  j = .null ∨ j.NamesChange ∨ ∃ items, j = .arr items ∧ AreEntries items

/-- Decoding of the list comes to an entry whose key is a list or an object: all entries before it, and
before those that it stands in, are accepted. -/
inductive Stumbles : List Json → Prop where
  | key {done rest : List Json} {item key : Json} (accepted : AreEntries done)
      (keyed : item.get? "key" = some key) (container : key.toKey? = none) :
      Stumbles (done ++ item :: rest)
  | inside {done rest inner : List Json} {item : Json} {k : Key} (accepted : AreEntries done)
      (keyed : item.entryKey? = some k) (fresh : ∀ l ∈ done.filterMap entryKey?, k.same l = false)
      (patch : item.Patches inner) (stumbles : Stumbles inner) : Stumbles (done ++ item :: rest)

/-- Decoding stumbles over a key of the document. -/
def IsStumbling (j : Json) : Prop := ∃ items, j = .arr items ∧ Stumbles items

variable {item : Json} {inner done rest : List Json}

theorem Patches.unique {other : List Json} (h : item.Patches inner) (h' : item.Patches other) :
    inner = other := by
  have e := h.2.symm.trans h'.2
  cases e
  rfl

theorem Patches.not_namesChange (h : item.Patches inner) : ¬ item.NamesChange := by
  rintro ⟨kind, hk⟩
  have hname : kind.name ≠ "patch" := by cases kind <;> decide
  rw [h.1, Option.some.injEq, Json.str.injEq] at hk
  exact hname hk.symm

theorem Patches.sizeOf_lt (h : item.Patches inner) : sizeOf inner < sizeOf item := by
  cases item with
  | obj members =>
    have hd := h.2
    simp only [get?, Option.map_eq_some_iff] at hd
    obtain ⟨⟨name, j⟩, hf, e⟩ := hd
    have hm := List.sizeOf_lt_of_mem (List.mem_of_find?_eq_some hf)
    simp only at e
    subst e
    simp at hm ⊢
    omega
  | _ => cases h.2

/-- What holds of no entries, and of one more as soon as it holds of those before it and of the list in
it, holds of all lists. -/
theorem entries_induction {P : List Json → Prop} (nil : P [])
    (snoc : ∀ done item, P done → (∀ inner, item.Patches inner → P inner) → P (done ++ [item]))
    (items : List Json) : P items := by
  have prefixes : ∀ front, front <+: items → P front := by
    intro front
    induction front using List.reverseRecOn with
    | nil => exact fun _ => nil
    | append_singleton front item ih =>
      intro hp
      have hm : item ∈ items := hp.subset (by simp)
      refine snoc front item (ih ((List.prefix_append ..).trans hp)) fun inner hi => ?_
      have hitem := List.sizeOf_lt_of_mem hm
      have hinner := hi.sizeOf_lt
      exact entries_induction nil snoc inner
  exact prefixes items (List.prefix_refl items)
termination_by sizeOf items

theorem areEntries_nil : AreEntries [] := .of (by simp) (by simp) (by simp) (by simp) (by simp)

theorem AreEntries.front (h : AreEntries (done ++ [item])) : AreEntries done := by
  cases h with
  | of keyed apart told nonempty below =>
    have hm : ∀ j ∈ done, j ∈ done ++ [item] := fun j hj => List.mem_append_left _ hj
    refine .of (fun j hj => keyed j (hm j hj)) ?_ (fun j hj => told j (hm j hj))
      (fun j inner hj => nonempty j inner (hm j hj)) fun j inner hj => below j inner (hm j hj)
    rw [List.filterMap_append] at apart
    exact (List.pairwise_append.1 apart).1

/-- What the last entry is, beside the others. -/
theorem AreEntries.last (h : AreEntries (done ++ [item])) :
    ∃ k, item.entryKey? = some k ∧ (∀ l ∈ done.filterMap entryKey?, k.same l = false) ∧
      (item.NamesChange ∨ ∃ inner, item.Patches inner ∧ inner ≠ [] ∧ AreEntries inner) := by
  cases h with
  | of keyed apart told nonempty below =>
    have hm : item ∈ done ++ [item] := by simp
    obtain ⟨k, hk⟩ := Option.isSome_iff_exists.1 (keyed item hm)
    refine ⟨k, hk, fun l hl => ?_, ?_⟩
    · rw [List.filterMap_append] at apart
      rw [Key.same_comm]
      exact (List.pairwise_append.1 apart).2.2 l hl k (by simp [hk])
    · rcases told item hm with hc | ⟨inner, hi⟩
      · exact Or.inl hc
      · exact Or.inr ⟨inner, hi, nonempty item inner hm hi, below item inner hm hi⟩

theorem AreEntries.snoc {k : Key} (h : AreEntries done) (hk : item.entryKey? = some k)
    (fresh : ∀ l ∈ done.filterMap entryKey?, k.same l = false)
    (hi : item.NamesChange ∨ ∃ inner, item.Patches inner ∧ inner ≠ [] ∧ AreEntries inner) :
    AreEntries (done ++ [item]) := by
  have inside : ∀ other, item.Patches other → other ≠ [] ∧ AreEntries other := by
    intro other ho
    rcases hi with hc | ⟨inner, hi, hne, hin⟩
    · exact absurd hc ho.not_namesChange
    · rw [ho.unique hi]
      exact ⟨hne, hin⟩
  cases h with
  | of keyed apart told nonempty below =>
    refine .of ?_ ?_ ?_ ?_ ?_
    · simpa [or_imp, forall_and, hk] using keyed
    · rw [List.filterMap_append, List.pairwise_append]
      refine ⟨apart, by simp [hk], fun l hl m hm => ?_⟩
      obtain rfl : m = k := by simpa [hk] using hm
      rw [Key.same_comm]
      exact fresh l hl
    · intro j hj
      rcases List.mem_append.1 hj with hj | hj
      · exact told j hj
      · rw [List.mem_singleton.1 hj]
        exact hi.imp_right fun ⟨inner, hi, _⟩ => ⟨inner, hi⟩
    · intro j inner hj hp
      rcases List.mem_append.1 hj with hj | hj
      · exact nonempty j inner hj hp
      · rw [List.mem_singleton.1 hj] at hp
        exact (inside inner hp).1
    · intro j inner hj hp
      rcases List.mem_append.1 hj with hj | hj
      · exact below j inner hj hp
      · rw [List.mem_singleton.1 hj] at hp
        exact (inside inner hp).2

theorem Stumbles.append (h : Stumbles done) (more : List Json) : Stumbles (done ++ more) := by
  cases h with
  | key accepted keyed container =>
    rw [List.append_assoc, List.cons_append]
    exact .key accepted keyed container
  | inside accepted keyed fresh patch stumbles =>
    rw [List.append_assoc, List.cons_append]
    exact .inside accepted keyed fresh patch stumbles

/-! ## Members as fields -/

/-- The fields of the value that an object stands for. -/
def fieldsOf (run : Nat) (place : List Key) (item : Json) : List (Key × Value) :=
  (Value.ofJson run place item).fields?.getD []

theorem get?_ofMembers (run : Nat) (place : List Key) (name : Text) (members : List (Text × Json)) :
    ∀ n, ∃ q, Fields.get? (.str name) (Value.ofMembers run place n members) =
      ((Json.obj members).get? name).map (Value.ofJson run q) := by
  induction members with
  | nil => exact fun _ => ⟨[], rfl⟩
  | cons m members ih =>
    intro n
    obtain ⟨other, j⟩ := m
    rw [Value.ofMembers, Fields.get?_cons]
    by_cases h : other = name
    · subst h
      exact ⟨.int n :: place, by simp [get?]⟩
    · have hs : Key.same (.str name) (.str other) = false := by
        simp [Key.same, Key.canon, Ne.symm h]
      obtain ⟨q, hq⟩ := ih (n + 1)
      refine ⟨q, ?_⟩
      rw [hs, if_neg Bool.false_ne_true, hq]
      simp [get?, h]

theorem get?_fieldsOf (run : Nat) (place : List Key) (item : Json) (name : Text) :
    ∃ q, Fields.get? (.str name) (fieldsOf run place item) = (item.get? name).map (Value.ofJson run q) := by
  cases item with
  | obj members => exact get?_ofMembers run place name members 0
  | _ => exact ⟨[], rfl⟩

theorem ofJson_eq_str {run : Nat} {place : List Key} {j : Json} {s : Text} :
    Value.ofJson run place j = .str s ↔ j = .str s := by
  cases j <;> simp [Value.ofJson]

theorem toKey?_ofJson (run : Nat) (place : List Key) (j : Json) :
    (Value.ofJson run place j).toKey? = j.toKey? := by
  cases j <;> simp [Value.ofJson, Value.toKey?, toKey?]

theorem ofItems_append (run : Nat) (place : List Key) (items more : List Json) :
    ∀ n, Value.ofItems run place n (items ++ more) =
      Value.ofItems run place n items ++ Value.ofItems run place (n + items.length) more := by
  induction items with
  | nil => exact fun _ => by simp [Value.ofItems]
  | cons j items ih =>
    intro n
    simp only [List.cons_append, Value.ofItems, ih, List.length_cons]
    congr 3
    omega

end Json

/-! ## Decoding entry by entry -/

namespace Delta

open Document

/-- What stands under the key of an entry: a change, or the tree of a list. -/
def contentOf (k : Key) (fields : List (Key × Value)) : Except Fault Delta :=
  if Fields.get? op fields = some patch then
    match patchOf fields with
    | none => .error (.delta (.patchWithoutList k))
    | some below => do
      let entries ← below
      if entries.isEmpty then .error (.delta (.emptyPatch k)) else .ok (tree entries)
  else (changeOf fields).map node

/-- An entry with a key that is not there yet is added to those before it. -/
theorem ofEntries_keyed {id : Ident} {fields : List (Key × Value)} {k : Key}
    (hk : (Fields.get? key fields).map Value.toKey? = some (some k)) (before : List (Key × Delta))
    (rest : List Value) :
    ofEntries before (.map id fields :: rest) =
      if Fields.has k before then .error (.delta (.duplicateKey k))
      else contentOf k fields >>= fun d => ofEntries (before ++ [(k, d)]) rest := by
  rw [ofEntries, hk]
  simp only
  split
  · rfl
  · rw [contentOf]
    split
    · cases patchOf fields with
      | none => rfl
      | some below =>
        cases below with
        | error f => rfl
        | ok entries => cases entries <;> rfl
    · cases changeOf fields <;> rfl

theorem ofEntries_append (items more : List Value) : ∀ before, ofEntries before (items ++ more) =
    ofEntries before items >>= fun entries => ofEntries entries more := by
  induction items with
  | nil => exact fun _ => by rw [ofEntries]; rfl
  | cons v items ih =>
    intro before
    cases v with
    | map id fields =>
      cases hk : (Fields.get? key fields).map Value.toKey? with
      | none => rw [List.cons_append, ofEntries, ofEntries, hk]; rfl
      | some found =>
        cases found with
        | none => rw [List.cons_append, ofEntries, ofEntries, hk]; rfl
        | some k =>
          rw [List.cons_append, ofEntries_keyed hk, ofEntries_keyed hk]
          split
          · rfl
          · simp only [ih, bind_assoc]
    | _ => rw [List.cons_append, ofEntries, ofEntries] <;> first | rfl | simp

variable {item : Json} {done rest inner : List Json} {k : Key}

/-- An item without a key is no entry. -/
theorem ofEntries_unkeyed (h : item.get? "key" = none) (run : Nat) (place : List Key)
    (before : List (Key × Delta)) (rest : List Value) :
    ∃ problem, ofEntries before (Value.ofJson run place item :: rest) = .error (.delta problem) := by
  refine ⟨.entryWithoutKey (Value.ofJson run place item), ?_⟩
  cases item with
  | obj members =>
    obtain ⟨q, hq⟩ := Json.get?_ofMembers run place "key" members 0
    rw [h] at hq
    rw [Value.ofJson, ofEntries, show key = .str "key" from rfl, hq]
    rfl
  | _ => rw [Value.ofJson, ofEntries]; simp

theorem toKey?_fieldsOf {found : Option Key} {j : Json} (h : item.get? "key" = some j)
    (hj : j.toKey? = found) (run : Nat) (place : List Key) :
    (Fields.get? key (Json.fieldsOf run place item)).map Value.toKey? = some found := by
  obtain ⟨q, hq⟩ := Json.get?_fieldsOf run place item "key"
  rw [show key = .str "key" from rfl, hq, h]
  simp [Json.toKey?_ofJson, hj]

theorem ofJson_of_get? {name : Text} {j : Json} (h : item.get? name = some j) (run : Nat)
    (place : List Key) : Value.ofJson run place item = .map ⟨run, place⟩ (Json.fieldsOf run place item) := by
  cases item with
  | obj members => rfl
  | _ => cases h

theorem ofEntries_container {j : Json} (h : item.get? "key" = some j) (hj : j.toKey? = none) (run : Nat)
    (place : List Key) (before : List (Key × Delta)) (rest : List Value) :
    ofEntries before (Value.ofJson run place item :: rest) = .error .unhashable := by
  rw [ofJson_of_get? h, ofEntries, toKey?_fieldsOf h hj]

theorem ofEntries_item (h : item.entryKey? = some k) (run : Nat) (place : List Key)
    (before : List (Key × Delta)) (rest : List Value) :
    ofEntries before (Value.ofJson run place item :: rest) =
      if Fields.has k before then .error (.delta (.duplicateKey k))
      else contentOf k (Json.fieldsOf run place item) >>= fun d =>
        ofEntries (before ++ [(k, d)]) rest := by
  obtain ⟨j, hj, hk⟩ := Option.bind_eq_some_iff.1 h
  rw [ofJson_of_get? hj]
  exact ofEntries_keyed (toKey?_fieldsOf hj hk run place) before rest

/-! ## What stands under a key -/

theorem op_eq_patch (run : Nat) (place : List Key) (item : Json) :
    Fields.get? op (Json.fieldsOf run place item) = some patch ↔
      item.get? "op" = some (.str "patch") := by
  obtain ⟨q, hq⟩ := Json.get?_fieldsOf run place item "op"
  rw [show op = .str "op" from rfl, hq, patch]
  simp [Json.ofJson_eq_str]

theorem changeOf_named (h : item.NamesChange) (run : Nat) (place : List Key) :
    ∃ c : Change, c.kind?.isSome = true ∧ changeOf (Json.fieldsOf run place item) = .ok c := by
  obtain ⟨kind, hk⟩ := h
  obtain ⟨q, hq⟩ := Json.get?_fieldsOf run place item "op"
  rw [hk] at hq
  have hlabel : (Fields.get? op (Json.fieldsOf run place item)).getD .null = .str kind.name := by
    rw [show op = .str "op" from rfl, hq]
    rfl
  rw [changeOf, hlabel]
  simp only [ChangeKind.ofValue?_name]
  exact ⟨_, by simp [Change.kind?, ChangeKind.ofValue?_name], rfl⟩

theorem changeOf_unnamed (h : ¬ item.NamesChange) (run : Nat) (place : List Key) :
    ∃ problem, changeOf (Json.fieldsOf run place item) = .error (.delta problem) := by
  obtain ⟨q, hq⟩ := Json.get?_fieldsOf run place item "op"
  unfold changeOf
  simp only [show op = .str "op" from rfl, hq]
  split
  · rename_i kind hkind
    refine absurd ?_ h
    have hlabel := Change.label_of_kind (c := ⟨_, .absent, .absent⟩) hkind
    cases hop : item.get? "op" with
    | none => rw [hop] at hlabel; cases hlabel
    | some j =>
      rw [hop] at hlabel
      exact ⟨kind, by rw [hop, Json.ofJson_eq_str.1 hlabel]⟩
  · exact ⟨_, rfl⟩

theorem contentOf_change (h : item.NamesChange) (k : Key) (run : Nat) (place : List Key) :
    ∃ c : Change, c.kind?.isSome = true ∧ contentOf k (Json.fieldsOf run place item) = .ok (node c) := by
  have hp : ¬ Fields.get? op (Json.fieldsOf run place item) = some patch := by
    rw [op_eq_patch]
    obtain ⟨kind, hk⟩ := h
    rw [hk]
    cases kind <;> simp [ChangeKind.name] <;> decide
  obtain ⟨c, hc, e⟩ := changeOf_named h run place
  exact ⟨c, hc, by rw [contentOf, if_neg hp, e]; rfl⟩

theorem contentOf_patch (h : item.Patches inner) (k : Key) (run : Nat) (place : List Key) :
    ∃ q, contentOf k (Json.fieldsOf run place item) =
      ofEntries [] (Value.ofItems run q 0 inner) >>= fun entries =>
        if entries.isEmpty then .error (.delta (.emptyPatch k)) else .ok (tree entries) := by
  obtain ⟨q, hq⟩ := Json.get?_fieldsOf run place item "diff"
  rw [h.2] at hq
  refine ⟨q, ?_⟩
  rw [contentOf, if_pos ((op_eq_patch run place item).2 h.1), patchOf_eq,
    show diff = .str "diff" from rfl, hq]
  rfl

theorem contentOf_other (hc : ¬ item.NamesChange) (hp : ¬ ∃ inner, item.Patches inner) (k : Key)
    (run : Nat) (place : List Key) :
    ∃ problem, contentOf k (Json.fieldsOf run place item) = .error (.delta problem) := by
  unfold contentOf
  split
  · rename_i hop
    obtain ⟨q, hq⟩ := Json.get?_fieldsOf run place item "diff"
    refine ⟨.patchWithoutList k, ?_⟩
    rw [patchOf_eq, show diff = .str "diff" from rfl, hq]
    cases hd : item.get? "diff" with
    | none => rfl
    | some j =>
      cases j with
      | arr inner => exact absurd ⟨inner, (op_eq_patch run place item).1 hop, hd⟩ hp
      | _ => rfl
  · obtain ⟨problem, e⟩ := changeOf_unnamed hc run place
    exact ⟨problem, by rw [e]; rfl⟩

/-! ## Lists of entries -/

/-- A change of a known kind, or a tree that holds something and nothing else than such deltas. -/
inductive Solid : Delta → Prop where
  | node {c : Change} (known : c.kind?.isSome = true) : Solid (.node c)
  | tree {entries : List (Key × Delta)} (nonempty : entries ≠ []) (distinct : Fields.Distinct entries)
      (below : ∀ k d, (k, d) ∈ entries → Solid d) : Solid (.tree entries)

/-- The entries that are decoded from a list of items, so far. -/
structure Decoded (items : List Json) (entries : List (Key × Delta)) : Prop where
  keys : Fields.keys entries = items.filterMap Json.entryKey?
  solid : ∀ k d, (k, d) ∈ entries → d.Solid

theorem Decoded.has_eq_false {items : List Json} {entries : List (Key × Delta)}
    (h : Decoded items entries) :
    Fields.has k entries = false ↔ ∀ l ∈ items.filterMap Json.entryKey?, k.same l = false := by
  rw [← h.keys, ← Bool.not_eq_true, Fields.has, Fields.isSome_iff_mem]
  simp [Key.same, eq_comm]

theorem Decoded.distinct {items : List Json} {entries : List (Key × Delta)} (h : Decoded items entries)
    (he : Json.AreEntries items) : Fields.Distinct entries := by
  cases he with
  | of _ apart =>
    rw [Fields.Distinct, h.keys, List.nodup_iff_pairwise_ne, List.pairwise_map]
    exact apart.imp fun hs => by simpa [Key.same] using hs

theorem Decoded.nil_iff {items : List Json} {entries : List (Key × Delta)} (h : Decoded items entries)
    (he : Json.AreEntries items) : entries = [] ↔ items = [] := by
  cases he with
  | of keyed =>
    have hlength : entries.length = (items.filterMap Json.entryKey?).length := by
      rw [← h.keys, Fields.keys, List.length_map]
    rw [List.length_filterMap_eq_countP, List.countP_eq_length.2 keyed] at hlength
    rw [← List.length_eq_zero_iff, hlength, List.length_eq_zero_iff]

theorem Decoded.tree {items : List Json} {entries : List (Key × Delta)} (h : Decoded items entries)
    (he : Json.AreEntries items) (hne : items ≠ []) : (Delta.tree entries).Solid :=
  .tree (mt (h.nil_iff he).1 hne) (h.distinct he) h.solid

/-- Decoding goes on behind the items that are decoded. -/
theorem exists_ofEntries_behind {run : Nat} {place : List Key} {entries : List (Key × Delta)}
    (h : ofEntries [] (Value.ofItems run place 0 done) = .ok entries) (item : Json) (rest : List Json) :
    ∃ q n, ofEntries [] (Value.ofItems run place 0 (done ++ item :: rest)) =
      ofEntries entries (Value.ofJson run q item :: Value.ofItems run place n rest) := by
  refine ⟨.int (0 + done.length : Nat) :: place, 0 + done.length + 1, ?_⟩
  rw [Json.ofItems_append, ofEntries_append, h, Value.ofItems]
  rfl

theorem ofEntries_of_areEntries {items : List Json} (h : Json.AreEntries items) :
    ∀ run place, ∃ entries,
      ofEntries [] (Value.ofItems run place 0 items) = .ok entries ∧ Decoded items entries := by
  induction items using Json.entries_induction with
  | nil => exact fun _ _ => ⟨[], by rw [Value.ofItems, ofEntries], rfl, by simp⟩
  | snoc done item ih inside =>
    intro run place
    obtain ⟨entries, hdone, hd⟩ := ih h.front run place
    obtain ⟨k, hk, fresh, hi⟩ := h.last
    obtain ⟨q, _, behind⟩ := exists_ofEntries_behind hdone item []
    have content : ∃ d, contentOf k (Json.fieldsOf run q item) = .ok d ∧ d.Solid := by
      rcases hi with hc | ⟨inner, hp, hne, he⟩
      · obtain ⟨c, known, e⟩ := contentOf_change hc k run q
        exact ⟨_, e, .node known⟩
      · obtain ⟨q', e⟩ := contentOf_patch hp k run q
        obtain ⟨es, hes, hdecoded⟩ := inside inner hp he run q'
        have hempty : es.isEmpty = false := by simpa using mt (hdecoded.nil_iff he).1 hne
        refine ⟨.tree es, ?_, hdecoded.tree he hne⟩
        rw [e, hes]
        simp [bind, Except.bind, hempty]
    obtain ⟨d, e, hsolid⟩ := content
    refine ⟨entries ++ [(k, d)], ?_, ?_, ?_⟩
    · rw [behind, ofEntries_item hk, hd.has_eq_false.2 fresh, e]
      simp [bind, Except.bind, Value.ofItems, ofEntries]
    · rw [List.filterMap_append, ← hd.keys]
      simp [Fields.keys, hk]
    · intro l d' hm
      rcases List.mem_append.1 hm with hm | hm
      · exact hd.solid l d' hm
      · cases List.mem_singleton.1 hm
        exact hsolid

theorem ofEntries_of_stumbles {items : List Json} (h : Json.Stumbles items) :
    ∀ run place, ofEntries [] (Value.ofItems run place 0 items) = .error .unhashable := by
  induction h with
  | @key done rest item j accepted keyed container =>
    intro run place
    obtain ⟨entries, hdone, -⟩ := ofEntries_of_areEntries accepted run place
    obtain ⟨q, n, behind⟩ := exists_ofEntries_behind hdone item rest
    rw [behind]
    exact ofEntries_container keyed container ..
  | @inside done rest inner item k accepted keyed fresh patch _ ih =>
    intro run place
    obtain ⟨entries, hdone, hd⟩ := ofEntries_of_areEntries accepted run place
    obtain ⟨q, n, behind⟩ := exists_ofEntries_behind hdone item rest
    obtain ⟨q', e⟩ := contentOf_patch patch k run q
    rw [behind, ofEntries_item keyed, hd.has_eq_false.2 fresh, e, ih run q']
    rfl

/-- The list is one of entries, or decoding stumbles in it, or it is refused. -/
def Judged (items : List Json) : Prop :=
  Json.AreEntries items ∨ Json.Stumbles items ∨ ∀ run place, ∃ problem,
    ofEntries [] (Value.ofItems run place 0 items) = .error (.delta problem)

/-- A list is refused for its last item, if that is refused behind whatever was decoded before. -/
theorem judged_of_last (he : Json.AreEntries done) (h : ∀ run q entries, Decoded done entries →
    ∃ problem, ofEntries entries [Value.ofJson run q item] = .error (.delta problem)) :
    Judged (done ++ [item]) := by
  refine Or.inr (Or.inr fun run place => ?_)
  obtain ⟨entries, hdone, hd⟩ := ofEntries_of_areEntries he run place
  obtain ⟨q, n, behind⟩ := exists_ofEntries_behind hdone item []
  rw [behind]
  exact h run q entries hd

theorem contentOf_cases (k : Key) (inside : ∀ inner, item.Patches inner → Judged inner) :
    (item.NamesChange ∨ ∃ inner, item.Patches inner ∧ inner ≠ [] ∧ Json.AreEntries inner) ∨
      (∃ inner, item.Patches inner ∧ Json.Stumbles inner) ∨ ∀ run q, ∃ problem,
        contentOf k (Json.fieldsOf run q item) = .error (.delta problem) := by
  by_cases hc : item.NamesChange
  · exact Or.inl (Or.inl hc)
  by_cases hp : ∃ inner, item.Patches inner
  · obtain ⟨inner, hp⟩ := hp
    rcases inside inner hp with he | hs | hdelta
    · by_cases hne : inner = []
      · refine Or.inr (Or.inr fun run q => ⟨.emptyPatch k, ?_⟩)
        obtain ⟨q', e⟩ := contentOf_patch hp k run q
        rw [e, hne, Value.ofItems, ofEntries]
        rfl
      · exact Or.inl (Or.inr ⟨inner, hp, hne, he⟩)
    · exact Or.inr (Or.inl ⟨inner, hp, hs⟩)
    · refine Or.inr (Or.inr fun run q => ?_)
      obtain ⟨q', e⟩ := contentOf_patch hp k run q
      obtain ⟨problem, h⟩ := hdelta run q'
      exact ⟨problem, by rw [e, h]; rfl⟩
  · exact Or.inr (Or.inr (contentOf_other hc hp k))

theorem judged (items : List Json) : Judged items := by
  induction items using Json.entries_induction with
  | nil => exact Or.inl Json.areEntries_nil
  | snoc done item ih inside =>
    rcases ih with he | hs | hdelta
    -- the items before are accepted, so all hangs on the last one
    · cases hkey : item.get? "key" with
      | none => exact judged_of_last he fun run q entries _ => ofEntries_unkeyed hkey ..
      | some j =>
        cases hj : j.toKey? with
        | none => exact Or.inr (Or.inl (.key he hkey hj))
        | some k =>
          have hk : item.entryKey? = some k := by rw [Json.entryKey?, hkey]; exact hj
          by_cases fresh : ∀ l ∈ done.filterMap Json.entryKey?, k.same l = false
          · rcases contentOf_cases k inside with hi | ⟨inner, hp, hs⟩ | hdelta
            · exact Or.inl (he.snoc hk fresh hi)
            · exact Or.inr (Or.inl (.inside he hk fresh hp hs))
            · refine judged_of_last he fun run q entries hd => ?_
              obtain ⟨problem, e⟩ := hdelta run q
              refine ⟨problem, ?_⟩
              rw [ofEntries_item hk, hd.has_eq_false.2 fresh, e]
              rfl
          · refine judged_of_last he fun run q entries hd => ⟨.duplicateKey k, ?_⟩
            have known : Fields.has k entries = true := by simpa using mt hd.has_eq_false.1 fresh
            rw [ofEntries_item hk, known]
            rfl
    · exact Or.inr (Or.inl (hs.append [item]))
    · refine Or.inr (Or.inr fun run place => ?_)
      obtain ⟨problem, e⟩ := hdelta run place
      exact ⟨problem, by rw [Json.ofItems_append, ofEntries_append, e]; rfl⟩

/-! ## Documents -/

theorem ofDocument_list (id : Ident) (items : List Value) : ofDocument (.list id items) =
    (ofEntries [] items).map fun entries => if entries.isEmpty then nothing else tree entries := by
  rw [ofDocument]
  cases ofEntries [] items <;> rfl

theorem ofDocument_item {j : Json} {name : Text} {found : Json} (h : j.get? name = some found)
    (run : Nat) (place : List Key) :
    ofDocument (Value.ofJson run place j) = (changeOf (Json.fieldsOf run place j)).map node := by
  rw [ofJson_of_get? h, ofDocument]

/-- From the document of a delta comes nothing, if there is nothing in it, and else a delta that holds
something. -/
theorem ofDocument_of_isDelta {j : Json} (h : j.IsDelta) (run : Nat) (place : List Key) :
    ∃ d, ofDocument (Value.ofJson run place j) = .ok d ∧
      (d = .nothing ∧ (j = .null ∨ j = .arr []) ∨ d.Solid ∧ j ≠ .null ∧ j ≠ .arr []) := by
  rcases h with rfl | hc | ⟨items, rfl, he⟩
  · exact ⟨.nothing, rfl, Or.inl ⟨rfl, Or.inl rfl⟩⟩
  · obtain ⟨kind, hk⟩ := hc
    obtain ⟨c, known, e⟩ := changeOf_named ⟨kind, hk⟩ run place
    refine ⟨.node c, by rw [ofDocument_item hk, e]; rfl, Or.inr ⟨.node known, ?_, ?_⟩⟩
    · rintro rfl; cases hk
    · rintro rfl; cases hk
  · obtain ⟨entries, e, hd⟩ := ofEntries_of_areEntries he run place
    rw [Value.ofJson, ofDocument_list, e]
    by_cases hi : items = []
    · refine ⟨.nothing, ?_, Or.inl ⟨rfl, Or.inr (by rw [hi])⟩⟩
      rw [(hd.nil_iff he).2 hi]
      rfl
    · have hempty : entries.isEmpty = false := by simpa using mt (hd.nil_iff he).1 hi
      refine ⟨.tree entries, ?_, Or.inr ⟨hd.tree he hi, by simp, by simpa using hi⟩⟩
      simp [Except.map, hempty]

theorem ofDocument_of_stumbling {j : Json} (h : j.IsStumbling) (run : Nat) (place : List Key) :
    ofDocument (Value.ofJson run place j) = .error .unhashable := by
  obtain ⟨items, rfl, hs⟩ := h
  rw [Value.ofJson, ofDocument_list, ofEntries_of_stumbles hs]
  rfl

/-- Data that is no document of a delta is refused as such, unless decoding stumbles. -/
theorem ofDocument_cases (j : Json) : j.IsDelta ∨ j.IsStumbling ∨
    ∀ run place, ∃ problem, ofDocument (Value.ofJson run place j) = .error (.delta problem) := by
  cases j with
  | null => exact Or.inl (Or.inl rfl)
  | obj members =>
    by_cases hc : (Json.obj members).NamesChange
    · exact Or.inl (Or.inr (Or.inl hc))
    · refine Or.inr (Or.inr fun run place => ?_)
      obtain ⟨problem, e⟩ := changeOf_unnamed hc run place
      refine ⟨problem, ?_⟩
      rw [Value.ofJson, ofDocument]
      exact congrArg (Except.map node) e
  | arr items =>
    rcases judged items with he | hs | hdelta
    · exact Or.inl (Or.inr (Or.inr ⟨items, rfl, he⟩))
    · exact Or.inr (Or.inl ⟨items, rfl, hs⟩)
    · refine Or.inr (Or.inr fun run place => ?_)
      obtain ⟨problem, e⟩ := hdelta run place
      exact ⟨problem, by rw [Value.ofJson, ofDocument_list, e]; rfl⟩
  | _ => exact Or.inr (Or.inr fun run place => ⟨_, rfl⟩)

variable {run : Nat} {place : List Key} {j : Json}

theorem isDelta_of_ofDocument {d : Delta} (h : ofDocument (Value.ofJson run place j) = .ok d) :
    j.IsDelta := by
  rcases ofDocument_cases j with hd | hs | hp
  · exact hd
  · rw [ofDocument_of_stumbling hs] at h
    cases h
  · obtain ⟨problem, e⟩ := hp run place
    rw [e] at h
    cases h

theorem isStumbling_of_ofDocument (h : ofDocument (Value.ofJson run place j) = .error .unhashable) :
    j.IsStumbling := by
  rcases ofDocument_cases j with hd | hs | hp
  · obtain ⟨d, e, -⟩ := ofDocument_of_isDelta hd run place
    rw [e] at h
    cases h
  · exact hs
  · obtain ⟨problem, e⟩ := hp run place
    rw [e] at h
    cases h

theorem ofDocument_refused (hd : ¬ j.IsDelta) (hs : ¬ j.IsStumbling) (run : Nat) (place : List Key) :
    ∃ problem, ofDocument (Value.ofJson run place j) = .error (.delta problem) :=
  ((ofDocument_cases j).resolve_left hd).resolve_left hs run place

end Delta

end TreeDelta
