import Mathlib.Data.List.Permutation
import TreeDelta.Delta.Document
import TreeDelta.Proofs.Json.Copy
import TreeDelta.Proofs.Update.Again
/-!
# Deltas that come back

A delta of JSON data is written as a document of JSON data (`isJson_toDocument`), and from any copy
of that document a copy of the delta is decoded (`ofDocument_copy`). The entries of a tree are
written in the order of their keys; apart from that order nothing changes, so keys keep their kind
and an absent value stays absent.
-/

namespace TreeDelta

/-- A key of a delta that comes back: a name, or a whole number of not too many digits. -/
def Key.IsStored (k : Key) : Prop := k.IsName ∨ ∃ i, k = .int i ∧ Json.Short i

namespace Value

/-- Absent, or data of JSON. -/
def IsStored (v : Value) : Prop := v = absent ∨ v.IsJson

/-- Absent on both sides, or a copy. -/
def CopySlot (v w : Value) : Prop := (v = absent ∧ w = absent) ∨ v.Copy w

theorem CopySlot.equal {v w : Value} (h : CopySlot v w) : v.equal w = true := by
  rcases h with ⟨rfl, rfl⟩ | h
  · rw [Value.equal]
  · exact h.equal

theorem Copy.str_eq {s : Text} {w : Value} (h : Value.Copy (.str s) w) : w = .str s := by
  cases h; rfl

theorem Copy.int_eq {i : Int} {w : Value} (h : Value.Copy (.int i) w) : w = .int i := by
  cases h; rfl

end Value

namespace Delta

/-- A delta that can be stored: changes of known kinds between data of JSON, under keys that come
back, and no empty tree. -/
inductive Storable : Delta → Prop
  | node (kind : ChangeKind) {old new : Value} (before : old.IsStored) (after : new.IsStored) :
      Storable (.node (.of kind old new))
  | tree {entries : List (Key × Delta)} (nonempty : entries ≠ []) (distinct : Fields.Distinct entries)
      (keys : ∀ k d, (k, d) ∈ entries → k.IsStored) (below : ∀ k d, (k, d) ∈ entries → Storable d) :
      Storable (.tree entries)

/-- The second delta is the first one again, up to the order of entries and what objects the
containers in it are. Keys are kept as they are spelled. -/
inductive Copy : Delta → Delta → Prop
  | nothing : Copy nothing nothing
  | node (kind : ChangeKind) {u u' v v' : Value} (old : u.CopySlot u') (new : v.CopySlot v') :
      Copy (.node (.of kind u v)) (.node (.of kind u' v'))
  | tree {ds es : List (Key × Delta)} (distinct : Fields.Distinct ds)
      (keys : (Fields.keys es).Perm (Fields.keys ds))
      (below : ∀ k d e, (k, d) ∈ ds → (k, e) ∈ es → Copy d e) : Copy (.tree ds) (.tree es)

theorem Copy.distinct {ds es : List (Key × Delta)} (h : Copy (.tree ds) (.tree es)) :
    Fields.Distinct es := by
  cases h with
  | tree distinct keys => exact (keys.map Key.canon).nodup_iff.2 distinct

theorem Copy.equal {d e : Delta} (h : d.Copy e) : d.equal e = true := by
  induction h with
  | nothing => rw [Delta.equal]
  | node kind old new =>
    have hlabel : (Value.str kind.name).equal (.str kind.name) = true := by simp [Value.equal]
    simp only [Delta.equal, Change.equal, Change.of, hlabel, old.equal, new.equal, Bool.and_true]
  | @tree ds es distinct keys below ih =>
    have hes : Fields.Distinct es := Copy.distinct (.tree distinct keys below)
    have hlength : ds.length = es.length := by simpa [Fields.keys] using keys.length_eq.symm
    simp only [Delta.equal, hlength, decide_true, Bool.true_and, equalEntries_iff]
    intro k d hd
    have hk : k ∈ Fields.keys es := keys.mem_iff.2 (List.mem_map_of_mem (f := (·.1)) hd)
    obtain ⟨⟨l, e⟩, he, rfl⟩ := List.mem_map.1 hk
    exact ⟨e, Fields.get?_of_mem hes he, ih l d e hd he⟩

/-! ## Documents -/

open Document

theorem isName_of_field : op.IsName ∧ key.IsName ∧ old.IsName ∧ new.IsName ∧ diff.IsName := by
  refine ⟨⟨_, rfl, ?_⟩, ⟨_, rfl, ?_⟩, ⟨_, rfl, ?_⟩, ⟨_, rfl, ?_⟩, ⟨_, rfl, ?_⟩⟩ <;> decide

theorem isJson_toValue {k : Key} (h : k.IsStored) : k.toValue.IsJson := by
  rcases h with ⟨s, rfl, hs⟩ | ⟨i, rfl, hi⟩
  · exact .str hs
  · exact .int hi

theorem isJson_label (kind : ChangeKind) : (Value.str kind.name).IsJson := by
  cases kind <;> exact .str (by decide)

/-- The entry that stands in the document of a tree for one key. -/
def toEntry (run : Nat) (place : List Key) (k : Key) : Delta → Value
  | .node c => entryOf ⟨run, place⟩ [(key, k.toValue)] c
  | d => .map ⟨run, place⟩
      [(op, patch), (key, k.toValue), (diff, toDocument run (.int 0 :: place) d)]

theorem toEntries_cons (run : Nat) (place : List Key) (n : Nat) (k : Key) (d : Delta)
    (rest : List (Key × Delta)) : toEntries run place n ((k, d) :: rest) =
      (k, toEntry run (.int n :: place) k d) :: toEntries run place (n + 1) rest := by
  cases d <;> simp [toEntries, toEntry]

/-- The value is the entry of the key in some place. -/
def IsEntry (k : Key) (v : Value) (d : Delta) : Prop := ∃ run place, v = toEntry run place k d

theorem toEntries_rel (run : Nat) (place : List Key) (n : Nat) (entries : List (Key × Delta)) :
    List.Forall₂ (fun f e => f.1 = e.1 ∧ IsEntry e.1 f.2 e.2) (toEntries run place n entries)
      entries := by
  induction entries generalizing n with
  | nil => rw [toEntries]; exact .nil
  | cons e entries ih =>
    obtain ⟨k, d⟩ := e
    rw [toEntries_cons]
    exact .cons ⟨rfl, run, .int n :: place, rfl⟩ (ih (n + 1))

/-- The document of a tree holds the entries of its keys, in some order. -/
theorem toDocument_tree (run : Nat) (place : List Key) (entries : List (Key × Delta)) :
    ∃ items ds, toDocument run place (.tree entries) = .list ⟨run, place⟩ items ∧
      ds.Perm entries ∧ List.Forall₂ (fun v e => IsEntry e.1 v e.2) items ds := by
  obtain ⟨ds, hds, hp⟩ := List.perm_comp_forall₂ (perm_sortedFields (toEntries run place 0 entries))
    (toEntries_rel run place 0 entries)
  refine ⟨_, ds, by rw [toDocument], hp, ?_⟩
  rw [List.forall₂_map_left_iff]
  exact hds.imp fun _ _ h => h.2

/-! ## The fields of an entry -/

/-- The fields of the entry of a change: its kind, its key unless it stands alone, and the values
that are there. -/
theorem get?_entry {under : List (Key × Value)} (hunder : under = [] ∨ ∃ w, under = [(key, w)])
    (label u v : Value) :
    let fields := (op, label) :: under ++ Document.optional old u ++ Document.optional new v
    Fields.Distinct fields ∧ Fields.get? op fields = some label ∧
      Fields.get? key fields = under.head?.map (·.2) ∧
      Fields.get? old fields = (if u = .absent then none else some u) ∧
      Fields.get? new fields = (if v = .absent then none else some v) := by
  have hnodup : ([op, key, old, new].map Key.canon).Nodup := by decide
  have hsame : op.same key = false ∧ op.same old = false ∧ op.same new = false ∧
      key.same old = false ∧ key.same new = false ∧ old.same new = false := by decide
  obtain ⟨h1, h2, h3, h4, h5, h6⟩ := hsame
  have h1' := Key.same_comm op key ▸ h1
  have h2' := Key.same_comm op old ▸ h2
  have h3' := Key.same_comm op new ▸ h3
  have h4' := Key.same_comm key old ▸ h4
  have h5' := Key.same_comm key new ▸ h5
  have h6' := Key.same_comm old new ▸ h6
  unfold Document.optional
  rcases hunder with rfl | ⟨w, rfl⟩ <;> split <;> split <;>
    refine ⟨List.Nodup.sublist (List.Sublist.map _ ?_) hnodup, ?_⟩ <;>
    simp [Fields.keys, Fields.get?_cons, *]

theorem mem_optional {k l : Key} {v w : Value} (h : (l, w) ∈ Document.optional k v) :
    l = k ∧ w = v ∧ v ≠ .absent := by
  unfold Document.optional at h
  split at h
  · cases h
  · rename_i hv
    obtain ⟨rfl, rfl⟩ := Prod.mk.inj (List.mem_singleton.1 h)
    exact ⟨rfl, rfl, hv⟩

theorem isJson_entryOf {id : Ident} {under : List (Key × Value)} {kind : ChangeKind} {u v : Value}
    (hunder : under = [] ∨ ∃ w, w.IsJson ∧ under = [(key, w)])
    (hu : u.IsStored) (hv : v.IsStored) : (entryOf id under (.of kind u v)).IsJson := by
  have hshape : under = [] ∨ ∃ w, under = [(key, w)] := hunder.imp_right fun ⟨w, _, h⟩ => ⟨w, h⟩
  obtain ⟨hop, hkey, hold, hnew, -⟩ := isName_of_field
  have hall : ∀ k w, (k, w) ∈ (op, .str kind.name) :: under ++ Document.optional old u ++
      Document.optional new v → k.IsName ∧ w.IsJson := by
    intro k w hm
    rcases List.mem_append.1 hm with hm | hm
    · rcases List.mem_append.1 hm with hm | hm
      · rcases List.mem_cons.1 hm with hm | hm
        · cases hm
          exact ⟨hop, isJson_label kind⟩
        · rcases hunder with rfl | ⟨x, hx, rfl⟩
          · cases hm
          · cases List.mem_singleton.1 hm
            exact ⟨hkey, hx⟩
      · obtain ⟨rfl, rfl, hne⟩ := mem_optional hm
        exact ⟨hold, hu.resolve_left hne⟩
    · obtain ⟨rfl, rfl, hne⟩ := mem_optional hm
      exact ⟨hnew, hv.resolve_left hne⟩
  exact .map (get?_entry hshape _ u v).1 (fun k w hm => (hall k w hm).1) fun k w hm => (hall k w hm).2

theorem isJson_patch {id : Ident} {k : Key} (hk : k.IsStored) {w : Value} (hw : w.IsJson) :
    (Value.map id [(op, patch), (key, k.toValue), (diff, w)]).IsJson := by
  obtain ⟨hop, hkey, -, -, hdiff⟩ := isName_of_field
  have hdistinct : Fields.Distinct [(op, patch), (key, k.toValue), (diff, w)] := by
    have hkeys : Fields.Distinct [(op, ()), (key, ()), (diff, ())] := by decide
    exact hkeys
  refine .map hdistinct ?_ ?_
  · simp only [Fields.forall_cons]
    exact ⟨hop, hkey, hdiff, by simp⟩
  · simp only [Fields.forall_cons]
    exact ⟨.str (by decide), isJson_toValue hk, hw, by simp⟩

theorem forall₂_through {α β γ : Type} {R : α → β → Prop} {S : α → γ → Prop} {T : γ → β → Prop}
    {as : List α} {bs : List β} {cs : List γ} (h : List.Forall₂ R as bs) (h' : List.Forall₂ S as cs)
    (hT : ∀ a c b, b ∈ bs → R a b → S a c → T c b) : List.Forall₂ T cs bs := by
  induction h generalizing cs with
  | nil => cases h'; exact .nil
  | cons hab _ ih =>
    cases h' with
    | cons hac h' =>
      exact .cons (hT _ _ _ (by simp) hab hac) (ih h' fun a c b hb => hT a c b (by simp [hb]))

/-- A delta that can be stored has a document of JSON data. -/
theorem isJson_toDocument {d : Delta} (h : d.Storable) (run : Nat) (place : List Key) :
    (d.toDocument run place).IsJson := by
  induction h generalizing run place with
  | node kind before after =>
    rw [toDocument]
    exact isJson_entryOf (Or.inl rfl) before after
  | @tree entries _ distinct keys below ih =>
    obtain ⟨items, ds, hdoc, hp, hitems⟩ := toDocument_tree run place entries
    rw [hdoc]
    refine .list fun v hv => ?_
    obtain ⟨⟨k, d⟩, hm, run', place', rfl⟩ := exists_of_forall₂ hitems hv
    have hm := hp.mem_iff.1 hm
    have hk : k.IsStored := keys k d hm
    have hd := ih k d hm run'
    change (toEntry run' place' k d).IsJson
    cases below k d hm with
    | node kind before after =>
      exact isJson_entryOf (Or.inr ⟨_, isJson_toValue hk, rfl⟩) before after
    | tree => exact isJson_patch hk (hd _)

/-! ## Decoding -/

theorem patchOf_eq (fields : List (Key × Value)) :
    patchOf fields = match Fields.get? diff fields with
      | some (.list _ items) => some (ofEntries [] items)
      | _ => none := by
  induction fields with
  | nil => rw [patchOf]; rfl
  | cons f fields ih =>
    obtain ⟨k, v⟩ := f
    rw [patchOf.eq_def, Fields.get?_cons]
    split
    · rename_i h; cases h
    · rename_i h
      obtain ⟨h, rfl⟩ := List.cons.inj h
      cases h
      split
      · cases v <;> rfl
      · exact ih

theorem copySlot_of_rel {v : Value} {found : Option Value}
    (h : Option.Rel Value.Copy (if v = .absent then none else some v) found) :
    v.CopySlot (found.getD .absent) := by
  split at h
  · rename_i hv
    cases h
    exact Or.inl ⟨hv, rfl⟩
  · cases h with
    | some h => exact Or.inr h

theorem found_of_rel {v : Value} {found : Option Value}
    (h : Option.Rel Value.Copy (some v) found) : ∃ w, found = some w ∧ v.Copy w := by
  cases h with
  | some h => exact ⟨_, rfl, h⟩

/-- What is read from a copy of the entry of a change. -/
theorem changeOf_copy {under fields : List (Key × Value)}
    (hunder : under = [] ∨ ∃ w, under = [(key, w)]) {kind : ChangeKind} {u v : Value}
    (h : ∀ k, Option.Rel Value.Copy (Fields.get? k ((op, .str kind.name) :: under ++
      Document.optional old u ++ Document.optional new v)) (Fields.get? k fields)) :
    Fields.get? op fields = some (.str kind.name) ∧
      ∃ u' v', changeOf fields = .ok (.of kind u' v') ∧ u.CopySlot u' ∧ v.CopySlot v' := by
  obtain ⟨-, hop, -, hold, hnew⟩ := get?_entry hunder (.str kind.name) u v
  have hlabel := h op
  have hu := h old
  have hv := h new
  rw [hop] at hlabel
  rw [hold] at hu
  rw [hnew] at hv
  obtain ⟨label, hfound, hcopy⟩ := found_of_rel hlabel
  rw [hcopy.str_eq] at hfound
  refine ⟨hfound, _, _, ?_, copySlot_of_rel hu, copySlot_of_rel hv⟩
  simp only [changeOf, hfound, Option.getD_some, ChangeKind.ofValue?_name]
  rfl

theorem ofDocument_tree {id : Ident} {items : List Value} {es : List (Key × Delta)} :
    ofDocument (.list id items) = .ok (.tree es) ↔ ofEntries [] items = .ok es ∧ es ≠ [] := by
  rw [ofDocument]
  cases h : ofEntries [] items with
  | error f => simp [bind, Except.bind]
  | ok entries =>
    cases entries with
    | nil => simp [bind, Except.bind, eq_comm]
    | cons e rest =>
      simp only [bind, Except.bind, List.isEmpty_cons, Bool.false_eq_true, if_false, Except.ok.injEq,
        tree.injEq, ne_eq]
      constructor
      · rintro rfl; simp
      · exact fun h => h.1

/-- The item is decoded as an entry of the key that is a copy of the delta. -/
def ReadsAs (w : Value) (k : Key) (d : Delta) : Prop :=
  ∃ e, d.Copy e ∧ ∀ before rest, Fields.has k before = false →
    ofEntries before (w :: rest) = ofEntries (before ++ [(k, e)]) rest

theorem toKey?_toValue {k : Key} (h : k.IsStored) : k.toValue.toKey? = some k := by
  rcases h with ⟨s, rfl, -⟩ | ⟨i, rfl, -⟩ <;> rfl

theorem copy_toValue {k : Key} (h : k.IsStored) {w : Value} (hw : k.toValue.Copy w) : w = k.toValue := by
  rcases h with ⟨s, rfl, -⟩ | ⟨i, rfl, -⟩
  · exact hw.str_eq
  · exact hw.int_eq

theorem readsAs_node {run : Nat} {place : List Key} {k : Key} {kind : ChangeKind} {u v w : Value}
    (hk : k.IsStored) (h : (toEntry run place k (.node (.of kind u v))).Copy w) :
    ReadsAs w k (.node (.of kind u v)) := by
  obtain ⟨id, fields, rfl, -, hrel⟩ := Value.Copy.fields h
  have hunder : [(key, k.toValue)] = [] ∨ ∃ w, [(key, k.toValue)] = [(key, w)] := Or.inr ⟨_, rfl⟩
  obtain ⟨hop, u', v', hchange, hu, hv⟩ := changeOf_copy hunder hrel
  have hkey := hrel key
  have hfound := (get?_entry hunder (.str kind.name) u v).2.2.1
  simp only [Change.of] at hkey
  rw [hfound] at hkey
  obtain ⟨kv, hkv, hcopy⟩ := found_of_rel hkey
  rw [copy_toValue hk hcopy] at hkv
  have hpatch : Fields.get? op fields ≠ some patch := by
    rw [hop]
    cases kind <;> decide
  refine ⟨.node (.of kind u' v'), .node kind hu hv, fun before rest hbefore => ?_⟩
  rw [ofEntries, hkv]
  simp only [Option.map_some, toKey?_toValue hk, hbefore, Bool.false_eq_true, if_false, if_neg hpatch,
    hchange, bind, Except.bind]

theorem readsAs_tree {run : Nat} {place : List Key} {k : Key} {entries : List (Key × Delta)} {w : Value}
    (hk : k.IsStored)
    (hd : ∀ place w, (toDocument run place (.tree entries)).Copy w →
      ∃ e, ofDocument w = .ok e ∧ (tree entries).Copy e)
    (h : (toEntry run place k (.tree entries)).Copy w) :
    ReadsAs w k (.tree entries) := by
  obtain ⟨id, fields, rfl, -, hrel⟩ := Value.Copy.fields h
  have hop := hrel op
  have hkey := hrel key
  have hdiff := hrel diff
  have h1 : key.same op = false ∧ diff.same op = false ∧ diff.same key = false := by decide
  simp only [Fields.get?_cons, Key.same_self, h1, if_true, Bool.false_eq_true, if_false] at hop hkey hdiff
  obtain ⟨label, hlabel, hcopy⟩ := found_of_rel hop
  rw [hcopy.str_eq] at hlabel
  obtain ⟨kv, hkv, hcopy⟩ := found_of_rel hkey
  rw [copy_toValue hk hcopy] at hkv
  obtain ⟨below, hbelow, hcopy⟩ := found_of_rel hdiff
  obtain ⟨e, he, hde⟩ := hd _ _ hcopy
  obtain ⟨items, ds, hdoc, -, -⟩ := toDocument_tree run (.int 0 :: place) entries
  rw [hdoc] at hcopy
  obtain ⟨id', items', rfl, -⟩ := Value.Copy.items hcopy
  cases hde with
  | @tree _ es distinct keys copies =>
    obtain ⟨hes, hnil⟩ := ofDocument_tree.1 he
    have hpatch : patchOf fields = some (.ok es) := by
      rw [patchOf_eq, hbelow, ← hes]
    refine ⟨.tree es, .tree distinct keys copies, fun before rest hbefore => ?_⟩
    have hlabel' : Fields.get? op fields = some patch := hlabel
    rw [ofEntries, hkv]
    simp only [Option.map_some, toKey?_toValue hk, hbefore, Bool.false_eq_true, if_false, hlabel',
      if_true, hpatch, bind, Except.bind, List.isEmpty_eq_false_iff.2 hnil]

/-- Items that are decoded one by one are decoded in a row, as long as no key comes twice. -/
theorem ofEntries_copies {items : List Value} {ds before : List (Key × Delta)}
    (h : List.Forall₂ (fun w e => ReadsAs w e.1 e.2) items ds) (hd : Fields.Distinct (before ++ ds)) :
    ∃ es, ofEntries before items = .ok (before ++ es) ∧
      List.Forall₂ (fun f g => f.1 = g.1 ∧ f.2.Copy g.2) ds es := by
  induction h generalizing before with
  | nil => exact ⟨[], by rw [ofEntries, List.append_nil], .nil⟩
  | @cons w e items ds hw _ ih =>
    obtain ⟨k, d⟩ := e
    obtain ⟨d', hcopy, hread⟩ := hw
    have hnew : Fields.has k before = false := by
      refine Option.isSome_eq_false_iff.2 (Option.isNone_iff_eq_none.2 ?_)
      refine Fields.get?_none_of_forall fun l a hl => ?_
      rw [Fields.Distinct, Fields.keys, List.map_append, List.map_append, List.nodup_append] at hd
      have hl' : l.canon ∈ (before.map (·.1)).map Key.canon :=
        List.mem_map_of_mem (List.mem_map_of_mem (f := (·.1)) hl)
      have hne := hd.2.2 l.canon hl' k.canon (by simp)
      simpa [Key.same, eq_comm] using hne
    have hd' : Fields.Distinct (before ++ [(k, d')] ++ ds) := by
      simpa [Fields.Distinct, Fields.keys] using hd
    obtain ⟨es, hes, hcopies⟩ := ih hd'
    refine ⟨(k, d') :: es, ?_, .cons ⟨rfl, hcopy⟩ hcopies⟩
    rw [hread before items hnew, hes, List.append_assoc]
    rfl

theorem copy_tree {ds ds' es : List (Key × Delta)} (hd : Fields.Distinct ds) (hp : ds'.Perm ds)
    (h : List.Forall₂ (fun f g => f.1 = g.1 ∧ f.2.Copy g.2) ds' es) : Copy (.tree ds) (.tree es) := by
  have hkeys := Fields.keys_rel h
  have hds' := Fields.distinct_perm hp hd
  have hes : Fields.Distinct es := by rwa [Fields.Distinct, ← hkeys]
  refine .tree hd (hkeys ▸ hp.map _) fun k d e hkd hke => ?_
  have hrel := Fields.get?_rel h k
  rw [Fields.get?_of_mem hds' (hp.mem_iff.2 hkd), Fields.get?_of_mem hes hke] at hrel
  cases hrel with
  | some hcopy => exact hcopy

/-- From a copy of the document of a delta that can be stored, a copy of the delta is decoded. -/
theorem ofDocument_copy {d : Delta} (h : d.Storable) {run : Nat} {place : List Key} {w : Value}
    (hw : (d.toDocument run place).Copy w) : ∃ e, ofDocument w = .ok e ∧ d.Copy e := by
  induction h generalizing run place w with
  | node kind before after =>
    rw [toDocument] at hw
    obtain ⟨id, fields, rfl, -, hrel⟩ := Value.Copy.fields hw
    obtain ⟨-, u', v', hchange, hu, hv⟩ := changeOf_copy (Or.inl rfl) hrel
    refine ⟨.node (.of kind u' v'), ?_, .node kind hu hv⟩
    rw [ofDocument, hchange]
    rfl
  | @tree entries nonempty distinct keys below ih =>
    obtain ⟨items, ds, hdoc, hp, hitems⟩ := toDocument_tree run place entries
    rw [hdoc] at hw
    obtain ⟨id, items', rfl, hcopies⟩ := Value.Copy.items hw
    have hreads : List.Forall₂ (fun w e => ReadsAs w e.1 e.2) items' ds := by
      refine forall₂_through hitems hcopies fun v w e he hv hvw => ?_
      obtain ⟨k, d⟩ := e
      obtain ⟨run', place', rfl⟩ := hv
      have hm : (k, d) ∈ entries := hp.mem_iff.1 he
      have hk : k.IsStored := keys k d hm
      have hd := fun place w => @ih k d hm run' place w
      change ReadsAs w k d
      cases below k d hm with
      | node kind before after => exact readsAs_node hk hvw
      | tree nonempty => exact readsAs_tree hk hd hvw
    have hdistinct : Fields.Distinct ([] ++ ds) := Fields.distinct_perm hp distinct
    obtain ⟨es, hes, hall⟩ := ofEntries_copies hreads hdistinct
    have hcopy := copy_tree distinct hp hall
    refine ⟨.tree es, ofDocument_tree.2 ⟨hes, ?_⟩, hcopy⟩
    rintro rfl
    cases hall
    exact nonempty hp.symm.eq_nil

theorem isJson_document {d : Delta} (h : d = .nothing ∨ d.Storable) (run : Nat) (place : List Key) :
    (d.toDocument run place).IsJson := by
  rcases h with rfl | h
  · rw [toDocument]
    exact .null
  · exact isJson_toDocument h run place

theorem decode_copy {d : Delta} (h : d = .nothing ∨ d.Storable) {run : Nat} {place : List Key} {w : Value}
    (hw : (d.toDocument run place).Copy w) : ∃ e, ofDocument w = .ok e ∧ d.Copy e := by
  rcases h with rfl | h
  · rw [toDocument] at hw
    cases hw
    exact ⟨.nothing, by rw [ofDocument], .nothing⟩
  · exact ofDocument_copy h hw

/-! ## Text -/

/-- What is decoded from the text of the delta's document. -/
def throughText (indent : Option Int) (written read : Nat) (d : Delta) : Except Fault Delta := do
  let text ← writeJson indent (← d.asDocument written)
  ofDocument (← readJson read text)

theorem stray?_of_storable {d : Delta} (h : d.Storable) : d.stray? = none := by
  induction h with
  | node => rw [stray?]
  | tree _ _ _ _ ih => exact stray?_tree.2 ih

/-- A delta of JSON data comes back from its text: as a delta that is equal, with the same keys,
absent values absent again. -/
theorem throughText_copy {d : Delta} (h : d = .nothing ∨ d.Storable) {indent : Option Int}
    (hi : FitsIndent indent) (written read : Nat) :
    ∃ e, d.throughText indent written read = .ok e ∧ d.equal e = true ∧ d.Copy e := by
  have hstray : d.stray? = none := by
    rcases h with rfl | h
    · rw [stray?]
    · exact stray?_of_storable h
  obtain ⟨nodes, hnodes, -⟩ := changes_listed hstray
  obtain ⟨text, htext, hread⟩ := Value.readJson_written (isJson_document h written []) hi
  obtain ⟨w, hw, hcopy⟩ := hread read
  obtain ⟨e, he, hde⟩ := decode_copy h hcopy
  refine ⟨e, ?_, hde.equal, hde⟩
  simp only [throughText, asDocument, hnodes, bind, Except.bind, htext, hw, he]

/-- A tree with a name and a number for keys, a list with a fraction and a character beyond sixteen
bits, and a null that is not absent. -/
def mixed : Delta :=
  .tree [(.str "a", .tree [(.int 3, .node (.of .change (.list ⟨0, []⟩ [.float (.ofRank true 3), .int (-7)])
    (.str [.char (Char.ofNat 0x1f333)])))]), (.int 3, .node (.of .add .absent .null))]

theorem throughText_mixed : mixed.Storable ∧ FitsIndent (some 2) ∧
    ∃ e, mixed.throughText (some 2) 1 2 = .ok e ∧ mixed.equal e = true ∧ mixed.Copy e := by
  have hshort : ∀ i : Int, i.natAbs < 10 → Json.Short i := by
    intro i hi
    have hone : 1 ≤ Text.mostDigits := by decide
    rw [Json.Short, Nat.toDigits_of_lt_base hi]
    exact hone
  have hthree : (Key.int 3).IsStored := Or.inr ⟨3, rfl, hshort 3 (by decide)⟩
  have hlist : (Value.list ⟨0, []⟩ [.float (.ofRank true 3), .int (-7)]).IsJson := by
    refine .list fun v hv => ?_
    simp only [List.mem_cons, List.not_mem_nil, or_false] at hv
    rcases hv with rfl | rfl
    · exact .float _
    · exact .int (hshort (-7) (by decide))
  have hinner : Storable (.tree [(.int 3, .node (.of .change
      (.list ⟨0, []⟩ [.float (.ofRank true 3), .int (-7)]) (.str [.char (Char.ofNat 0x1f333)])))]) := by
    refine .tree (by simp) (by decide) ?_ ?_ <;> simp only [Fields.forall_cons]
    · exact ⟨hthree, by simp⟩
    · exact ⟨.node .change (Or.inr hlist) (Or.inr (.str (by decide))), by simp⟩
  have hmixed : mixed.Storable := by
    refine .tree (by simp) (by decide) ?_ ?_ <;> simp only [Fields.forall_cons]
    · exact ⟨Or.inl ⟨_, rfl, by decide⟩, hthree, by simp⟩
    · exact ⟨hinner, .node .add (Or.inl rfl) (Or.inr .null), by simp⟩
  have hfits : FitsIndent (some 2) := by
    rintro _ ⟨⟩
    decide
  exact ⟨hmixed, hfits, throughText_copy (Or.inr hmixed) hfits 1 2⟩

/-- A number of too many digits is not written. -/
theorem throughText_long {i : Int} (h : ¬ Json.Short i) (written read : Nat) :
    (Delta.node (.of .add .absent (.int i))).throughText none written read = .error .longNumber := by
  have hcheck : checkDigits i = .error .longNumber := by
    rw [checkDigits, Nat.toString_eq_ofList_toDigits, String.length_ofList]
    exact if_pos (Nat.not_le.1 h)
  have hdoc : (Delta.node (.of .add .absent (.int i))).asDocument written =
      .ok (.map ⟨written, []⟩ [(op, .str ChangeKind.add.name), (new, .int i)]) := rfl
  have hjson : Value.toJson true (.map ⟨written, []⟩ [(op, .str ChangeKind.add.name), (new, .int i)]) =
      .error .longNumber := by
    simp [Value.toJson, Value.toJsonFields, hcheck, bind, Except.bind, Except.map]
  rw [throughText, hdoc]
  simp only [bind, Except.bind, writeJson, jsonText, checkIndent, hjson, Except.map]

/-- Nothing is written with an indentation that does not fit. -/
theorem throughText_wide {indent : Option Int} {fault : Fault} (h : checkIndent indent = .error fault)
    (written read : Nat) : Delta.nothing.throughText indent written read = .error fault := by
  have hdoc : Delta.nothing.asDocument written = .ok .null := rfl
  rw [throughText, hdoc]
  simp only [bind, Except.bind, writeJson, jsonText, h, Except.map]

/-- Null is added under the name. -/
def adding (name : Text) : Delta := .tree [(.str name, .node (.of .add .absent .null))]

/-- Only the text between quotes tells what the name is. -/
theorem throughText_adding {name other : Text} (h : Json.quotedText name = Json.quotedText other)
    (written read : Nat) :
    (adding name).throughText none written read = (adding other).throughText none written read := by
  have hdocument : ∀ name, (adding name).asDocument written = .ok (.list ⟨written, []⟩
      [.map ⟨written, [.int 0]⟩ [(op, .str "add"), (key, .str name), (new, .null)]]) := by
    intro name
    have hstray : (adding name).stray? = none := rfl
    obtain ⟨nodes, hnodes, -⟩ := changes_listed hstray
    have hone : ∀ {α : Type} (k : Key) (a : α), sortedFields [(k, a)] = [(k, a)] :=
      fun k a => List.perm_singleton.1 (perm_sortedFields _)
    rw [asDocument, hnodes, adding, toDocument, toEntries, toEntries, hone]
    rfl
  have hjson : ∀ name, Value.toJson true (.list ⟨written, []⟩
      [.map ⟨written, [.int 0]⟩ [(op, .str "add"), (key, .str name), (new, .null)]]) =
      .ok (.arr [.obj [("key", .str name), ("new_value", .null), ("op", .str "add")]]) :=
    fun name => by cbv
  simp only [throughText, hdocument, writeJson, jsonText, hjson, bind, Except.bind, Json.text,
    Json.render, Json.renderItems, Json.renderMembers, h]

theorem storable_adding {name : Text} (h : name.Unpaired) : (adding name).Storable := by
  refine .tree (by simp) (List.nodup_singleton _) ?_ ?_ <;> simp only [Fields.forall_cons]
  · exact ⟨Or.inl ⟨_, rfl, h⟩, by simp⟩
  · exact ⟨.node .add (Or.inl rfl) (Or.inr .null), by simp⟩

/-- Two halves are written as the character that they form is, and the character comes back. -/
theorem throughText_halves (written read : Nat) :
    ∃ e, (adding [.half 0, .half 0x400]).throughText none written read = .ok e ∧
      (adding [.half 0, .half 0x400]).equal e = false := by
  have hsame := @throughText_adding [.half 0, .half 0x400] [.char (Char.ofNat 0x10000)] (by decide)
    written read
  have hjoined : Text.Unpaired [.char (Char.ofNat 0x10000)] := by decide
  have hfits : FitsIndent none := fun _ h => by cases h
  obtain ⟨e, he, -, hcopy⟩ := throughText_copy (Or.inr (storable_adding hjoined)) hfits written read
  refine ⟨e, hsame.trans he, ?_⟩
  cases hcopy with
  | @tree _ es _ keys =>
    obtain ⟨⟨k, e⟩, rfl, rfl⟩ := List.map_eq_singleton_iff.1 (List.perm_singleton.1 keys)
    rfl

/-- No text has the indentation, no text has the number, and the two halves come back as one
character. -/
theorem throughText_limits :
    Delta.nothing.throughText (some (2 ^ 63)) 1 2 = .error .overflow ∧
    (Delta.node (.of .add .absent (.int (10 ^ Text.mostDigits)))).throughText none 1 2 =
      .error .longNumber ∧
    ∃ e, (Delta.tree [(.str [.half 0, .half 0x400], .node (.of .add .absent .null))]).throughText
        none 1 2 = .ok e ∧
      (Delta.tree [(.str [.half 0, .half 0x400], .node (.of .add .absent .null))]).equal e = false := by
  have hwide : checkIndent (some (2 ^ 63)) = .error .overflow := by
    have h63 : ((Nat.pow 2 63 : Nat) : Int) = 2 ^ 63 := rfl
    simp only [checkIndent, h63]
    exact if_pos (by omega)
  have hlong : ¬ Json.Short (10 ^ Text.mostDigits) := by
    have hpos : 0 < Text.mostDigits := by decide
    unfold Json.Short
    generalize Text.mostDigits = most at hpos ⊢
    rw [Int.natAbs_pow, Nat.length_toDigits_le_iff (by decide) hpos]
    exact Nat.lt_irrefl _
  exact ⟨throughText_wide hwide 1 2, throughText_long hlong 1 2, throughText_halves 1 2⟩

end Delta

end TreeDelta
