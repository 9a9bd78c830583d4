import TreeDelta.Proofs.Update.Along
/-!
# Merging in a mapping sets its entries

`$merge` goes through the entries of its argument in a loop of its own, and a descent with a `$set` for each
entry goes through them in another. In a mapping the two loops are one run of a draft
(`Command.applyAll_sets`), so value, order of keys and delta are the same, and so is the source where nothing
changes. Where null or nothing is, the draft starts empty and ends as the entries (`Draft.setAll_fresh`): the
value is the same, but `$merge` tells one change and the descent one for each entry.
-/

namespace TreeDelta

namespace Command

/-- The raw command that sets each of the entries. -/
def setEach (entries : List (Key × Value)) : Value :=
  .descend (.map default (Fields.mapValues (.op (.str Operation.set.name)) entries))

/-- The command that sets each of the entries. -/
def sets (entries : List (Key × Value)) : Command := .descend (Fields.mapValues (.op .set) entries)

theorem parse_setEach (entries : List (Key × Value)) (trail : Trail) :
    parse trail (setEach entries) = .ok (sets entries) := by
  have children : parseChildren trail (Fields.mapValues (.op (.str Operation.set.name)) entries) =
      .ok (Fields.mapValues (.op .set) entries) := by
    induction entries with
    | nil => rfl
    | cons entry rest ih =>
      have hop : parse (trail ++ [entry.1.plain]) (.op (.str Operation.set.name) entry.2) =
          .ok (.op .set entry.2) := by
        rw [parse, ofOp, Operation.ofValue?_name]
      simp only [Fields.mapValues, List.map_cons, parseChildren] at ih ⊢
      rw [hop, ih]
      rfl
  rw [setEach, parse, children]
  rfl

variable {call : Functions} {run : Nat} {place : List Key} {trail : Trail} {key : Key}

/-- Setting each entry is the loop of a merge. -/
theorem applyAll_sets (draft : Draft) (entries : List (Key × Value)) :
    applyAll call run place trail draft (Fields.mapValues (.op .set) entries) =
      .ok (draft.setAll entries) := by
  induction entries generalizing draft with
  | nil => rfl
  | cons entry rest ih => exact ih _

/-! ## In a mapping -/

variable {id eid : Ident} {fields entries : List (Key × Value)}

theorem apply_merge_at_mapping :
    (op .merge (.map eid entries)).apply call run place trail ⟨key, some (.map id fields)⟩ =
      .ok (((Draft.start fields).setAll entries).commit ⟨run, place⟩ (.map id fields)) := rfl

theorem apply_sets_at_mapping :
    (sets entries).apply call run place trail ⟨key, some (.map id fields)⟩ =
      .ok (((Draft.start fields).setAll entries).commit ⟨run, place⟩ (.map id fields)) := by
  have hsource : (Site.mk key (some (Value.map id fields))).current = .map id fields := rfl
  rw [sets, apply, hsource, if_neg (by simp [Value.isAbsent]), descendInto, Value.fields?]
  simp only [applyAll_sets]
  rfl

theorem apply_defaults_at_mapping (rid : Ident) :
    (op .defaults (.map eid entries)).apply call run place trail ⟨key, some (.map id fields)⟩ =
      (op .merge (.map rid (entries.filter fun (k, _) => !Fields.has k fields))).apply call run place trail
        ⟨key, some (.map id fields)⟩ := rfl

/-! ## Where nothing or null is -/

variable {slot : Slot}

theorem apply_merge_at_absent (h : (slot.getD .absent).isAbsent = true) :
    (op .merge (.map eid entries)).apply call run place trail ⟨key, slot⟩ =
      .ok (.replaced ⟨key, slot⟩ (Site.mk key slot).writeKind (.map ⟨run, place⟩ entries)) := by
  have ht : (Site.mk key slot).Targets none := h
  have hm : mappingOf .merge .argument key (.map eid entries) = .ok entries := mappingOf_of_fields rfl
  simp only [apply, Operation.apply, Site.merge, hm, Site.targetOf_of_targets ht]
  rfl

theorem apply_defaults_at_absent (h : (slot.getD .absent).isAbsent = true) :
    (op .defaults (.map eid entries)).apply call run place trail ⟨key, slot⟩ =
      .ok (.replaced ⟨key, slot⟩ (Site.mk key slot).writeKind (.map ⟨run, place⟩ entries)) := by
  have ht : (Site.mk key slot).Targets none := h
  have hm : mappingOf .defaults .argument key (.map eid entries) = .ok entries := mappingOf_of_fields rfl
  have hall : (entries.filter fun (k, _) => !Fields.has k ([] : List (Key × Value))) = entries :=
    List.filter_eq_self.2 fun _ _ => rfl
  simp only [apply, Operation.apply, Site.defaults, hm, Site.targetOf_of_targets ht]
  exact congrArg (fun es => Except.ok ((Site.mk key slot).extend ⟨run, place⟩ none es)) hall

end Command

/-- The changes that add each of the entries. -/
def Delta.added (entries : List (Key × Value)) : List (Key × Delta) :=
  Fields.mapValues (fun v => .node (.of .add .absent v)) entries

/-- Entries under new keys are all added, in their order. -/
theorem Draft.setAll_fresh {entries : List (Key × Value)} (hd : Fields.Distinct entries)
    (hv : ∀ k v, (k, v) ∈ entries → v ≠ .absent) :
    ∀ {draft : Draft}, (∀ k v, (k, v) ∈ entries → Fields.get? k draft.fields = none ∧
        Fields.get? k draft.changes = none) →
      draft.setAll entries = ⟨draft.fields ++ entries, draft.changes ++ Delta.added entries⟩ := by
  induction entries with
  | nil => intro draft _; simp [setAll, Delta.added, Fields.mapValues]
  | cons entry rest ih =>
    obtain ⟨k, v⟩ := entry
    intro draft hn
    obtain ⟨hk, hd⟩ := Fields.distinct_cons.1 hd
    obtain ⟨hv, hvrest⟩ := Fields.forall_cons.1 hv
    obtain ⟨⟨hf, hc⟩, hrest⟩ := Fields.forall_cons.1 hn
    have hset : (draft.site k).set v = ⟨v, .node (.of .add .absent v)⟩ := by
      have hsite : draft.site k = ⟨k, none⟩ := by rw [site, hf]
      have hs : ¬ v.same (draft.site k).current = true := by
        rw [hsite]
        exact fun hs => hv (Value.eq_absent_of_same hs)
      rw [Site.set, if_neg hs, hsite]
      rfl
    have htake : draft.take k ⟨v, .node (.of .add .absent v)⟩ =
        ⟨draft.fields ++ [(k, v)], draft.changes ++ [(k, .node (.of .add .absent v))]⟩ := by
      rw [take, if_neg (by simp [Delta.isNothing]), Fields.put_of_get?_none hf, Fields.put_of_get?_none hc]
    rw [setAll, hset, htake, ih hd hvrest fun l w hm => ?_]
    · simp [Delta.added, Fields.mapValues]
    · -- the key just written is not the key of a later entry
      have hl : l.same k = false := by rw [Key.same_comm]; exact hk l w hm
      obtain ⟨hf', hc'⟩ := hrest l w hm
      rw [← Fields.put_of_get?_none hf, ← Fields.put_of_get?_none hc, Fields.get?_put_other hl,
        Fields.get?_put_other hl]
      exact ⟨hf', hc'⟩

theorem Command.apply_sets_at_absent {call : Functions} {run : Nat} {place : List Key} {trail : Trail}
    {key : Key} {slot : Slot} {entries : List (Key × Value)} (h : (slot.getD .absent).isAbsent = true)
    (hd : Fields.Distinct entries) (hv : ∀ k v, (k, v) ∈ entries → v ≠ .absent) (hne : entries ≠ []) :
    (sets entries).apply call run place trail ⟨key, slot⟩ =
      .ok ⟨.map ⟨run, place⟩ entries, .tree (Delta.added entries)⟩ := by
  have hopen : Slot.Opens (Site.mk key slot).slot [] := .absent h
  obtain ⟨source, ha⟩ := apply_descend hopen (@applyAll_sets call run place trail (.start []) entries)
  have hall : (Draft.start []).setAll entries = ⟨entries, Delta.added entries⟩ :=
    Draft.setAll_fresh hd hv fun _ _ _ => ⟨rfl, rfl⟩
  have htold : (Delta.added entries).isEmpty = false := by
    simpa [Delta.added, Fields.mapValues] using hne
  rw [sets, ha, hall, Draft.commit, if_neg (by simp [htold])]

/-! ## At the end of a path -/

/-- On the way to a mapping there is no null, not even at the root. -/
theorem Value.present_of_lookup {source : Value} {path : List Key} {id : Ident}
    {fields : List (Key × Value)} (h : source.lookup? path = some (.map id fields)) :
    source.isAbsent = false := by
  cases path with
  | nil => cases h; rfl
  | cons k path =>
    obtain ⟨id, fields, hs⟩ := Slot.exists_map_of_at h
    cases hs
    rfl

/-- Merging in a mapping sets its entries. At a path to a mapping, `$merge` and a descent that sets each
entry come to one outcome, and `$defaults` to that of merging in the entries whose keys are lacking. At a path
in a mapping to null or nothing, reached over mappings, null and nothing, all three come to one value;
`$merge` and `$defaults` tell one change at the path, and the descent tells of each entry. -/
theorem Value.merge_as_setEach (call : Functions) (run : Nat) (source : Value) (path : List Key) (eid : Ident)
    (entries : List (Key × Value)) :
    (∀ id fields, source.lookup? path = some (.map id fields) →
      (∃ o, Value.updateAt call run source path .merge (.map eid entries) = .ok o ∧
        Value.update call run source (Command.nest path (Command.setEach entries)) = .ok o) ∧
      ∀ rid, Value.updateAt call run source path .defaults (.map eid entries) =
        Value.updateAt call run source path .merge
          (.map rid (entries.filter fun (k, _) => !Fields.has k fields))) ∧
    (Fields.Distinct entries → (∀ k v, (k, v) ∈ entries → v ≠ .absent) → entries ≠ [] →
      source.fields?.isSome = true → Slot.OpenTo (some source) path → (source.at_ path).isAbsent = true →
      let kind : ChangeKind := if (source.lookup? path).isSome then .change else .add
      let told : Delta :=
        .along path (.node (.of kind (source.at_ path) (.map ⟨run, path.reverse⟩ entries)))
      ∃ value,
        Value.updateAt call run source path .merge (.map eid entries) = .ok ⟨value, told⟩ ∧
        Value.updateAt call run source path .defaults (.map eid entries) = .ok ⟨value, told⟩ ∧
        Value.update call run source (Command.nest path (Command.setEach entries)) =
          .ok ⟨value, .along path (.tree (Delta.added entries))⟩) := by
  have heach : Value.update call run source (Command.nest path (Command.setEach entries)) =
      (Command.along path (Command.sets entries)).applyRoot call run source :=
    update_of_parse (Command.parse_nest (Command.parse_setEach entries) path [])
  simp only [updateAt_eq, heach]
  constructor
  · intro id fields found
    have found : Slot.at_ (some source) path = some (.map id fields) := found
    simp only [Command.applyRoot_of_present (present_of_lookup found)]
    have can : (Command.op .merge (.map eid entries)).Can call (Slot.at_ (some source) path) := by
      intro run place trail key
      rw [found]
      exact ⟨_, Command.apply_merge_at_mapping⟩
    obtain ⟨o, ho⟩ := Command.can_along (Slot.openTo_of_at found) can run [] [] rootKey
    refine ⟨⟨o, ho, ?_⟩, fun rid => ?_⟩
    · rw [← ho]
      refine Command.apply_along_congr (fun trail key => ?_) [] rootKey
      rw [found, Command.apply_sets_at_mapping, Command.apply_merge_at_mapping]
    · refine Command.apply_along_congr (fun trail key => ?_) [] rootKey
      rw [found]
      exact Command.apply_defaults_at_mapping rid
  · intro distinct present nonempty mapping hopen absent
    obtain ⟨fields, hf⟩ := Option.isSome_iff_exists.1 mapping
    have hpresent : source.isAbsent = false := by cases source <;> first | rfl | cases hf
    have habsent : ((Slot.at_ (some source) path).getD .absent).isAbsent = true := by
      rw [Slot.getD_at]
      exact absent
    simp only [Command.applyRoot_of_present hpresent]
    obtain ⟨value, hvalue⟩ := @Command.exists_carried call run path (some source) [] hopen
      (.map ⟨run, path.reverse⟩ entries)
    simp only [List.append_nil] at hvalue
    refine ⟨value, ?_, ?_, ?_⟩
    · refine hvalue _ _ rfl (fun trail key => ?_) [] rootKey
      rw [Command.apply_merge_at_absent habsent, ← Value.getD_lookup?]
      rfl
    · refine hvalue _ _ rfl (fun trail key => ?_) [] rootKey
      rw [Command.apply_defaults_at_absent habsent, ← Value.getD_lookup?]
      rfl
    · refine hvalue _ _ rfl (fun trail key => ?_) [] rootKey
      exact Command.apply_sets_at_absent habsent distinct present nonempty

/-- A key that is spelled like an operation is merged in where a mapping is, and at a path through null to
nothing. -/
theorem Value.merge_as_setEach_of_nested :
    let source : Value := .map ⟨0, []⟩
      [(.str "a", .map ⟨0, [.str "a"]⟩ [(.str "x", .int 1)]), (.str "b", .null)]
    let entries : List (Key × Value) := [(.str "x", .int 1), (.str "$set", .int 2)]
    let merged (kind : Operation) (path : List Key) : Except Fault Outcome :=
      Value.updateAt (fun _ _ v => .ok v) 2 source path kind (.map ⟨1, []⟩ entries)
    let eachSet (path : List Key) : Except Fault Outcome :=
      Value.update (fun _ _ v => .ok v) 2 source (Command.nest path (Command.setEach entries))
    let inner : List Key := [.str "b", .str "c"]
    let told : Delta := .along inner (.node (.of .add .absent (.map ⟨2, inner.reverse⟩ entries)))
    (∃ o, merged .merge [.str "a"] = .ok o ∧ eachSet [.str "a"] = .ok o) ∧
      ∃ value, merged .merge inner = .ok ⟨value, told⟩ ∧ merged .defaults inner = .ok ⟨value, told⟩ ∧
        eachSet inner = .ok ⟨value, .along inner (.tree (Delta.added entries))⟩ := by
  intro source entries merged eachSet inner told
  constructor
  · obtain ⟨mapping, -⟩ :=
      Value.merge_as_setEach (fun _ _ v => .ok v) 2 source [.str "a"] ⟨1, []⟩ entries
    exact (mapping ⟨0, [.str "a"]⟩ [(.str "x", .int 1)] rfl).1
  · obtain ⟨-, empty⟩ := Value.merge_as_setEach (fun _ _ v => .ok v) 2 source inner ⟨1, []⟩ entries
    have hopen : Slot.OpenTo (some source) inner := .down (.mapping rfl) (.down (.absent rfl) (.here _))
    have present : ∀ k v, (k, v) ∈ entries → v ≠ .absent :=
      Fields.forall_cons.2 ⟨nofun, Fields.forall_cons.2 ⟨nofun, by simp⟩⟩
    exact empty (by decide) present (by simp [entries]) rfl hopen rfl

/-- A root that is null is not descended into, as null further down is: at a path below it nothing can be
merged in and nothing set. -/
theorem Value.null_root_refuses_merge :
    let path : List Key := [.str "a"]
    let entries : List (Key × Value) := [(.str "x", .int 1)]
    let call : Functions := fun _ _ v => .ok v
    Fields.Distinct entries ∧ (∀ k v, (k, v) ∈ entries → v ≠ .absent) ∧ entries ≠ [] ∧ path ≠ [] ∧
      Slot.OpenTo (some .null) path ∧ (Value.null.at_ path).isAbsent = true ∧
      ∀ o, Value.updateAt call 2 .null path .merge (.map ⟨1, []⟩ entries) ≠ .ok o ∧
        Value.updateAt call 2 .null path .defaults (.map ⟨1, []⟩ entries) ≠ .ok o ∧
        Value.update call 2 .null (Command.nest path (Command.setEach entries)) ≠ .ok o := by
  intro path entries call
  refine ⟨by decide, by simp [entries], by simp [entries], by simp [path], ?_, rfl, fun o => ?_⟩
  · exact .down (.absent rfl) (.here _)
  · exact ⟨nofun, nofun, nofun⟩

end TreeDelta
