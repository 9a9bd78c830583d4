import TreeDelta.Proofs.Delta.Document
import TreeDelta.Proofs.Delta.Net
/-!
# Updates of JSON data

An update of JSON data by a command that is JSON data leaves JSON data and tells of nothing else
(`Value.update_json`): such a command calls no function, and every operation makes its value of what
is there and what is given. Step by step, a draft of JSON data stays one.
-/

namespace TreeDelta

/-! ## What stands in a delta -/

/-- All values that a delta tells of are data of JSON or absent, and all keys come back. -/
inductive Delta.IsJson : Delta → Prop
  | nothing : IsJson .nothing
  | node {c : Change} (old : c.old.IsStored) (new : c.new.IsStored) : IsJson (.node c)
  | tree {entries : List (Key × Delta)} (keys : ∀ k d, (k, d) ∈ entries → k.IsStored)
      (below : ∀ k d, (k, d) ∈ entries → IsJson d) : IsJson (.tree entries)

/-- A delta of JSON data that leads somewhere can be stored. -/
theorem Delta.Leads.storable {r : Reading} {u v : Value} {d : Delta} (h : Leads r u v d)
    (hd : d.IsJson) : d = .nothing ∨ d.Storable := by
  induction h with
  | still => exact Or.inl rfl
  | add | change | remove =>
    cases hd with
    | node old new => exact Or.inr (.node _ old new)
  | @tree u v entries nonempty distinct told _ _ _ ih =>
    cases hd with
    | tree keys below =>
      refine Or.inr (.tree nonempty distinct keys fun k d hm => ?_)
      have hk := Fields.get?_of_mem distinct hm
      have hstored := ih k (by rw [hk]; exact below k d hm)
      rw [hk] at hstored
      exact hstored.resolve_left fun e => told k (e ▸ hk)

namespace Value

/-- Entries of a mapping of JSON data. -/
def AreJson (fields : List (Key × Value)) : Prop := ∀ k v, (k, v) ∈ fields → k.IsName ∧ v.IsJson

theorem isJson_map {id : Ident} {fields : List (Key × Value)} :
    (map id fields).IsJson ↔ Fields.Distinct fields ∧ AreJson fields := by
  constructor
  · intro h
    cases h with
    | map distinct names below => exact ⟨distinct, fun k v hm => ⟨names k v hm, below k v hm⟩⟩
  · rintro ⟨distinct, h⟩
    exact .map distinct (fun k v hm => (h k v hm).1) fun k v hm => (h k v hm).2

theorem IsJson.of_fields {v : Value} {fields : List (Key × Value)} (h : v.IsJson)
    (hf : v.fields? = some fields) : Fields.Distinct fields ∧ AreJson fields := by
  cases v with
  | map => cases hf; exact isJson_map.1 h
  | _ => cases hf

theorem IsJson.full {v : Value} (h : v.IsJson) : v.Full := by
  induction h with
  | list _ ih => exact ⟨keyedItems_iff.2 fun v hv => (ih v hv).1, rfl⟩
  | map distinct _ _ ih =>
    exact ⟨keyed_map.2 ⟨distinct, fun k v hm => (ih k v hm).1⟩, whole_map.2 fun k v hm => (ih k v hm).2⟩
  | _ => exact ⟨rfl, rfl⟩

theorem IsStored.child {v : Value} (h : v.IsStored) (k : Key) : (v.child k).IsStored := by
  cases hf : v.fields? with
  | none =>
    rw [child_eq_absent hf]
    exact Or.inl rfl
  | some fields =>
    have hv : v.IsJson := h.resolve_left (by rintro rfl; cases hf)
    rw [Value.child, hf, Option.getD_some]
    cases hk : Fields.get? k fields with
    | none => exact Or.inl rfl
    | some w =>
      obtain ⟨l, hm, -⟩ := Fields.exists_mem_of_get? hk
      exact Or.inr ((hv.of_fields hf).2 l w hm).2

end Value

/-- What stands at the place, if anything, is data of JSON. -/
def Slot.IsJson (slot : Slot) : Prop := ∀ v, slot = some v → v.IsJson

theorem Slot.IsJson.stored {slot : Slot} (h : slot.IsJson) : (slot.getD .absent).IsStored := by
  cases slot with
  | none => exact Or.inl rfl
  | some v => exact Or.inr (h v rfl)

theorem Slot.IsJson.opens {slot : Slot} {fields : List (Key × Value)} (h : slot.IsJson)
    (hopen : slot.Opens fields) : Fields.Distinct fields ∧ Value.AreJson fields := by
  cases hopen with
  | absent => exact ⟨List.nodup_nil, fun _ _ hm => by cases hm⟩
  | mapping hf =>
    cases slot with
    | none => cases hf
    | some v => exact (h v rfl).of_fields hf

/-- An outcome that tells something tells JSON data, and leaves some. -/
def Outcome.IsJson (o : Outcome) : Prop := o.delta = .nothing ∨ (o.value.IsJson ∧ o.delta.IsJson)

/-! ## Drafts -/

/-- A draft of JSON data. -/
structure Draft.IsJson (draft : Draft) : Prop where
  distinct : Fields.Distinct draft.fields
  fields : Value.AreJson draft.fields
  changes : ∀ k d, (k, d) ∈ draft.changes → k.IsName ∧ d.IsJson

theorem Draft.IsJson.take {draft : Draft} (h : draft.IsJson) {k : Key} (hk : k.IsName) {o : Outcome}
    (ho : o.IsJson) : (draft.take k o).IsJson := by
  unfold Draft.take
  split
  · exact h
  · rename_i hn
    obtain ⟨hv, hd⟩ := ho.resolve_left fun e => hn (Delta.isNothing_iff.2 e)
    exact ⟨Fields.distinct_put h.distinct, Fields.forall_put h.fields hk hv,
      Fields.forall_put h.changes hk hd⟩

/-- A run through entries whose keys are names leaves JSON data, if all outcomes are that. -/
theorem Draft.Went.isJson {α : Type} {R : Key → α → Slot → Outcome → Prop} {draft last : Draft}
    {entries : List (Key × α)} (went : Draft.Went R draft entries last) (h : draft.IsJson)
    (hR : ∀ k x slot o, (k, x) ∈ entries → R k x slot o → Slot.IsJson slot → k.IsName ∧ o.IsJson) :
    last.IsJson := by
  induction went with
  | nil => exact h
  | @cons draft last k x rest o step next ih =>
    have hslot : Slot.IsJson (Fields.get? k draft.fields) := by
      intro v hv
      obtain ⟨l, hm, -⟩ := Fields.exists_mem_of_get? hv
      exact (h.fields l v hm).2
    obtain ⟨hk, ho⟩ := hR k x _ o (by simp) step hslot
    exact ih (h.take hk ho) fun l y slot p hm => hR l y slot p (by simp [hm])

theorem Draft.IsJson.commit {draft : Draft} (h : draft.IsJson) (fresh : Ident) (source : Value) :
    (draft.commit fresh source).IsJson := by
  unfold Draft.commit
  split
  · exact Or.inl rfl
  · refine Or.inr ⟨Value.isJson_map.2 ⟨h.distinct, h.fields⟩, .tree (fun k d hm => ?_) fun k d hm => ?_⟩
    · exact Or.inl (h.changes k d hm).1
    · exact (h.changes k d hm).2

theorem Slot.IsJson.start {slot : Slot} {fields : List (Key × Value)} (h : slot.IsJson)
    (hopen : slot.Opens fields) : (Draft.start fields).IsJson :=
  ⟨(h.opens hopen).1, (h.opens hopen).2, fun _ _ hm => by cases hm⟩

/-! ## Operations -/

theorem Outcome.isJson_replaced {site : Site} (h : Slot.IsJson site.slot) (kind : ChangeKind) {v : Value}
    (hv : v.IsJson) : (replaced site kind v).IsJson :=
  Or.inr ⟨hv, .node h.stored (Or.inr hv)⟩

theorem Site.isJson_set {site : Site} (h : Slot.IsJson site.slot) {v : Value} (hv : v.IsJson) :
    (site.set v).IsJson := by
  unfold Site.set
  split
  · exact Or.inl rfl
  · exact Outcome.isJson_replaced h _ hv

theorem Site.isJson_extend {site : Site} (h : Slot.IsJson site.slot) (fresh : Ident)
    {target : Option (List (Key × Value))} (ht : site.Targets target)
    {extensions : List (Key × Value)} (hd : Fields.Distinct extensions) (he : Value.AreJson extensions) :
    (site.extend fresh target extensions).IsJson := by
  cases target with
  | none => exact Outcome.isJson_replaced h _ (Value.isJson_map.2 ⟨hd, he⟩)
  | some fields =>
    refine Draft.IsJson.commit ((Draft.went_setAll _ extensions).isJson (h.start (.mapping ht)) ?_) _ _
    rintro k v slot o hm rfl hslot
    have hsite : Slot.IsJson (Site.mk k slot).slot := hslot
    exact ⟨(he k v hm).1, Site.isJson_set hsite (he k v hm).2⟩

/-- What is pushed onto a sequence of JSON data leaves a list of such. -/
theorem Site.isJson_withItems {site : Site} (h : Slot.IsJson site.slot) (fresh : Ident)
    {items others : List Value} (found : site.current.sequence? = some items)
    (ho : ∀ w ∈ others, w ∈ items ∨ w.IsJson) : (site.current.withItems fresh others).IsJson := by
  obtain ⟨u, hu⟩ := Slot.of_sequence found
  have hc : site.current = u := by rw [Site.current, hu]; rfl
  rw [hc] at found ⊢
  have hjson := h u hu
  cases hjson with
  | list below =>
    cases found
    exact .list fun w hw => (ho w hw).elim (below w) id
  | _ => cases found

theorem Operation.apply_json {call : Functions} {fresh : Ident} {site : Site} {kind : Operation}
    {v : Value} {o : Outcome} (h : Slot.IsJson site.slot) (hv : v.IsJson)
    (ho : kind.apply call fresh site v = .ok o) : o.IsJson := by
  cases did_of_apply ho with
  | set => exact Site.isJson_set h hv
  | push found | unshift found =>
    refine Outcome.isJson_replaced h _ (Site.isJson_withItems h fresh found fun w hw => ?_)
    simp only [List.mem_append, List.mem_cons, List.not_mem_nil, or_false] at hw
    rcases hw with hw | hw <;> first | exact Or.inl hw | exact Or.inr (hw ▸ hv)
  | merge he ht =>
    obtain ⟨hd, hall⟩ := hv.of_fields he
    exact Site.isJson_extend h fresh ht hd hall
  | defaults he ht =>
    obtain ⟨hd, hall⟩ := hv.of_fields he
    exact Site.isJson_extend h fresh ht (Fields.distinct_filter hd)
      fun k w hm => hall k w (List.mem_filter.1 hm).1
  | invoke => cases hv

/-! ## Commands -/

namespace Command

/-- A command of JSON data: such are the arguments, and the keys of descents are names. -/
inductive IsJson : Command → Prop
  | op {kind : Operation} {argument : Value} (given : argument.IsJson) : IsJson (op kind argument)
  | descend {children : List (Key × Command)} (names : ∀ k c, (k, c) ∈ children → k.IsName)
      (below : ∀ k c, (k, c) ∈ children → IsJson c) : IsJson (descend children)

theorem isJson_of_parse {trail : Trail} {v : Value} {c : Command} (hv : v.IsJson)
    (h : parse trail v = .ok c) : c.IsJson := by
  refine of_parse (P := Value.IsJson) (Q := IsJson) ?_ ?_ ?_ ?_ ?_ hv h
  · intro v hv; cases hv
  · intro id fields k w hf hm; exact ((Value.isJson_map.1 hf).2 k w hm).2
  · intro kind argument hv; cases hv
  · intro o argument hv; exact .op hv
  · intro id fields children hf hkeys hchildren
    refine .descend (fun k c hm => ?_) hchildren
    have hk : k ∈ Fields.keys fields := hkeys ▸ List.mem_map_of_mem (f := (·.1)) hm
    obtain ⟨⟨l, w⟩, hl, rfl⟩ := List.mem_map.1 hk
    exact ((Value.isJson_map.1 hf).2 l w hl).1

theorem apply_json {call : Functions} {run : Nat} {c : Command} (hc : c.IsJson) :
    ∀ {place : List Key} {trail : Trail} {site : Site} {o : Outcome}, Slot.IsJson site.slot →
      c.apply call run place trail site = .ok o → o.IsJson := by
  induction hc with
  | op given =>
    intro place trail site o hs h
    exact Operation.apply_json hs given h
  | descend names below ih =>
    intro place trail site o hs h
    obtain ⟨fields, last, source, hopen, hl, rfl⟩ := descend_ok h
    refine Draft.IsJson.commit ((went_applyAll hl).isJson (hs.start hopen) ?_) _ _
    intro k c slot o hm hp hslot
    have hsite : Slot.IsJson (Site.mk k slot).slot := hslot
    exact ⟨names k c hm, ih k c hm hsite hp⟩

end Command

/-- An update of JSON data by a command of JSON data leaves JSON data, and its delta, which is of
JSON data as well, leads exactly from the source to the result. -/
theorem Value.update_json {call : Functions} {run : Nat} {source commands : Value} {o : Outcome}
    (hs : source.IsJson) (hc : commands.IsJson) (h : Value.update call run source commands = .ok o) :
    o.value.IsJson ∧ o.delta.IsJson ∧ Delta.Leads .exact source o.value o.delta := by
  obtain ⟨c, hp, ha⟩ := update_ok h
  have hslot : Slot.IsJson (some source) := by rintro _ ⟨⟩; exact hs
  have ho : o.IsJson := Command.apply_json (Command.isJson_of_parse hc hp)
    hslot (Command.apply_of_applyRoot ha)
  have hvalue : o.value.IsJson ∧ o.delta.IsJson := by
    rcases ho with hn | ho
    · rw [Command.applyRoot_unchanged ha hn, hn]
      exact ⟨hs, .nothing⟩
    · exact ho
  refine ⟨hvalue.1, hvalue.2, ?_⟩
  refine (Command.applyRoot_records (Command.keyed_of_parse hc.full.1 hp) ha).leads ?_ ?_
  · rintro _ ⟨⟩; exact hs.full.2
  · rintro _ ⟨⟩; exact hvalue.1.full.2

end TreeDelta
