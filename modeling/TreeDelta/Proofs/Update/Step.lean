import TreeDelta.Proofs.Update.Draft
/-!
# What one step of an update does

`Operation.Did` lists, one case for each operation, what an application that succeeds has found
and what it has made of that; `Command.descend_ok` does the same for a descent, and
`Command.apply_of_applyRoot` makes the root a place like any other. These are the only places
where the definitions are unfolded; every later proof goes by the cases.
-/

namespace TreeDelta

/-- The entries to extend: those of the mapping at the site, or none where nothing or null is. -/
def Site.Targets (site : Site) : Option (List (Key × Value)) → Prop
  | none => site.current.isAbsent = true
  | some fields => site.current.fields? = some fields

/-- The entries whose keys a mapping lacks. -/
def lacking (target : Option (List (Key × Value))) (extensions : List (Key × Value)) :
    List (Key × Value) :=
  extensions.filter fun (k, _) => !Fields.has k (target.getD [])

/-- What an operation with its argument has done at a site. -/
inductive Operation.Did (call : Functions) (fresh : Ident) (site : Site) :
    Operation → Value → Outcome → Prop where
  | set {v : Value} : Did call fresh site .set v (site.set v)
  | push {v : Value} {items : List Value} (found : site.current.sequence? = some items) :
      Did call fresh site .push v
        (.replaced site .change (site.current.withItems fresh (items ++ [v])))
  | unshift {v : Value} {items : List Value} (found : site.current.sequence? = some items) :
      Did call fresh site .unshift v
        (.replaced site .change (site.current.withItems fresh (v :: items)))
  | merge {v : Value} {extensions : List (Key × Value)} {target : Option (List (Key × Value))}
      (given : v.fields? = some extensions) (found : site.Targets target) :
      Did call fresh site .merge v (site.extend fresh target extensions)
  | defaults {v : Value} {extensions : List (Key × Value)} {target : Option (List (Key × Value))}
      (given : v.fields? = some extensions) (found : site.Targets target) :
      Did call fresh site .defaults v (site.extend fresh target (lacking target extensions))
  | invoke {id : Ident} {made : Value} (called : call id fresh site.current = .ok made) :
      Did call fresh site .invoke (.fn id) (site.set made)

theorem mappingOf_ok {kind : Operation} {role : Role} {key : Key} {v : Value}
    {fields : List (Key × Value)} (h : mappingOf kind role key v = .ok fields) :
    v.fields? = some fields := by
  unfold mappingOf at h
  split at h
  · rename_i e; cases h; exact e
  · cases h

theorem Site.targetOf_ok {site : Site} {kind : Operation} {target : Option (List (Key × Value))}
    (h : site.targetOf kind = .ok target) : site.Targets target := by
  unfold Site.targetOf at h
  split at h
  · rename_i ha; cases h; exact ha
  · cases hm : mappingOf kind .target site.key site.current with
    | error f => rw [hm] at h; cases h
    | ok fields => rw [hm] at h; cases h; exact mappingOf_ok hm

theorem Site.sequenceAt_ok {site : Site} {kind : Operation} {items : List Value}
    (h : site.sequenceAt kind = .ok items) : site.current.sequence? = some items := by
  unfold Site.sequenceAt at h
  split at h
  · rename_i e; cases h; exact e
  · cases h

theorem Operation.did_of_apply {call : Functions} {fresh : Ident} {site : Site} {kind : Operation}
    {v : Value} {o : Outcome} (h : kind.apply call fresh site v = .ok o) :
    Did call fresh site kind v o := by
  cases kind with
  | set => cases h; exact .set
  | push =>
    simp only [Operation.apply, Site.push] at h
    cases hs : site.sequenceAt .push with
    | error f => rw [hs] at h; cases h
    | ok items => rw [hs] at h; cases h; exact .push (Site.sequenceAt_ok hs)
  | unshift =>
    simp only [Operation.apply, Site.unshift] at h
    cases hs : site.sequenceAt .unshift with
    | error f => rw [hs] at h; cases h
    | ok items => rw [hs] at h; cases h; exact .unshift (Site.sequenceAt_ok hs)
  | merge =>
    simp only [Operation.apply, Site.merge] at h
    cases hm : mappingOf .merge .argument site.key v with
    | error f => rw [hm] at h; cases h
    | ok extensions =>
      cases ht : site.targetOf .merge with
      | error f => rw [hm, ht] at h; cases h
      | ok target =>
        rw [hm, ht] at h; cases h
        exact .merge (mappingOf_ok hm) (Site.targetOf_ok ht)
  | defaults =>
    simp only [Operation.apply, Site.defaults] at h
    cases hm : mappingOf .defaults .argument site.key v with
    | error f => rw [hm] at h; cases h
    | ok extensions =>
      cases ht : site.targetOf .defaults with
      | error f => rw [hm, ht] at h; cases h
      | ok target =>
        rw [hm, ht] at h; cases h
        exact .defaults (mappingOf_ok hm) (Site.targetOf_ok ht)
  | invoke =>
    simp only [Operation.apply, Site.invoke] at h
    split at h
    · rename_i id
      cases hc : call id fresh site.current with
      | error f => rw [hc] at h; cases h
      | ok made => rw [hc] at h; cases h; exact .invoke hc
    · cases h

/-- A sequence stands only where a place holds something. -/
theorem Slot.of_sequence {slot : Slot} {items : List Value}
    (h : (slot.getD .absent).sequence? = some items) : ∃ u, slot = some u := by
  cases slot with
  | none => cases h
  | some u => exact ⟨u, rfl⟩

/-! ## Descents -/

/-- The entries with which a descent starts at a place: none where nothing or null is. -/
inductive Slot.Opens (slot : Slot) : List (Key × Value) → Prop where
  | absent (h : (slot.getD .absent).isAbsent = true) : Opens slot []
  | mapping {fields : List (Key × Value)} (h : (slot.getD .absent).fields? = some fields) :
      Opens slot fields

theorem Slot.Opens.child {slot : Slot} {fields : List (Key × Value)} (h : slot.Opens fields)
    (k : Key) : slot.child k = Fields.get? k fields := by
  cases slot with
  | none =>
    cases h with
    | absent => rfl
    | mapping h => cases h
  | some v =>
    cases h with
    | absent h => cases v <;> first | rfl | cases h
    | mapping h => exact Slot.child_of_fields h k

theorem Slot.Opens.of_some {v : Value} {fields : List (Key × Value)} (h : Slot.Opens (some v) fields) :
    v.isAbsent = true ∨ v.fields?.isSome = true := by
  cases h with
  | absent h => exact Or.inl h
  | mapping h =>
    have h : v.fields? = some fields := h
    exact Or.inr (by simp [h])

/-- What a draft that was gone through comes to, key by key: at an entry's key its outcome on what
stood there at first, and elsewhere what stood there. -/
theorem Draft.commit_at {α : Type} {R : Key → α → Slot → Outcome → Prop} {before : Slot}
    {fields : List (Key × Value)} {entries : List (Key × α)} {last : Draft} (fresh : Ident)
    (source : Value) (hopen : before.Opens fields) (hd : Fields.Distinct entries)
    (went : Draft.Went R (.start fields) entries last) :
    (∀ k x, (k, x) ∈ entries → ∃ o, R k x (before.child k) o ∧
      ((last.commit fresh source).after before).child k = o.after (before.child k) ∧
      (last.commit fresh source).delta.child k = o.delta) ∧
    ∀ k, Fields.get? k entries = none →
      ((last.commit fresh source).after before).child k = before.child k ∧
      (last.commit fresh source).delta.child k = .nothing := by
  obtain ⟨took, kept, -⟩ := went.spec hd
  refine ⟨fun k x hm => ?_, fun k hk => ?_⟩
  · obtain ⟨o, ho, ht⟩ := took k x hm
    obtain ⟨hf, hc⟩ := ht k (Key.same_self k)
    have e : Fields.get? k (start fields).fields = before.child k := (hopen.child k).symm
    rw [e] at ho hf
    refine ⟨o, ho, ?_⟩
    by_cases hn : o.delta.isNothing = true
    · rw [if_pos hn] at hc
      unfold commit
      split
      · simp [Outcome.after, Outcome.unchanged, Delta.isNothing_iff.1 hn, Delta.isNothing]
      · refine ⟨by simpa [Outcome.after, Delta.isNothing] using hf, ?_⟩
        rw [Delta.child_tree, hc, Delta.isNothing_iff.1 hn]; rfl
    · rw [if_neg hn] at hc
      have hne : last.changes.isEmpty = false := by
        cases hl : last.changes with
        | nil => rw [hl] at hc; cases hc
        | cons => rfl
      simp only [commit, hne, Bool.false_eq_true, if_false]
      refine ⟨by simpa [Outcome.after, Delta.isNothing] using hf, ?_⟩
      rw [Delta.child_tree, hc]; rfl
  · obtain ⟨hf, hc⟩ := kept k hk
    have e : Fields.get? k (start fields).fields = before.child k := (hopen.child k).symm
    unfold commit
    split
    · exact ⟨rfl, rfl⟩
    · refine ⟨by simpa [Outcome.after, Delta.isNothing] using hf.trans e, ?_⟩
      rw [Delta.child_tree, hc]; rfl

/-- A draft is committed with nothing to tell only if no entry had anything to tell. -/
theorem Draft.commit_told {last : Draft} {fresh : Ident} {source : Value} (ht : last.Tidy)
    (h : ∀ k, (last.commit fresh source).delta.child k = .nothing) :
    (last.commit fresh source).delta = .nothing := by
  unfold commit at h ⊢
  split
  · rfl
  · rename_i hne
    rw [if_neg hne] at h
    refine absurd ?_ hne
    rw [List.isEmpty_iff]
    refine Fields.eq_nil_of_get? fun k => ?_
    cases hk : Fields.get? k last.changes with
    | none => rfl
    | some d =>
      have := h k
      rw [Delta.child_tree, hk] at this
      exact absurd (this ▸ hk) (ht.told k)

theorem descendInto_ok {fresh : Ident} {trail : Trail} {source : Value}
    {through : Draft → Except Fault Draft} {o : Outcome}
    (h : descendInto fresh trail source through = .ok o) :
    ∃ fields last, source.fields? = some fields ∧ through (.start fields) = .ok last ∧
      o = last.commit fresh source := by
  unfold descendInto at h
  split at h
  · rename_i fields hf
    cases ht : through (.start fields) with
    | error f => rw [ht] at h; cases h
    | ok last => rw [ht] at h; cases h; exact ⟨fields, last, hf, ht, rfl⟩
  · cases h

namespace Command

variable {call : Functions} {run : Nat} {place : List Key} {trail : Trail}

theorem descend_ok {site : Site} {children : List (Key × Command)} {o : Outcome}
    (h : (descend children).apply call run place trail site = .ok o) :
    ∃ fields last source, Slot.Opens site.slot fields ∧
      applyAll call run place trail (.start fields) children = .ok last ∧
      o = last.commit ⟨run, place⟩ source := by
  simp only [apply] at h
  obtain ⟨fields, last, hf, hl, ho⟩ := descendInto_ok h
  refine ⟨fields, last, _, ?_, hl, ho⟩
  split at hf
  · rename_i ha; cases hf; exact .absent ha
  · exact .mapping hf

/-- What a descent does, key by key: each child is applied to what its key held at first, and
nothing becomes of other keys. -/
theorem descend_at {site : Site} {children : List (Key × Command)} {o : Outcome}
    (hd : Fields.Distinct children)
    (h : (descend children).apply call run place trail site = .ok o) :
    (∀ k c, (k, c) ∈ children → ∃ p,
      c.apply call run (k :: place) (trail ++ [k.plain]) ⟨k, Slot.child site.slot k⟩ = .ok p ∧
      Slot.child (o.after site.slot) k = p.after (Slot.child site.slot k) ∧ o.delta.child k = p.delta) ∧
    ∀ k, Fields.get? k children = none →
      Slot.child (o.after site.slot) k = Slot.child site.slot k ∧ o.delta.child k = .nothing := by
  obtain ⟨fields, last, source, hopen, hl, rfl⟩ := descend_ok h
  exact Draft.commit_at _ _ hopen hd (went_applyAll hl)

theorem apply_descend {site : Site} {children : List (Key × Command)} {fields : List (Key × Value)}
    {last : Draft} (hopen : Slot.Opens site.slot fields)
    (hl : applyAll call run place trail (.start fields) children = .ok last) :
    ∃ source, (descend children).apply call run place trail site =
      .ok (last.commit ⟨run, place⟩ source) := by
  simp only [apply]
  cases hopen with
  | absent ha =>
    have ha : site.current.isAbsent = true := ha
    exact ⟨.map ⟨run, place⟩ [], by simp [ha, descendInto, Value.fields?, hl]; rfl⟩
  | mapping hf =>
    have hf : site.current.fields? = some fields := hf
    have ha : site.current.isAbsent = false := by
      cases hc : site.current <;> rw [hc] at hf <;> first | rfl | cases hf
    exact ⟨site.current, by simp [ha, descendInto, hf, hl]; rfl⟩

/-- The root is a place that holds the source, but null there is not descended into. -/
theorem applyRoot_iff {source : Value} {c : Command} {o : Outcome} :
    c.applyRoot call run source = .ok o ↔
      c.apply call run [] [] ⟨rootKey, some source⟩ = .ok o ∧
        (source.isAbsent = true → ∀ children, c ≠ descend children) := by
  cases c with
  | op | unknown => simp [applyRoot]
  | descend children =>
    cases ha : source.isAbsent with
    | true =>
      have hf : source.fields? = none := by cases source <;> first | rfl | cases ha
      simp [applyRoot, descendInto, hf]
    | false => simp [applyRoot, apply, Site.current, ha]

theorem apply_of_applyRoot {source : Value} {c : Command} {o : Outcome}
    (h : c.applyRoot call run source = .ok o) :
    c.apply call run [] [] ⟨rootKey, some source⟩ = .ok o := (applyRoot_iff.1 h).1

end Command

/-! ## Outcomes that change nothing -/

theorem Site.set_unchanged {site : Site} {v : Value} (h : (site.set v).delta = .nothing) :
    (site.set v).value = site.current := by
  unfold Site.set at h ⊢
  split at h
  · rename_i hs; rw [if_pos hs]; rfl
  · cases h

theorem Draft.commit_unchanged {draft : Draft} {fresh : Ident} {source : Value}
    (h : (draft.commit fresh source).delta = .nothing) : (draft.commit fresh source).value = source := by
  unfold Draft.commit at h ⊢
  split at h
  · rename_i hs; rw [if_pos hs]; rfl
  · cases h

theorem Site.extend_unchanged {site : Site} {fresh : Ident} {target : Option (List (Key × Value))}
    {extensions : List (Key × Value)} (h : (site.extend fresh target extensions).delta = .nothing) :
    (site.extend fresh target extensions).value = site.current := by
  cases target with
  | none => cases h
  | some fields => exact Draft.commit_unchanged h

/-- Where the root's delta says nothing, the result is the very source. -/
theorem Command.applyRoot_unchanged {call : Functions} {run : Nat} {source : Value} {c : Command}
    {o : Outcome} (h : c.applyRoot call run source = .ok o) (hn : o.delta = .nothing) :
    o.value = source := by
  cases c with
  | unknown => cases h
  | op kind argument =>
    cases Operation.did_of_apply h with
    | set | invoke => exact Site.set_unchanged hn
    | push | unshift => cases hn
    | merge | defaults => exact Site.extend_unchanged hn
  | descend children =>
    simp only [applyRoot] at h
    obtain ⟨fields, last, -, -, rfl⟩ := descendInto_ok h
    exact Draft.commit_unchanged hn

theorem Command.applyRoot_after {call : Functions} {run : Nat} {source : Value} {c : Command}
    {o : Outcome} (h : c.applyRoot call run source = .ok o) : o.after (some source) = some o.value := by
  unfold Outcome.after
  split
  · rename_i hn; rw [applyRoot_unchanged h (Delta.isNothing_iff.1 hn)]
  · rfl

theorem Value.update_of_parse {call : Functions} {run : Nat} {source commands : Value} {c : Command}
    (h : Command.parse [] commands = .ok c) :
    Value.update call run source commands = c.applyRoot call run source := by
  unfold Value.update; rw [h]; rfl

theorem Value.update_ok {call : Functions} {run : Nat} {source commands : Value} {o : Outcome}
    (h : Value.update call run source commands = .ok o) :
    ∃ c, Command.parse [] commands = .ok c ∧ c.applyRoot call run source = .ok o := by
  unfold Value.update at h
  cases hp : Command.parse [] commands with
  | error f => rw [hp] at h; cases h
  | ok c => rw [hp] at h; exact ⟨c, rfl, h⟩

end TreeDelta
