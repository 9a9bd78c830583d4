import TreeDelta.Proofs.Update.Step
/-!
# What a command means

`Operation.Effect` says what each operation makes of a place, without a draft and without an order.
`Command.apply_below` shows that every part of a command acts on what stood at its path before the
update, whatever the other branches did first; `Command.Meant` collects what follows for a whole
update.
-/

namespace TreeDelta

/-! ## Single operations -/

/-- What laying entries over a place leaves. -/
inductive Overlaid (fresh : Ident) (extensions : List (Key × Value)) : Slot → Slot → Prop where
  /-- A copy of the entries, where nothing or null was. -/
  | copied {before : Slot} (absent : (before.getD .absent).isAbsent = true) :
      Overlaid fresh extensions before (some (.map fresh extensions))
  /-- The mapping itself, if every entry is the same as what it holds. -/
  | idle {u : Value} (mapping : u.fields?.isSome = true)
      (same : ∀ k v, Fields.get? k extensions = some v →
        v.same ((Slot.child (some u) k).getD .absent) = true) :
      Overlaid fresh extensions (some u) (some u)
  /-- A new mapping with every entry that is not the same laid over the old ones, if there is one. -/
  | laid {u : Value} {fields : List (Key × Value)} (mapping : u.fields?.isSome = true)
      (differs : ∃ k v, Fields.get? k extensions = some v ∧
        v.same ((Slot.child (some u) k).getD .absent) = false)
      (written : ∀ k v, Fields.get? k extensions = some v →
        Fields.get? k fields = settled v (Slot.child (some u) k))
      (kept : ∀ k, Fields.get? k extensions = none →
        Fields.get? k fields = Slot.child (some u) k) :
      Overlaid fresh extensions (some u) (some (.map fresh fields))

/-- The entries whose keys a place lacks. -/
def Slot.lacks (slot : Slot) (extensions : List (Key × Value)) : List (Key × Value) :=
  extensions.filter fun (k, _) => (slot.child k).isNone

/-- Where something stands below a key, no entry for the key is lacking. -/
theorem Slot.get?_lacks {slot : Slot} {k : Key} {w : Value} (hw : slot.child k = some w)
    (extensions : List (Key × Value)) : Fields.get? k (slot.lacks extensions) = none := by
  refine Fields.get?_none_of_forall fun l a hm => ?_
  have hl : slot.child l = none := by
    have := (List.mem_filter.1 hm).2
    simpa using this
  by_contra hs
  rw [Slot.child_congr (by simpa using hs), hl] at hw
  cases hw

/-- What an operation makes of a place. -/
inductive Operation.Effect (call : Functions) (fresh : Ident) :
    Operation → Value → Slot → Slot → Prop where
  | set (v : Value) (before : Slot) : Effect call fresh .set v before (settled v before)
  | push {v : Value} {items : List Value} {u : Value} (found : u.sequence? = some items) :
      Effect call fresh .push v (some u) (some (u.withItems fresh (items ++ [v])))
  | unshift {v : Value} {items : List Value} {u : Value} (found : u.sequence? = some items) :
      Effect call fresh .unshift v (some u) (some (u.withItems fresh (v :: items)))
  | merge {v : Value} {extensions : List (Key × Value)} {before after : Slot}
      (given : v.fields? = some extensions) (laid : Overlaid fresh extensions before after) :
      Effect call fresh .merge v before after
  | defaults {v : Value} {extensions : List (Key × Value)} {before after : Slot}
      (given : v.fields? = some extensions)
      (laid : Overlaid fresh (before.lacks extensions) before after) :
      Effect call fresh .defaults v before after
  | invoke {id : Ident} {made : Value} {before : Slot}
      (called : call id fresh (before.getD .absent) = .ok made) :
      Effect call fresh .invoke (.fn id) before (settled made before)

theorem Site.Targets.child {site : Site} {target : Option (List (Key × Value))}
    (h : site.Targets target) (k : Key) : Slot.child site.slot k = Fields.get? k (target.getD []) := by
  cases target with
  | none => exact Slot.Opens.child (.absent h) k
  | some fields => exact Slot.Opens.child (.mapping h) k

theorem Site.lacking_eq {site : Site} {target : Option (List (Key × Value))}
    (h : site.Targets target) (extensions : List (Key × Value)) :
    lacking target extensions = Slot.lacks site.slot extensions := by
  unfold lacking Slot.lacks
  congr 1
  funext entry
  simp [h.child, Fields.has]

/-- The entries of a mapping are laid over those at a site. -/
theorem Site.extend_overlaid {site : Site} {fresh : Ident} {target : Option (List (Key × Value))}
    {extensions : List (Key × Value)} (hd : Fields.Distinct extensions) (ht : site.Targets target) :
    Overlaid fresh extensions site.slot ((site.extend fresh target extensions).after site.slot) := by
  cases target with
  | none => exact .copied ht
  | some fields =>
    obtain ⟨key, slot⟩ := site
    have ht : (slot.getD .absent).fields? = some fields := ht
    obtain ⟨u, rfl⟩ : ∃ u, slot = some u := by
      cases slot with
      | none => cases ht
      | some u => exact ⟨u, rfl⟩
    have hm : u.fields?.isSome = true := by
      have ht : u.fields? = some fields := ht
      rw [ht]; rfl
    obtain ⟨took, kept⟩ := Draft.commit_at fresh u (.mapping ht) hd (Draft.went_setAll _ extensions)
    have written : ∀ k v, Fields.get? k extensions = some v →
        Slot.child ((((Draft.start fields).setAll extensions).commit fresh u).after (some u)) k =
          settled v (Slot.child (some u) k) := by
      intro k v hk
      obtain ⟨l, hl, hs⟩ := Fields.exists_mem_of_get? hk
      obtain ⟨o, rfl, e, -⟩ := took l v hl
      rw [Slot.child_congr hs, Slot.child_congr hs, e]
      exact Site.after_set ⟨l, Slot.child (some u) l⟩ v
    have differs : (((Draft.start fields).setAll extensions).commit fresh u).delta ≠ .nothing →
        ∃ k v, Fields.get? k extensions = some v ∧
          v.same ((Slot.child (some u) k).getD .absent) = false := by
      intro told
      by_contra all
      have tidy := ((Draft.went_setAll (.start fields) extensions).spec hd).2.2 (Draft.tidy_start fields)
      refine told (Draft.commit_told tidy fun k => ?_)
      cases hk : Fields.get? k extensions with
      | none => exact (kept k hk).2
      | some v =>
        obtain ⟨l, hl, hs⟩ := Fields.exists_mem_of_get? hk
        obtain ⟨o, rfl, -, e⟩ := took l v hl
        have same : v.same (Site.current ⟨l, Slot.child (some u) l⟩) = true := by
          by_contra hne
          refine all ⟨k, v, hk, ?_⟩
          rw [Slot.child_congr hs]
          exact Bool.eq_false_iff.2 hne
        rw [Delta.child_congr hs, e, Site.set, if_pos same]
        rfl
    simp only [Site.extend, Site.current, Option.getD_some]
    unfold Draft.commit at written kept took differs ⊢
    split
    · rename_i he
      simp only [he, if_true] at took
      refine .idle hm fun k v hk => ?_
      obtain ⟨l, hl, hs⟩ := Fields.exists_mem_of_get? hk
      obtain ⟨o, rfl, -, hq⟩ := took l v hl
      rw [Slot.child_congr hs]
      unfold Site.set at hq
      split at hq
      · rename_i h; exact h
      · cases hq
    · rename_i he
      simp only [he] at written kept differs
      exact .laid hm (differs (by simp)) written fun k hk => (kept k hk).1

/-- An operation has its effect on the place it is applied to. -/
theorem Operation.effect_of_apply {call : Functions} {fresh : Ident} {site : Site}
    {kind : Operation} {v : Value} {o : Outcome} (hk : v.keyed = true)
    (h : kind.apply call fresh site v = .ok o) :
    Effect call fresh kind v site.slot (o.after site.slot) := by
  cases did_of_apply h with
  | set => rw [Site.after_set]; exact .set v _
  | push hs | unshift hs =>
    obtain ⟨key, slot⟩ := site
    obtain ⟨u, rfl⟩ := Slot.of_sequence hs
    constructor
    exact hs
  | merge he ht => exact .merge he (Site.extend_overlaid (Value.distinct_of_keyed hk he) ht)
  | defaults he ht =>
    refine .defaults he ?_
    rw [← Site.lacking_eq ht]
    exact Site.extend_overlaid (Fields.distinct_filter (Value.distinct_of_keyed hk he)) ht
  | invoke hc => rw [Site.after_set]; exact .invoke hc

/-! ### Places that are left as they were -/

theorem Site.set_nothing {site : Site} {v : Value} (h : (site.set v).after site.slot = site.slot) :
    (site.set v).delta = .nothing := by
  unfold Site.set at h ⊢
  split
  · rfl
  · rename_i hs
    rw [if_neg hs, Outcome.after_replaced] at h
    have e : site.current = v := by rw [Site.current, ← h]; rfl
    exact absurd (by rw [e]; exact Value.same_self v) hs

theorem Value.sequence?_withItems (fresh : Ident) (v : Value) (items : List Value) :
    (v.withItems fresh items).sequence? = some items := by
  cases v <;> rfl

theorem Site.extend_nothing {site : Site} {fresh : Ident} {target : Option (List (Key × Value))}
    {extensions : List (Key × Value)} (hd : Fields.Distinct extensions) (ht : site.Targets target)
    (h : (site.extend fresh target extensions).after site.slot = site.slot) :
    (site.extend fresh target extensions).delta = .nothing := by
  cases target with
  | none =>
    have ht : (site.slot.getD .absent).isAbsent = true := ht
    have e : some (.map fresh extensions) = site.slot := h
    rw [← e] at ht; cases ht
  | some fields =>
    have went := Draft.went_setAll (.start fields) extensions
    obtain ⟨took, kept⟩ := Draft.commit_at fresh site.current (.mapping ht) hd went
    have h : (((Draft.start fields).setAll extensions).commit fresh site.current).after site.slot =
        site.slot := h
    rw [h] at took kept
    refine Draft.commit_told ((went.spec hd).2.2 (Draft.tidy_start fields)) fun k => ?_
    cases hk : Fields.get? k extensions with
    | none => exact (kept k hk).2
    | some v =>
      obtain ⟨l, hl, hs⟩ := Fields.exists_mem_of_get? hk
      obtain ⟨o, rfl, e1, e2⟩ := took l v hl
      rw [Delta.child_congr hs, e2]
      exact Site.set_nothing e1.symm

/-- An operation that leaves its place as it was has nothing to tell. -/
theorem Operation.nothing_of_after {call : Functions} {fresh : Ident} {site : Site}
    {kind : Operation} {v : Value} {o : Outcome} (hk : v.keyed = true)
    (h : kind.apply call fresh site v = .ok o) (hs : o.after site.slot = site.slot) :
    o.delta = .nothing := by
  cases did_of_apply h with
  | set | invoke => exact Site.set_nothing hs
  | push found | unshift found =>
    -- a sequence with one more item is another sequence
    rw [Outcome.after_replaced] at hs
    rw [Site.current, ← hs, Option.getD_some, Value.sequence?_withItems] at found
    simp at found
  | merge he ht => exact Site.extend_nothing (Value.distinct_of_keyed hk he) ht hs
  | defaults he ht =>
    exact Site.extend_nothing (Fields.distinct_filter (Value.distinct_of_keyed hk he)) ht hs

/-! ## Commands -/

namespace Command

/-- The part of a command at a path. -/
inductive Holds : Command → List Key → Command → Prop where
  | here (c : Command) : Holds c [] c
  | down {children : List (Key × Command)} {k : Key} {c d : Command} {p : List Key}
      (child : (k, c) ∈ children) (rest : Holds c p d) : Holds (descend children) (k :: p) d

/-- What is said of a command is true of each of its parts. -/
def Throughout (P : Command → Prop) (c : Command) : Prop := ∀ p d, c.Holds p d → P d

@[simp] theorem throughout_op {P : Command → Prop} {kind : Operation} {argument : Value} :
    (op kind argument).Throughout P ↔ P (op kind argument) := by
  refine ⟨fun h => h [] _ (.here _), fun h p d hp => ?_⟩
  cases hp
  exact h

@[simp] theorem throughout_descend {P : Command → Prop} {children : List (Key × Command)} :
    (descend children).Throughout P ↔
      P (descend children) ∧ ∀ k c, (k, c) ∈ children → c.Throughout P := by
  constructor
  · intro h
    exact ⟨h [] _ (.here _), fun k c hm p d hp => h (k :: p) d (.down hm hp)⟩
  · rintro ⟨here, below⟩ p d hp
    cases hp with
    | here => exact here
    | down hm hp => exact below _ _ hm _ _ hp

variable {call : Functions} {run : Nat}

/-- Every part of a command acts on what stood at its path before, and the path then holds what
that leaves. -/
theorem apply_below {c d : Command} {p : List Key} (hd : c.Holds p d) :
    ∀ {place : List Key} {trail : Trail} {site : Site} {o : Outcome}, c.keyed = true →
      c.apply call run place trail site = .ok o →
      ∃ key trail' q, d.keyed = true ∧
        d.apply call run (p.reverse ++ place) trail' ⟨key, Slot.at_ site.slot p⟩ = .ok q ∧
        Slot.at_ (o.after site.slot) p = q.after (Slot.at_ site.slot p) := by
  induction hd with
  | here c =>
    intro place trail site o hk h
    exact ⟨site.key, trail, o, hk, h, rfl⟩
  | @down children k c d p child rest ih =>
    intro place trail site o hk h
    obtain ⟨hd, hall⟩ := keyed_descend.1 hk
    obtain ⟨q, hq, e, -⟩ := (descend_at hd h).1 k c child
    obtain ⟨key, trail', r, hkd, hr, e'⟩ := ih (hall k c child) hq
    refine ⟨key, trail', r, hkd, ?_, ?_⟩
    · simpa using hr
    · simpa [e] using e'

/-- A command whose operations all leave their places as they were has nothing to tell. -/
theorem nothing_of_idle {c : Command} :
    ∀ {place : List Key} {trail : Trail} {site : Site} {o : Outcome}, c.keyed = true →
      c.apply call run place trail site = .ok o →
      (∀ p kind argument, c.Holds p (.op kind argument) →
        Slot.at_ (o.after site.slot) p = Slot.at_ site.slot p) → o.delta = .nothing := by
  induction c using Command.induction with
  | op kind argument =>
    intro place trail site o hk h hs
    exact Operation.nothing_of_after hk h (hs [] kind argument (.here _))
  | unknown kind argument => intro place trail site o _ h; cases h
  | descend children ih =>
    intro place trail site o hk h hs
    obtain ⟨hd, hall⟩ := keyed_descend.1 hk
    obtain ⟨took, kept⟩ := descend_at hd h
    have below : ∀ k, o.delta.child k = .nothing := by
      intro k
      cases hc : Fields.get? k children with
      | none => exact (kept k hc).2
      | some c =>
        obtain ⟨l, hl, hkl⟩ := Fields.exists_mem_of_get? hc
        obtain ⟨q, hq, e, eq⟩ := took l c hl
        rw [Delta.child_congr hkl, eq]
        refine ih l c hl (hall l c hl) hq fun p kind argument hp => ?_
        have := hs (l :: p) kind argument (.down hl hp)
        simpa [e] using this
    obtain ⟨fields, last, source, hopen, hl, rfl⟩ := descend_ok h
    exact Draft.commit_told (((went_applyAll hl).spec hd).2.2 (Draft.tidy_start fields)) below

/-- `after` is what a command makes of `before`: each operation acts on what stood at its path
before, a part of which no operation changes anything leaves its place as it was, and so does a
descent with the keys it does not name. -/
structure Meant (call : Functions) (run : Nat) (c : Command) (before after : Value) : Prop where
  acts : ∀ p kind argument, c.Holds p (.op kind argument) →
    kind.Effect call ⟨run, p.reverse⟩ argument (before.lookup? p) (after.lookup? p)
  idle : ∀ p d, c.Holds p d →
    (∀ q kind argument, d.Holds q (.op kind argument) →
      after.lookup? (p ++ q) = before.lookup? (p ++ q)) →
    after.lookup? p = before.lookup? p
  outside : ∀ p children k, c.Holds p (.descend children) → Fields.get? k children = none →
    after.lookup? (p ++ [k]) = before.lookup? (p ++ [k])

theorem meant_of_applyRoot {c : Command} {source : Value} {o : Outcome} (hk : c.keyed = true)
    (h : c.applyRoot call run source = .ok o) : Meant call run c source o.value := by
  have hr := apply_of_applyRoot h
  have ha := applyRoot_after h
  refine ⟨fun p kind argument hp => ?_, fun p d hp hq => ?_, fun p children k hp hn => ?_⟩
  · obtain ⟨key, trail, q, hkd, hq, e⟩ := apply_below hp hk hr
    rw [ha] at e
    rw [Value.lookup?, Value.lookup?, e]
    simpa using Operation.effect_of_apply hkd hq
  · obtain ⟨key, trail, q, hkd, hd, e⟩ := apply_below hp hk hr
    rw [ha] at e
    have hn : q.delta = .nothing := nothing_of_idle hkd hd fun r kind argument hr' => by
      have := hq r kind argument hr'
      simp only [Value.lookup?, Slot.at_append, e] at this
      exact this
    rw [Value.lookup?, e, Outcome.after, hn]; rfl
  · obtain ⟨key, trail, q, hkd, hd, e⟩ := apply_below hp hk hr
    rw [ha] at e
    simp only [Value.lookup?, Slot.at_append, e]
    exact ((descend_at (keyed_descend.1 hkd).1 hd).2 k hn).1

end Command

end TreeDelta
