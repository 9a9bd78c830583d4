import TreeDelta.Proofs.Update.Again
import TreeDelta.Proofs.Delta.Merge
/-!
# One update or two

A union of two descents does in one update what the two do one after the other: it succeeds
exactly if they do, leaves an equal value, and tells what the merge of their deltas tells. The
induction is on the union; below a key that only one of the two names it comes down to the same
command in two updates (`Command.Does.agrees`).
-/

namespace TreeDelta

namespace Command

/-- The third descent names all keys of the first two, with the children of each, and under a key
of both the union of theirs, which have to be descents. -/
inductive Union : Command → Command → Command → Prop where
  | keywise {cs ds es : List (Key × Command)}
      (keys : ∀ k, (Fields.get? k es).isSome = ((Fields.get? k cs).isSome || (Fields.get? k ds).isSome))
      (first : ∀ k c, Fields.get? k cs = some c → Fields.get? k ds = none →
        Fields.get? k es = some c)
      (second : ∀ k d, Fields.get? k cs = none → Fields.get? k ds = some d →
        Fields.get? k es = some d)
      (both : ∀ k c d e, Fields.get? k cs = some c → Fields.get? k ds = some d →
        Fields.get? k es = some e → Union c d e) :
      Union (descend cs) (descend ds) (descend es)

theorem keyed_of_child {children : List (Key × Command)} (h : (descend children).keyed = true)
    {k : Key} {c : Command} (hk : Fields.get? k children = some c) : c.keyed = true := by
  obtain ⟨l, hl, -⟩ := Fields.exists_mem_of_get? hk
  exact (keyed_descend.1 h).2 l c hl

theorem Union.symm {c d e : Command} (h : Union c d e) : Union d c e := by
  induction h with
  | keywise keys first second _ ih =>
    refine .keywise (fun k => by rw [keys k, Bool.or_comm]) ?_ ?_ ?_
    · intro k d hd hc; exact second k d hc hd
    · intro k c hd hc; exact first k c hc hd
    · intro k d c e hd hc he; exact ih k c d e hc hd he

inductive Union.At (cs ds es : List (Key × Command)) (k : Key) : Prop where
  | neither (left : Fields.get? k cs = none) (right : Fields.get? k ds = none)
      (whole : Fields.get? k es = none)
  | first {c : Command} (left : Fields.get? k cs = some c) (right : Fields.get? k ds = none)
      (whole : Fields.get? k es = some c)
  | second {d : Command} (left : Fields.get? k cs = none) (right : Fields.get? k ds = some d)
      (whole : Fields.get? k es = some d)
  | both {c d e : Command} (left : Fields.get? k cs = some c) (right : Fields.get? k ds = some d)
      (whole : Fields.get? k es = some e)

theorem Union.at_key {cs ds es : List (Key × Command)} (h : Union (descend cs) (descend ds) (descend es))
    (k : Key) : Union.At cs ds es k := by
  cases h with
  | keywise keys first second both =>
    have hk := keys k
    cases hc : Fields.get? k cs with
    | none =>
      cases hd : Fields.get? k ds with
      | none => rw [hc, hd] at hk; exact .neither hc hd (by simpa using hk)
      | some d => exact .second hc hd (second k d hc hd)
    | some c =>
      cases hd : Fields.get? k ds with
      | none => exact .first hc hd (first k c hc hd)
      | some d =>
        rw [hc, hd] at hk
        obtain ⟨e, he⟩ := Option.isSome_iff_exists.1 (by simpa using hk)
        exact .both hc hd he

end Command

/-! ## Merging plain deltas -/

namespace Delta

/-- Plain deltas that can be merged below every key can be merged, and nothing is left only of
nothing. -/
theorem Plain.merge {d e : Delta} {u w : Value} (hd : d.Plain) (he : e.Plain)
    (h : ∀ k, ∃ m, (d.child k).merge (u.child k) (w.child k) (e.child k) = .ok m ∧
      (m = .nothing → d.child k = .nothing ∧ e.child k = .nothing)) :
    ∃ m, d.merge u w e = .ok m ∧ m.Plain ∧ (m = .nothing → d = .nothing ∧ e = .nothing) ∧
      ∀ k, (d.child k).merge (u.child k) (w.child k) (e.child k) = .ok (m.child k) := by
  cases hd with
  | nothing => exact ⟨e, nothing_merge _ _ _, he, fun hn => ⟨rfl, hn⟩, fun k => nothing_merge _ _ _⟩
  | @tree earlier nonempty distinct told =>
    cases he with
    | nothing =>
      exact ⟨_, merge_nothing _ _ _, .tree nonempty distinct told, fun hn => ⟨hn, rfl⟩,
        fun k => merge_nothing _ _ _⟩
    | @tree later _ distinct' _ =>
      have each : ∀ k, ∃ m, ((Fields.get? k earlier).getD .nothing).merge (u.child k) (w.child k)
          ((Fields.get? k later).getD .nothing) = .ok m := by
        intro k
        obtain ⟨m, hm, -⟩ := h k
        exact ⟨m, hm⟩
      obtain ⟨entries, hm, hd, ht, hat⟩ := mergeEntries_at distinct' distinct told each
      -- what the earlier tree tells of its first key is not lost
      have hne : entries ≠ [] := by
        rintro rfl
        obtain ⟨⟨k, d⟩, rest, rfl⟩ := List.exists_cons_of_ne_nil nonempty
        obtain ⟨m, hk, hn⟩ := h k
        have hk' := hat k
        rw [child_tree, child_tree, hk'] at hk
        cases hk
        refine (isSome_iff_told told k).1 ?_ (hn rfl).1
        rw [Fields.get?_cons]; simp
      refine ⟨.tree entries, ?_, .tree hne hd ht, (fun hn => by cases hn), hat⟩
      rw [tree_merge_tree, hm]
      cases entries with
      | nil => exact absurd rfl hne
      | cons => rfl

end Delta

/-! ## One after the other -/

namespace Command

/-- Two outcomes in a row at one place and the outcome of both at once: they leave equal values,
and the merge of what the two tell is what the one tells. -/
structure Joined (slot : Slot) (o₁ o₂ o : Outcome) : Prop where
  after : Slot.Equals (o₂.after (o₁.after slot)) (o.after slot)
  delta : ∀ old new, ∃ m, o₁.delta.merge old new o₂.delta = .ok m ∧ m.Agrees o.delta ∧
    (m = .nothing → o₁.delta = .nothing ∧ o₂.delta = .nothing)

variable {call : Functions} {slot : Slot}

theorem after_mapping {children : List (Key × Command)} {before : Slot} {o₁ o₂ : Outcome}
    (h₂ : (descend children).Does call (o₁.after before) o₂) (hd : Fields.Distinct children)
    (hs : Slot.Distinct (o₁.after before))
    (h₁ : o₁.delta ≠ .nothing →
      ∃ id fields, o₁.after before = some (.map id fields) ∧ Fields.Distinct fields)
    (hn : ¬ (o₁.delta = .nothing ∧ o₂.delta = .nothing)) :
    ∃ id fields, o₂.after (o₁.after before) = some (.map id fields) ∧ Fields.Distinct fields := by
  by_cases hn₂ : o₂.delta = .nothing
  · rw [after_of_nothing hn₂]
    exact h₁ fun hn₁ => hn ⟨hn₁, hn₂⟩
  · exact (h₂.plain hd hs).2 hn₂

/-- Descents in a row are joined if they are below every key. -/
theorem joined_descend {cs ds es : List (Key × Command)} {o₁ o₂ o : Outcome}
    (hc : Fields.Distinct cs) (hd : Fields.Distinct ds) (he : Fields.Distinct es)
    (hs : slot.Distinct) (h₁ : (descend cs).Does call slot o₁)
    (h₂ : (descend ds).Does call (o₁.after slot) o₂) (h : (descend es).Does call slot o)
    (below : ∀ k,
      Slot.Equals (Slot.child (o₂.after (o₁.after slot)) k) (Slot.child (o.after slot) k) ∧
      ∀ old new, ∃ m, (o₁.delta.child k).merge old new (o₂.delta.child k) = .ok m ∧
        m.Agrees (o.delta.child k) ∧
        (m = .nothing → o₁.delta.child k = .nothing ∧ o₂.delta.child k = .nothing)) :
    Joined slot o₁ o₂ o := by
  obtain ⟨plain₁, mapping₁⟩ := h₁.plain hc hs
  have hs₂ := (h₁.opens_after hc hs).2
  obtain ⟨plain₂, -⟩ := h₂.plain hd hs₂
  obtain ⟨plain, mapping⟩ := h.plain he hs
  have merged : ∀ old new, ∃ m, o₁.delta.merge old new o₂.delta = .ok m ∧ m.Agrees o.delta ∧
      (m = .nothing → o₁.delta = .nothing ∧ o₂.delta = .nothing) := by
    intro old new
    obtain ⟨m, hm, hp, hn, hat⟩ := plain₁.merge (u := old) (w := new) plain₂ fun k => by
      obtain ⟨m, hm, -, hn⟩ := (below k).2 (old.child k) (new.child k)
      exact ⟨m, hm, hn⟩
    refine ⟨m, hm, hp.agrees plain fun k => ?_, hn⟩
    obtain ⟨m', hm', ha, -⟩ := (below k).2 (old.child k) (new.child k)
    rw [hat k] at hm'
    cases hm'
    exact ha
  refine ⟨?_, merged⟩
  obtain ⟨m, -, ha, hn⟩ := merged .absent .absent
  by_cases hnone : o.delta = .nothing
  · obtain ⟨hn₁, hn₂⟩ := hn (ha.nothing_iff.2 hnone)
    rw [after_of_nothing hnone, after_of_nothing hn₂, after_of_nothing hn₁]
    exact Slot.Equals.refl slot
  · have hsome : ¬ (o₁.delta = .nothing ∧ o₂.delta = .nothing) := by
      rintro ⟨hn₁, hn₂⟩
      obtain ⟨m', hm', ha', -⟩ := merged .absent .absent
      rw [hn₁, hn₂, Delta.merge_nothing] at hm'
      cases hm'
      exact hnone (ha'.nothing_iff.1 rfl)
    obtain ⟨i, fs, e, hf⟩ := after_mapping h₂ hd hs₂ mapping₁ hsome
    obtain ⟨j, gs, e', hg⟩ := mapping hnone
    rw [e, e'] at below ⊢
    exact .some (Value.equals_map hf hg fun k => (below k).1)

/-- A union succeeds only if the first of the two does, and then the second on what that leaves. -/
theorem Union.parts {c d e : Command} (h : Union c d e) (pure : call.Pure) :
    ∀ {slot : Slot} {o : Outcome}, c.keyed = true → d.keyed = true → e.keyed = true → slot.Keyed →
      e.Does call slot o →
      c.Can call slot ∧ ∀ o₁, c.Does call slot o₁ → d.Can call (o₁.after slot) := by
  induction h with
  | @keywise cs ds es keys first second both ih =>
    intro slot o hkc hkd hke hs h
    have hu : Union (descend cs) (descend ds) (descend es) := .keywise keys first second both
    have hc := (keyed_descend.1 hkc).1
    have hd := (keyed_descend.1 hkd).1
    have he := (keyed_descend.1 hke).1
    obtain ⟨fields, hopen⟩ := h.opens
    have below : ∀ k c d e, Fields.get? k cs = some c → Fields.get? k ds = some d →
        Fields.get? k es = some e → ∀ p, e.Does call (slot.child k) p →
        c.Can call (slot.child k) ∧
          ∀ p₁, c.Does call (slot.child k) p₁ → d.Can call (p₁.after (slot.child k)) := by
      intro k c d e left right whole p hp
      exact ih k c d e left right whole (keyed_of_child hkc left) (keyed_of_child hkd right)
        (keyed_of_child hke whole) (hs.child k) hp
    refine ⟨can_descend hopen hc fun k c hk => ?_, fun o₁ h₁ => ?_⟩
    · cases hu.at_key k with
      | neither left | second left => rw [left] at hk; cases hk
      | first left _ whole =>
        rw [left] at hk; cases hk
        obtain ⟨p, hp, -⟩ := h.child he whole
        exact hp.can pure (keyed_of_child hkc left) (hs.child k)
      | both left right whole =>
        rw [left] at hk; cases hk
        obtain ⟨p, hp, -⟩ := h.child he whole
        exact (below k _ _ _ left right whole p hp).1
    · obtain ⟨⟨fields', hopen'⟩, -⟩ := h₁.opens_after hc hs.distinct
      refine can_descend hopen' hd fun k d hk => ?_
      cases hu.at_key k with
      | neither _ right | first _ right => rw [right] at hk; cases hk
      | second left right whole =>
        rw [right] at hk; cases hk
        obtain ⟨p, hp, -⟩ := h.child he whole
        rw [(h₁.other hc left).1]
        exact hp.can pure (keyed_of_child hkd right) (hs.child k)
      | both left right whole =>
        rw [right] at hk; cases hk
        obtain ⟨p, hp, -⟩ := h.child he whole
        obtain ⟨p₁, hp₁, e₁, -⟩ := h₁.child hc left
        rw [e₁]
        exact (below k _ _ _ left right whole p hp).2 p₁ hp₁

/-- Where the two succeed one after the other, their union succeeds and does the same. -/
theorem Union.join {c d e : Command} (h : Union c d e) (pure : call.Pure) :
    ∀ {slot : Slot} {o₁ o₂ : Outcome}, c.keyed = true → d.keyed = true → e.keyed = true → slot.Keyed →
      c.Does call slot o₁ → d.Does call (o₁.after slot) o₂ →
      e.Can call slot ∧ ∀ o, e.Does call slot o → Joined slot o₁ o₂ o := by
  induction h with
  | @keywise cs ds es keys first second both ih =>
    intro slot o₁ o₂ hkc hkd hke hs h₁ h₂
    have hu : Union (descend cs) (descend ds) (descend es) := .keywise keys first second both
    have hc := (keyed_descend.1 hkc).1
    have hd := (keyed_descend.1 hkd).1
    have he := (keyed_descend.1 hke).1
    obtain ⟨fields, hopen⟩ := h₁.opens
    refine ⟨can_descend hopen he fun k e hk => ?_, fun o h => ?_⟩
    · cases hu.at_key k with
      | neither _ _ whole => rw [whole] at hk; cases hk
      | first left _ whole =>
        rw [whole] at hk; cases hk
        obtain ⟨p, hp, -⟩ := h₁.child hc left
        exact hp.can pure (keyed_of_child hkc left) (hs.child k)
      | second left right whole =>
        rw [whole] at hk; cases hk
        obtain ⟨p, hp, -⟩ := h₂.child hd right
        rw [(h₁.other hc left).1] at hp
        exact hp.can pure (keyed_of_child hkd right) (hs.child k)
      | both left right whole =>
        rw [whole] at hk; cases hk
        obtain ⟨p₁, hp₁, e₁, -⟩ := h₁.child hc left
        obtain ⟨p₂, hp₂, -⟩ := h₂.child hd right
        rw [e₁] at hp₂
        exact (ih k _ _ _ left right whole (keyed_of_child hkc left) (keyed_of_child hkd right)
          (keyed_of_child hke whole) (hs.child k) hp₁ hp₂).1
    · refine joined_descend hc hd he hs.distinct h₁ h₂ h fun k => ?_
      cases hu.at_key k with
      | neither left right whole =>
        obtain ⟨e₁, f₁⟩ := h₁.other hc left
        obtain ⟨e₂, f₂⟩ := h₂.other hd right
        obtain ⟨e, f⟩ := h.other he whole
        rw [e₂, e₁, e, f₁, f₂, f]
        exact ⟨Slot.Equals.refl _, fun old new => ⟨.nothing, by simp, .refl _, fun _ => ⟨rfl, rfl⟩⟩⟩
      | first left right whole =>
        obtain ⟨p₁, hp₁, e₁, f₁⟩ := h₁.child hc left
        obtain ⟨e₂, f₂⟩ := h₂.other hd right
        obtain ⟨p, hp, e, f⟩ := h.child he whole
        have ha := hp₁.agrees hp pure (keyed_of_child hkc left) (hs.child k)
        rw [e₂, e₁, e, f₁, f₂, f]
        exact ⟨ha.after, fun old new => ⟨_, Delta.merge_nothing _ _ _, ha.delta, fun hn => ⟨hn, rfl⟩⟩⟩
      | second left right whole =>
        obtain ⟨e₁, f₁⟩ := h₁.other hc left
        obtain ⟨p₂, hp₂, e₂, f₂⟩ := h₂.child hd right
        obtain ⟨p, hp, e, f⟩ := h.child he whole
        rw [e₁] at hp₂ e₂
        have ha := hp₂.agrees hp pure (keyed_of_child hkd right) (hs.child k)
        rw [e₂, e, f₁, f₂, f]
        exact ⟨ha.after, fun old new => ⟨_, Delta.nothing_merge _ _ _, ha.delta, fun hn => ⟨rfl, hn⟩⟩⟩
      | both left right whole =>
        obtain ⟨p₁, hp₁, e₁, f₁⟩ := h₁.child hc left
        obtain ⟨p₂, hp₂, e₂, f₂⟩ := h₂.child hd right
        obtain ⟨p, hp, e, f⟩ := h.child he whole
        rw [e₁] at hp₂ e₂
        have hj := (ih k _ _ _ left right whole (keyed_of_child hkc left) (keyed_of_child hkd right)
          (keyed_of_child hke whole) (hs.child k) hp₁ hp₂).2 p hp
        rw [e₂, e, f₁, f₂, f]
        exact ⟨hj.after, hj.delta⟩

/-! ## Updates -/

theorem Does.of_update {children : List (Key × Command)} {run : Nat} {source commands : Value}
    {o : Outcome} (hp : parse [] commands = .ok (descend children))
    (h : Value.update call run source commands = .ok o) :
    (descend children).Does call (some source) o ∧ source.isAbsent = false ∧
      o.after (some source) = some o.value := by
  rw [Value.update_of_parse hp] at h
  obtain ⟨ha, hn⟩ := applyRoot_iff.1 h
  refine ⟨⟨_, _, _, _, ha⟩, ?_, applyRoot_after h⟩
  rw [Bool.eq_false_iff]
  exact fun hnull => hn hnull children rfl

theorem Can.update {children : List (Key × Command)} {source commands : Value}
    (h : (descend children).Can call (some source)) (hn : source.isAbsent = false)
    (hp : parse [] commands = .ok (descend children)) (run : Nat) :
    ∃ o, Value.update call run source commands = .ok o := by
  obtain ⟨o, ho⟩ := h run [] [] rootKey
  rw [Value.update_of_parse hp]
  refine ⟨o, applyRoot_iff.2 ⟨ho, fun hnull => ?_⟩⟩
  rw [hn] at hnull
  cases hnull

/-- What a descent leaves of a value that is not null can be descended into again. -/
theorem Does.not_absent {children : List (Key × Command)} {source : Value} {o : Outcome}
    (h : (descend children).Does call (some source) o) (hd : Fields.Distinct children)
    (hs : Slot.Distinct (some source)) (hn : source.isAbsent = false)
    (ho : o.after (some source) = some o.value) : o.value.isAbsent = false := by
  by_cases hnone : o.delta = .nothing
  · rw [after_of_nothing hnone] at ho
    cases ho
    exact hn
  · obtain ⟨id, fields, e, -⟩ := (h.plain hd hs).2 hnone
    rw [ho] at e
    rw [Option.some.inj e]
    rfl

end Command

/-- Updating by one command comes to the same as updating by two, whatever numbers the updates have:
it succeeds if both do, leaves an equal value, and tells what the merge of their deltas tells. -/
structure Value.Splits (call : Functions) (source commands first second : Value) : Prop where
  succeeds : ∀ run run₁ run₂, (∃ o, Value.update call run source commands = .ok o) ↔
    ∃ o₁ o₂, Value.update call run₁ source first = .ok o₁ ∧
      Value.update call run₂ o₁.value second = .ok o₂
  agrees : ∀ run run₁ run₂ o o₁ o₂, Value.update call run source commands = .ok o →
    Value.update call run₁ source first = .ok o₁ → Value.update call run₂ o₁.value second = .ok o₂ →
    o₂.value.Equals o.value ∧
      ∃ m, o₁.delta.merge source o₂.value o₂.delta = .ok m ∧ m.Agrees o.delta

theorem Command.Union.splits {call : Functions} {source commands first second : Value}
    {c d e : Command} (h : Union c d e) (pure : call.Pure) (hs : source.keyed = true)
    (hkc : c.keyed = true) (hkd : d.keyed = true) (hke : e.keyed = true)
    (hc : parse [] first = .ok c) (hd : parse [] second = .ok d) (he : parse [] commands = .ok e) :
    Value.Splits call source commands first second := by
  have hslot : Slot.Keyed (some source) := by
    rintro v ⟨⟩
    exact hs
  cases h with
  | @keywise cs ds es keys first' second' both =>
    have hu : Union (descend cs) (descend ds) (descend es) := .keywise keys first' second' both
    have hdc := (keyed_descend.1 hkc).1
    refine ⟨fun run run₁ run₂ => ⟨?_, ?_⟩, ?_⟩
    · rintro ⟨o, ho⟩
      obtain ⟨h, hn, -⟩ := Does.of_update he ho
      obtain ⟨can₁, can₂⟩ := hu.parts pure hkc hkd hke hslot h
      obtain ⟨o₁, ho₁⟩ := can₁.update hn hc run₁
      obtain ⟨h₁, -, e₁⟩ := Does.of_update hc ho₁
      have hn₁ := h₁.not_absent hdc hslot.distinct hn e₁
      have can := can₂ o₁ h₁
      rw [e₁] at can
      obtain ⟨o₂, ho₂⟩ := can.update hn₁ hd run₂
      exact ⟨o₁, o₂, ho₁, ho₂⟩
    · rintro ⟨o₁, o₂, ho₁, ho₂⟩
      obtain ⟨h₁, hn, e₁⟩ := Does.of_update hc ho₁
      obtain ⟨h₂, -, -⟩ := Does.of_update hd ho₂
      rw [← e₁] at h₂
      exact (hu.join pure hkc hkd hke hslot h₁ h₂).1.update hn he run
    · intro run run₁ run₂ o o₁ o₂ ho ho₁ ho₂
      obtain ⟨h, -, e⟩ := Does.of_update he ho
      obtain ⟨h₁, -, e₁⟩ := Does.of_update hc ho₁
      obtain ⟨h₂, -, e₂⟩ := Does.of_update hd ho₂
      rw [← e₁] at h₂ e₂
      have hj := (hu.join pure hkc hkd hke hslot h₁ h₂).2 o h
      have ha := hj.after
      rw [e₂, e] at ha
      obtain ⟨m, hm, hagrees, -⟩ := hj.delta source o₂.value
      refine ⟨?_, m, hm, hagrees⟩
      cases ha with
      | some heq => exact heq

/-- An update by the union of two descents comes to the same as two updates by one each, in
whichever order. -/
theorem Value.update_split {call : Functions} {source commands first second : Value}
    {c d e : Command} (pure : call.Pure) (hs : source.keyed = true) (hkc : first.keyed = true)
    (hkd : second.keyed = true) (hke : commands.keyed = true) (hc : Command.parse [] first = .ok c)
    (hd : Command.parse [] second = .ok d) (he : Command.parse [] commands = .ok e)
    (h : Command.Union c d e) :
    Splits call source commands first second ∧ Splits call source commands second first ∧
      ∀ run₁ run₂ run₃ run₄ o₁ o₂ o₃ o₄, Value.update call run₁ source first = .ok o₁ →
        Value.update call run₂ o₁.value second = .ok o₂ →
        Value.update call run₃ source second = .ok o₃ →
        Value.update call run₄ o₃.value first = .ok o₄ →
        o₂.value.Equals o₄.value ∧ ∃ m m', o₁.delta.merge source o₂.value o₂.delta = .ok m ∧
          o₃.delta.merge source o₄.value o₄.delta = .ok m' ∧ m.Agrees m' := by
  have hkc := Command.keyed_of_parse hkc hc
  have hkd := Command.keyed_of_parse hkd hd
  have hke := Command.keyed_of_parse hke he
  have forth := h.splits pure hs hkc hkd hke hc hd he
  have back := h.symm.splits pure hs hkd hkc hke hd hc he
  refine ⟨forth, back, fun run₁ run₂ run₃ run₄ o₁ o₂ o₃ o₄ h₁ h₂ h₃ h₄ => ?_⟩
  obtain ⟨o, ho⟩ := (forth.succeeds 0 run₁ run₂).2 ⟨o₁, o₂, h₁, h₂⟩
  obtain ⟨hv, m, hm, ha⟩ := forth.agrees 0 run₁ run₂ o o₁ o₂ ho h₁ h₂
  obtain ⟨hv', m', hm', ha'⟩ := back.agrees 0 run₃ run₄ o o₃ o₄ ho h₃ h₄
  exact ⟨hv.trans hv'.symm, m, m', hm, hm', ha.trans ha'.symm⟩

/-- Two commands share a descent through null; one has a branch that changes nothing, the other a
mapping to merge in and a function to invoke. -/
theorem Value.update_split_of_shared :
    let call : Functions := fun _ _ v => .ok (.tuple [v])
    let source : Value := .map ⟨0, []⟩
      [(.str "a", .null), (.str "b", .map ⟨0, [.str "b"]⟩ [(.str "x", .int 1)])]
    let entries : Value := .map ⟨1, [.int 0]⟩ [(.str "y", .int 2)]
    let leaf : Value → Value := .op (.str "$set")
    let first : Value := .map ⟨1, []⟩ [(.str "a", .map ⟨1, [.int 1]⟩ [(.str "p", leaf (.int 3))]),
      (.str "c", .op (.str "$invoke") (.fn ⟨2, []⟩))]
    let second : Value := .map ⟨1, []⟩ [(.str "a", .map ⟨1, [.int 2]⟩ [(.str "q", leaf (.int 4))]),
      (.str "b", .op (.str "$merge") entries)]
    let commands : Value := .map ⟨1, []⟩ [
      (.str "a", .map ⟨1, [.int 3]⟩ [(.str "q", leaf (.int 4)), (.str "p", leaf (.int 3))]),
      (.str "b", .op (.str "$merge") entries), (.str "c", .op (.str "$invoke") (.fn ⟨2, []⟩))]
    let c : Command := .descend [(.str "a", .descend [(.str "p", .op .set (.int 3))]),
      (.str "c", .op .invoke (.fn ⟨2, []⟩))]
    let d : Command := .descend [(.str "a", .descend [(.str "q", .op .set (.int 4))]),
      (.str "b", .op .merge entries)]
    let e : Command := .descend [
      (.str "a", .descend [(.str "q", .op .set (.int 4)), (.str "p", .op .set (.int 3))]),
      (.str "b", .op .merge entries), (.str "c", .op .invoke (.fn ⟨2, []⟩))]
    call.Pure ∧ source.keyed = true ∧ first.keyed = true ∧ second.keyed = true ∧
      commands.keyed = true ∧ Command.parse [] first = .ok c ∧ Command.parse [] second = .ok d ∧
      Command.parse [] commands = .ok e ∧ Command.Union c d e ∧
      (∃ o, Value.update call 2 source commands = .ok o ∧ o.delta.isValid = true) ∧
      Splits call source commands first second ∧ Splits call source commands second first := by
  intro call source entries leaf first second commands c d e
  have pure : call.Pure := fun id fresh fresh' v made h => ⟨made, h, .refl made, rfl⟩
  have hs : source.keyed = true := by decide
  have hkc : first.keyed = true := by decide
  have hkd : second.keyed = true := by decide
  have hke : commands.keyed = true := by decide
  have hc : Command.parse [] first = .ok c := rfl
  have hd : Command.parse [] second = .ok d := rfl
  have he : Command.parse [] commands = .ok e := rfl
  have apart : ∀ {k : Key}, k.same (.str "c") = true → k.same (.str "b") = true → False := by
    intro k hc hb
    rw [Key.same_comm] at hc
    exact absurd (Key.same_trans hc hb) (by decide)
  have inner : Command.Union (.descend [(.str "p", .op .set (.int 3))])
      (.descend [(.str "q", .op .set (.int 4))])
      (.descend [(.str "q", .op .set (.int 4)), (.str "p", .op .set (.int 3))]) := by
    have apart : ∀ {k : Key}, k.same (.str "p") = true → k.same (.str "q") = true → False := by
      intro k hp hq
      rw [Key.same_comm] at hp
      exact absurd (Key.same_trans hp hq) (by decide)
    refine .keywise ?_ ?_ ?_ ?_ <;> intro k <;> simp only [Fields.get?_cons] <;>
      split_ifs <;> simp_all [Fields.get?]
  have hu : Command.Union c d e := by
    refine .keywise ?_ ?_ ?_ ?_ <;> intro k <;> simp only [Fields.get?_cons] <;>
      split_ifs <;> simp_all [Fields.get?]
  obtain ⟨forth, back, -⟩ := Value.update_split pure hs hkc hkd hke hc hd he hu
  exact ⟨pure, hs, hkc, hkd, hke, hc, hd, he, hu, ⟨_, rfl, rfl⟩, forth, back⟩

end TreeDelta
