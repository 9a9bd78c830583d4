import TreeDelta.Proofs.Command.Grammar
import TreeDelta.Proofs.Delta.Listing
/-!
# The order of keys after an update

A mapping that an update has changed lists the keys it had as they stood, and then the new ones as the
command lists them; the delta lists the keys that have changed, in that same order (`Slot.InOrder`). The
two loops of an update write their lists in one way: a key that is there keeps its place, any other goes
to the end. `Fields.Written` is that alone, and `Value.update_order` reads it off at every path at which
a delta holds a tree, down the raw command.
-/

namespace TreeDelta

namespace Fields

variable {α : Type}

theorem keys_put (k : Key) (a : α) (fields : List (Key × α)) :
    keys (put k a fields) = if has k fields then keys fields else keys fields ++ [k] := by
  induction fields with
  | nil => rfl
  | cons entry rest ih =>
    obtain ⟨l, b⟩ := entry
    by_cases hl : k.same l = true
    · simp [put, has, get?_cons, hl, keys]
    · have hput : keys (put k a ((l, b) :: rest)) = l :: keys (put k a rest) := by
        rw [put, if_neg hl]
        rfl
      have hhas : has k ((l, b) :: rest) = has k rest := by rw [has, has, get?_cons, if_neg hl]
      rw [hput, ih, hhas]
      split <;> rfl

/-- Going through a list of keys, an entry was written at some of them, and nothing else was done. -/
inductive Written : List (Key × α) → List Key → List (Key × α) → Prop where
  | nil (fields : List (Key × α)) : Written fields [] fields
  | left {first last : List (Key × α)} {k : Key} {rest : List Key} (next : Written first rest last) :
      Written first (k :: rest) last
  | wrote {first last : List (Key × α)} {k : Key} {rest : List Key} (a : α)
      (next : Written (put k a first) rest last) : Written first (k :: rest) last

theorem Written.has_other {first last : List (Key × α)} {listed : List Key}
    (h : Written first listed last) {k : Key} (hk : ∀ l ∈ listed, k.same l = false) :
    has k last = has k first := by
  induction h with
  | nil => rfl
  | left _ ih => exact ih fun l hl => hk l (by simp [hl])
  | @wrote first last l rest a _ ih =>
    rw [ih fun m hm => hk m (by simp [hm]), has, has, get?_put_other (hk l (by simp))]

/-- The keys that were there keep their places, and the new ones follow in the order in which they were
gone through. -/
theorem Written.keys_eq {first last : List (Key × α)} {listed : List Key}
    (h : Written first listed last) (hd : (listed.map Key.canon).Nodup) :
    keys last = keys first ++ listed.filter fun k => !has k first && has k last := by
  induction h with
  | nil fields => simp
  | @left first last k rest next ih =>
    obtain ⟨hk, hd⟩ := List.nodup_cons.1 hd
    have still : has k last = has k first := next.has_other fun l hl => by
      simpa [Key.same] using fun e => hk (List.mem_map.2 ⟨l, hl, e.symm⟩)
    rw [ih hd, List.filter_cons, still, Bool.not_and_self]
    rfl
  | @wrote first last k rest a next ih =>
    obtain ⟨hk, hd⟩ := List.nodup_cons.1 hd
    have apart : ∀ l ∈ rest, k.same l = false := fun l hl => by
      simpa [Key.same] using fun e => hk (List.mem_map.2 ⟨l, hl, e.symm⟩)
    have there : has k last = true := by
      rw [next.has_other apart, has, get?_put_self]
      rfl
    have others : (rest.filter fun l => !has l (put k a first) && has l last) =
        rest.filter fun l => !has l first && has l last := by
      refine List.filter_congr fun l hl => ?_
      have hlk : l.same k = false := by rw [Key.same_comm]; exact apart l hl
      rw [has, get?_put_other hlk]
      rfl
    rw [ih hd, keys_put, others, List.filter_cons, there]
    cases has k first <;> simp

end Fields

namespace Draft

variable {α : Type} {R : Key → α → Slot → Outcome → Prop} {draft last : Draft}
  {entries : List (Key × α)}

theorem Went.written (h : Went R draft entries last) :
    Fields.Written draft.fields (Fields.keys entries) last.fields ∧
      Fields.Written draft.changes (Fields.keys entries) last.changes := by
  induction h with
  | nil draft => exact ⟨.nil _, .nil _⟩
  | @cons draft last k x rest o step next ih =>
    unfold take at ih
    split at ih
    · exact ⟨.left ih.1, .left ih.2⟩
    · exact ⟨.wrote _ ih.1, .wrote _ ih.2⟩

end Draft

/-! ## One level -/

/-- The keys of the mapping that a place holds. -/
def Slot.keys (slot : Slot) : List Key := Fields.keys ((slot.bind Value.fields?).getD [])

/-- What a place holds after an update, and what is told of it, in the order of the keys: those that
were there and those that are new as they are listed, and of these the ones that have changed. -/
structure Slot.InOrder (before after : Slot) (told : List (Key × Delta)) (listed : List Key) : Prop where
  keys : ∃ id fields, after = some (.map id fields) ∧ Fields.keys fields = before.keys ++
    listed.filter fun k => (before.child k).isNone && (after.child k).isSome
  told : Fields.keys told = listed.filter fun k => after.child k ≠ before.child k

theorem Slot.Opens.keys {slot : Slot} {fields : List (Key × Value)} (h : slot.Opens fields) :
    slot.keys = Fields.keys fields := by
  cases slot with
  | none =>
    cases h with
    | absent => rfl
    | mapping h => cases h
  | some v =>
    cases h with
    | absent h => cases v <;> first | rfl | cases h
    | mapping h =>
      have hf : v.fields? = some fields := h
      rw [Slot.keys, Option.bind_some, hf, Option.getD_some]

/-- A draft is committed in the order of the entries that it was gone through with, if every outcome
that leaves its place as it was tells nothing. -/
theorem Draft.commit_inOrder {α : Type} {R : Key → α → Slot → Outcome → Prop} {before : Slot}
    {fields : List (Key × Value)} {entries : List (Key × α)} {last : Draft} {fresh : Ident}
    {source : Value} {told : List (Key × Delta)} (hopen : before.Opens fields)
    (hd : Fields.Distinct entries) (went : Draft.Went R (.start fields) entries last)
    (idle : ∀ k x o, (k, x) ∈ entries → R k x (before.child k) o →
      o.after (before.child k) = before.child k → o.delta = .nothing)
    (ht : (last.commit fresh source).delta = .tree told) :
    Slot.InOrder before ((last.commit fresh source).after before) told (Fields.keys entries) := by
  obtain ⟨took, -⟩ := commit_at fresh source hopen hd went
  have tidy := (went.spec hd).2.2 (Draft.tidy_start fields)
  have e : last.commit fresh source = ⟨.map fresh last.fields, .tree last.changes⟩ :=
    commit_of_told (by rw [ht]; simp)
  rw [e] at took ht ⊢
  cases ht
  refine ⟨⟨fresh, last.fields, rfl, ?_⟩, ?_⟩
  · rw [hopen.keys]
    refine (went.written.1.keys_eq hd).trans (congrArg _ (List.filter_congr fun k _ => ?_))
    rw [hopen.child]
    simp [Fields.has, Outcome.after, Delta.isNothing, Draft.start]
  · refine (went.written.2.keys_eq hd).trans (List.filter_congr fun k hk => ?_)
    obtain ⟨⟨l, x⟩, hm, rfl⟩ := List.mem_map.1 hk
    obtain ⟨o, ho, hafter, hdelta⟩ := took l x hm
    have changed : o.delta ≠ .nothing ↔ o.after (before.child l) ≠ before.child l :=
      ⟨fun hn he => hn (idle l x o hm ho he), fun hn he => hn (by rw [Outcome.after, he]; rfl)⟩
    rw [Bool.eq_iff_iff, decide_eq_true_iff, hafter, ← changed, ← hdelta, Delta.child_tree,
      ← tidy.isSome_iff]
    rfl

/-- Entries that were left out as their keys were there, and stay as they were, change nothing in the
order. -/
theorem Slot.InOrder.of_filter {before after : Slot} {told : List (Key × Delta)}
    {entries : List (Key × Value)} {p : Key × Value → Bool}
    (h : Slot.InOrder before after told (Fields.keys (entries.filter p)))
    (out : ∀ k v, (k, v) ∈ entries → p (k, v) = false →
      (before.child k).isSome = true ∧ after.child k = before.child k) :
    Slot.InOrder before after told (Fields.keys entries) := by
  have same : ∀ q : Key → Bool, (∀ k v, (k, v) ∈ entries → p (k, v) = false → q k = false) →
      (Fields.keys (entries.filter p)).filter q = (Fields.keys entries).filter q := by
    intro q hq
    rw [Fields.keys, Fields.keys, List.filter_map, List.filter_map, List.filter_filter]
    refine congrArg _ (List.filter_congr ?_)
    rintro ⟨k, v⟩ hm
    cases hp : p (k, v) with
    | true => simp
    | false => simp [hq k v hm hp]
  obtain ⟨id, fields, hafter, hkeys⟩ := h.keys
  refine ⟨⟨id, fields, hafter, hkeys.trans (congrArg _ (same _ fun k v hm hp => ?_))⟩,
    h.told.trans (same _ fun k v hm hp => ?_)⟩
  · obtain ⟨u, hu⟩ := Option.isSome_iff_exists.1 (out k v hm hp).1
    simp [hu]
  · simp [(out k v hm hp).2]

/-! ## All levels -/

/-- A setting tells no more than one change. -/
theorem Site.set_leaf (site : Site) (v : Value) (p : List Key) (told : List (Key × Delta)) :
    (site.set v).delta.at_ p ≠ .tree told := by
  unfold Site.set
  split
  · simp [Outcome.unchanged]
  · cases p <;> simp [Outcome.replaced]

/-- Mapping entries that are set one by one are committed in order. -/
theorem Draft.setAll_inOrder {site : Site} {fields entries : List (Key × Value)} {fresh : Ident}
    {source : Value} {told : List (Key × Delta)} (hf : site.current.fields? = some fields)
    (hd : Fields.Distinct entries)
    (ht : (((Draft.start fields).setAll entries).commit fresh source).delta = .tree told) :
    Slot.InOrder site.slot ((((Draft.start fields).setAll entries).commit fresh source).after site.slot)
      told (Fields.keys entries) := by
  refine Draft.commit_inOrder (.mapping hf) hd (Draft.went_setAll _ entries) ?_ ht
  rintro k v o - rfl
  exact Site.set_nothing

namespace Value

/-- The keys that a part of a raw command lists: those of its branches, or of the mapping that it
merges in. -/
inductive Lists : Value → List Key → Prop where
  | branches {v : Value} {fields : List (Key × Value)} (h : v.Branches fields) :
      Lists v (Fields.keys fields)
  | merged {v argument : Value} {kind : Operation} {extensions : List (Key × Value)}
      (operation : v.StandsFor (.str kind.name) argument)
      (merging : kind = .merge ∨ kind = .defaults) (given : argument.fields? = some extensions) :
      Lists v (Fields.keys extensions)

end Value

namespace Operation

variable {call : Functions} {fresh : Ident} {site : Site} {kind : Operation} {v : Value} {o : Outcome}

/-- An operation tells a tree only as it merges a mapping in, and no tree within that. -/
theorem inOrder_of_apply {told : List (Key × Delta)} (hk : v.keyed = true)
    (h : kind.apply call fresh site v = .ok o) (ht : o.delta = .tree told) :
    (kind = .merge ∨ kind = .defaults) ∧ ∃ extensions, v.fields? = some extensions ∧
      Slot.InOrder site.slot (o.after site.slot) told (Fields.keys extensions) := by
  cases did_of_apply h with
  | set | invoke => exact absurd ht (Site.set_leaf _ _ [] told)
  | push | unshift => cases ht
  | @merge _ extensions target he found =>
    cases target with
    | none => cases ht
    | some fields =>
      exact ⟨Or.inl rfl, extensions, he,
        Draft.setAll_inOrder found (Value.distinct_of_keyed hk he) ht⟩
  | @defaults _ extensions target he found =>
    cases target with
    | none => cases ht
    | some fields =>
      have hd : Fields.Distinct (lacking (some fields) extensions) :=
        Fields.distinct_filter (Value.distinct_of_keyed hk he)
      refine ⟨Or.inr rfl, extensions, he, ?_⟩
      refine (Draft.setAll_inOrder found hd ht).of_filter fun k w _ hp => ?_
      have there : (Slot.child site.slot k).isSome = true := by
        rw [Slot.Opens.child (.mapping found) k, ← Fields.has]
        simpa using hp
      obtain ⟨u, hu⟩ := Option.isSome_iff_exists.1 there
      -- a key that is there is none of those that are set
      have out : Fields.get? k (lacking (some fields) extensions) = none := by
        rw [Site.lacking_eq found]
        exact Slot.get?_lacks hu extensions
      obtain ⟨-, kept⟩ := Draft.commit_at fresh site.current (.mapping found) hd (Draft.went_setAll _ _)
      exact ⟨there, (kept k out).1⟩

/-- Below the changes that an operation tells there is no tree. -/
theorem not_tree_below (hk : v.keyed = true) (h : kind.apply call fresh site v = .ok o) (k : Key)
    (p : List Key) (told : List (Key × Delta)) : o.delta.at_ (k :: p) ≠ .tree told := by
  have below : ∀ target entries, Fields.Distinct entries → site.Targets target →
      (site.extend fresh target entries).delta.at_ (k :: p) ≠ .tree told := by
    intro target entries hd found
    cases target with
    | none => simp [Site.extend, Outcome.replaced]
    | some fields =>
      obtain ⟨took, kept⟩ :=
        Draft.commit_at fresh site.current (.mapping found) hd (Draft.went_setAll _ entries)
      rw [Site.extend, Delta.at_cons]
      cases hl : Fields.get? k entries with
      | none => rw [(kept k hl).2]; simp
      | some w =>
        obtain ⟨l, hm, hs⟩ := Fields.exists_mem_of_get? hl
        obtain ⟨q, rfl, -, hq⟩ := took l w hm
        rw [Delta.child_congr hs, hq]
        exact Site.set_leaf _ _ p told
  cases did_of_apply h with
  | set | invoke => exact Site.set_leaf _ _ _ told
  | push | unshift => simp [Outcome.replaced]
  | merge he found => exact below _ _ (Value.distinct_of_keyed hk he) found
  | defaults he found => exact below _ _ (Fields.distinct_filter (Value.distinct_of_keyed hk he)) found

end Operation

namespace Command

variable {call : Functions} {run : Nat}

/-- A command that leaves its place as it was has nothing to tell. -/
theorem nothing_of_after {c : Command} {place : List Key} {trail : Trail} {site : Site} {o : Outcome}
    (hk : c.keyed = true) (h : c.apply call run place trail site = .ok o)
    (hs : o.after site.slot = site.slot) : o.delta = .nothing :=
  nothing_of_idle hk h fun p _ _ _ => by rw [hs]

/-- Where what a command tells holds a tree, its part there lists the keys, in the order that they have
afterwards. -/
theorem inOrder_of_apply {p : List Key} :
    ∀ {v : Value} {c : Command} {place : List Key} {trail trail' : Trail} {site : Site}
      {o : Outcome} {told : List (Key × Delta)}, c.keyed = true → parse trail v = .ok c →
      c.apply call run place trail' site = .ok o → o.delta.at_ p = .tree told →
      ∃ q part listed, Delta.SamePath p q ∧ v.Reaches q part ∧ part.Lists listed ∧
        Slot.InOrder (Slot.at_ site.slot p) (Slot.at_ (o.after site.slot) p) told listed := by
  induction p with
  | nil =>
    intro v c place trail trail' site o told hk hp h ht
    cases c with
    | unknown => cases h
    | op kind argument =>
      obtain ⟨merging, extensions, given, order⟩ := Operation.inOrder_of_apply hk h ht
      exact ⟨[], v, _, .nil, .here v, .merged (standsFor_of_parse hp) merging given, order⟩
    | descend children =>
      obtain ⟨hd, hall⟩ := keyed_descend.1 hk
      obtain ⟨fields, hb, hf⟩ := branches_of_parse hp
      obtain ⟨before, last, source, hopen, hl, rfl⟩ := descend_ok h
      have order := Draft.commit_inOrder hopen hd (went_applyAll hl)
        (fun k c q hm => nothing_of_after (hall k c hm)) ht
      exact ⟨[], v, _, .nil, .here v, .branches hb, Parses.keys hf ▸ order⟩
  | cons k p ih =>
    intro v c place trail trail' site o told hk hp h ht
    cases c with
    | unknown => cases h
    | op kind argument => exact absurd ht (Operation.not_tree_below hk h k p told)
    | descend children =>
      obtain ⟨hd, hall⟩ := keyed_descend.1 hk
      obtain ⟨fields, hb, hf⟩ := branches_of_parse hp
      obtain ⟨took, kept⟩ := descend_at hd h
      rw [Delta.at_cons] at ht
      cases hc : Fields.get? k children with
      | none =>
        rw [(kept k hc).2, Delta.at_nothing] at ht
        cases ht
      | some c =>
        obtain ⟨l, hm, hs⟩ := Fields.exists_mem_of_get? hc
        obtain ⟨q, hq, hafter, hdelta⟩ := took l c hm
        obtain ⟨⟨l', w⟩, hw, e, hparse⟩ := exists_of_forall₂ hf.flip hm
        cases e
        rw [Delta.child_congr hs, hdelta] at ht
        obtain ⟨path, part, listed, same, reaches, lists, order⟩ := ih (hall l c hm) hparse hq ht
        rw [← hafter, ← Slot.child_congr hs, ← Slot.child_congr hs] at order
        exact ⟨l :: path, part, listed, .cons hs same, .down hb hw reaches, lists, order⟩

end Command

/-- After an update keys stand in the order in which they came. Wherever its delta holds a tree, the
result holds a mapping with the keys of the source in their order, followed by the new ones as the
command lists them there (or the mapping that it merges in), and the tree has the keys that have
changed, as they are listed. -/
theorem Value.update_order {call : Functions} {run : Nat} {source commands : Value} {o : Outcome}
    (hc : commands.keyed = true) (h : Value.update call run source commands = .ok o) {p : List Key}
    {told : List (Key × Delta)} (ht : o.delta.at_ p = .tree told) :
    ∃ q part listed, Delta.SamePath p q ∧ commands.Reaches q part ∧ part.Lists listed ∧
      (∃ id fields, o.value.lookup? p = some (.map id fields) ∧
        Fields.keys fields = (source.lookup? p).keys ++ listed.filter fun k =>
          (source.lookup? (p ++ [k])).isNone && (o.value.lookup? (p ++ [k])).isSome) ∧
      Fields.keys told = listed.filter fun k =>
        o.value.lookup? (p ++ [k]) ≠ source.lookup? (p ++ [k]) := by
  obtain ⟨c, hp, ha⟩ := update_ok h
  obtain ⟨q, part, listed, same, reaches, lists, order⟩ := Command.inOrder_of_apply
    (Command.keyed_of_parse hc hp) hp (Command.apply_of_applyRoot ha) ht
  rw [Command.applyRoot_after ha] at order
  have child : ∀ (v : Value) (k : Key), v.lookup? (p ++ [k]) = Slot.child (v.lookup? p) k :=
    fun v k => Slot.at_append _ _ _
  simp only [child]
  exact ⟨q, part, listed, same, reaches, lists, order.keys, order.told⟩

/-- A mapping is merged into one that holds some of its keys, after a descent through null and before a
new key. -/
theorem Value.update_order_of_merged :
    let source : Value := .map ⟨0, []⟩
      [(.str "m", .map ⟨0, [.str "m"]⟩ [(.str "z", .null), (.str "a", .null)]), (.str "n", .null)]
    let extensions : List (Key × Value) :=
      [(.str "b", .null), (.str "a", .bool true), (.str "z", .null), (.str "c", .null)]
    let merge : Value := .map ⟨1, [.int 0]⟩ [(.str "$merge", .map ⟨1, [.int 1]⟩ extensions)]
    let commands : Value := .map ⟨1, []⟩
      [(.str "n", .map ⟨1, [.int 2]⟩ [(.str "q", .op (.str "$set") .null)]),
        (.str "m", merge), (.str "k", .op (.str "$set") .null)]
    ∃ o told, commands.keyed = true ∧ Value.update (fun _ _ v => .ok v) 2 source commands = .ok o ∧
      o.delta.at_ [.str "m"] = .tree told ∧
      ∃ q part listed, Delta.SamePath [.str "m"] q ∧ commands.Reaches q part ∧ part.Lists listed ∧
        (∃ id fields, o.value.lookup? [.str "m"] = some (.map id fields) ∧
          Fields.keys fields = [.str "z", .str "a"] ++ listed.filter fun k =>
            (source.lookup? [.str "m", k]).isNone && (o.value.lookup? [.str "m", k]).isSome) ∧
        Fields.keys told = listed.filter fun k =>
          o.value.lookup? [.str "m", k] ≠ source.lookup? [.str "m", k] := by
  intro source extensions merge commands
  have hk : commands.keyed = true := by decide
  have ho : ∃ o, Value.update (fun _ _ v => .ok v) 2 source commands = .ok o ∧
      o.delta.at_ [.str "m"] = .tree [(.str "b", .node (.of .add .absent .null)),
        (.str "a", .node (.of .change .null (.bool true))),
        (.str "c", .node (.of .add .absent .null))] := ⟨_, rfl, rfl⟩
  obtain ⟨o, ho, ht⟩ := ho
  exact ⟨o, _, hk, ho, ht, Value.update_order hk ho ht⟩

end TreeDelta
