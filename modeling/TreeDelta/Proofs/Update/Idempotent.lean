import TreeDelta.Proofs.Update.Again
/-!
# Declarative commands are idempotent

Setting a value, merging in a mapping and filling in defaults say what is to stand at a place,
whatever stands there now. `Command.Kept` says that a place already is as such a command wants it.
A run of the command leaves its place so (`kept_of_apply`), and on a place that is so a run changes
nothing (`Kept.idle`); `Value.update_idempotent` is the two in a row.
-/

namespace TreeDelta

/-- The operation says what is to stand at a place, whatever stands there now. -/
def Operation.isDeclarative : Operation → Bool
  | .set | .merge | .defaults => true
  | .push | .unshift | .invoke => false

/-! ## Places that are as a command wants them -/

namespace Command

/-- All operations of the command are declarative. -/
def Declarative (c : Command) : Prop :=
  c.Throughout fun d => ∀ kind argument, d = op kind argument → kind.isDeclarative = true

/-- What stands at the place is already as the command wants it. -/
inductive Kept : Command → Slot → Prop where
  | set {v : Value} {slot : Slot} (same : v.same (slot.getD .absent) = true) : Kept (.op .set v) slot
  | merge {v : Value} {slot : Slot} {extensions fields : List (Key × Value)}
      (given : v.fields? = some extensions) (mapping : (slot.getD .absent).fields? = some fields)
      (same : ∀ k w, (k, w) ∈ extensions → w.same ((slot.child k).getD .absent) = true) :
      Kept (.op .merge v) slot
  | defaults {v : Value} {slot : Slot} {extensions fields : List (Key × Value)}
      (given : v.fields? = some extensions) (mapping : (slot.getD .absent).fields? = some fields)
      (filled : ∀ k w, (k, w) ∈ extensions → slot.child k = none → w.same .absent = true) :
      Kept (.op .defaults v) slot
  | descend {children : List (Key × Command)} {slot : Slot} {fields : List (Key × Value)}
      (opens : slot.Opens fields) (below : ∀ k c, (k, c) ∈ children → Kept c (slot.child k)) :
      Kept (.descend children) slot

end Command

/-! ## A run leaves its place as the command wants it -/

theorem same_settled (v : Value) (slot : Slot) : v.same ((settled v slot).getD .absent) = true := by
  unfold settled
  split
  · rename_i h; exact h
  · exact Value.same_self v

namespace Overlaid

variable {fresh : Ident} {extensions : List (Key × Value)} {before after : Slot}

theorem mapping (h : Overlaid fresh extensions before after) :
    ∃ fields, (after.getD .absent).fields? = some fields := by
  cases h with
  | copied => exact ⟨_, rfl⟩
  | idle mapping => exact Option.isSome_iff_exists.1 mapping
  | laid => exact ⟨_, rfl⟩

/-- What is laid over a place is the same as what then stands there. -/
theorem same (h : Overlaid fresh extensions before after) {k : Key} {v : Value}
    (hk : Fields.get? k extensions = some v) : v.same ((after.child k).getD .absent) = true := by
  cases h with
  | copied absent => rw [Slot.child_map, hk]; exact Value.same_self v
  | idle mapping same => exact same k v hk
  | laid mapping _ written kept => rw [Slot.child_map, written k v hk]; exact same_settled v _

/-- What stood below a key over which nothing is laid still stands there. -/
theorem kept (h : Overlaid fresh extensions before after) {k : Key} {w : Value}
    (hk : Fields.get? k extensions = none) (hw : before.child k = some w) :
    after.child k = some w := by
  cases h with
  | copied absent =>
    rw [Slot.Opens.child (.absent absent)] at hw
    cases hw
  | idle => exact hw
  | laid mapping _ written kept => rw [Slot.child_map, kept k hk, hw]

end Overlaid

theorem Slot.mem_lacks {slot : Slot} {k : Key} {v : Value} {extensions : List (Key × Value)}
    (hm : (k, v) ∈ extensions) (hn : slot.child k = none) : (k, v) ∈ slot.lacks extensions :=
  List.mem_filter.2 ⟨hm, by simp [hn]⟩

namespace Command

variable {call : Functions} {run : Nat}

theorem kept_of_operation {fresh : Ident} {site : Site} {kind : Operation} {v : Value} {o : Outcome}
    (hd : kind.isDeclarative = true) (hv : v.keyed = true)
    (h : kind.apply call fresh site v = .ok o) : Kept (.op kind v) (o.after site.slot) := by
  have he := Operation.effect_of_apply hv h
  generalize site.slot = before at he ⊢
  generalize o.after before = after at he ⊢
  cases he with
  | set => exact .set (same_settled v before)
  | push | unshift | invoke => cases hd
  | merge given laid =>
    obtain ⟨fields, hf⟩ := laid.mapping
    refine .merge given hf fun k w hm => ?_
    exact laid.same (Fields.get?_of_mem (Value.distinct_of_keyed hv given) hm)
  | @defaults _ extensions _ _ given laid =>
    obtain ⟨fields, hf⟩ := laid.mapping
    refine .defaults given hf fun k w hm hn => ?_
    -- a key that is not there now was not there before, so its entry was laid over the place
    cases hb : Slot.child before k with
    | some u => rw [laid.kept (Slot.get?_lacks hb extensions) hb] at hn; cases hn
    | none =>
      have hd := Value.distinct_of_keyed hv given
      have hk : Fields.get? k (Slot.lacks before extensions) = some w :=
        Fields.get?_of_mem (Fields.distinct_filter hd) (Slot.mem_lacks hm hb)
      have hs := laid.same hk
      rwa [hn] at hs

/-- A descent leaves a place into which it can be repeated. -/
theorem exists_opens_after {site : Site} {place : List Key} {trail : Trail}
    {children : List (Key × Command)} {o : Outcome}
    (h : (descend children).apply call run place trail site = .ok o) :
    ∃ fields, Slot.Opens (o.after site.slot) fields := by
  obtain ⟨fields, last, source, hopen, -, rfl⟩ := descend_ok h
  by_cases hn : (last.commit ⟨run, place⟩ source).delta = .nothing
  · rw [after_of_nothing hn]
    exact ⟨fields, hopen⟩
  · rw [Draft.commit_of_told hn]
    exact ⟨last.fields, .mapping rfl⟩

/-- A run of a declarative command leaves its place as the command wants it. -/
theorem kept_of_apply {c : Command} :
    ∀ {place : List Key} {trail : Trail} {site : Site} {o : Outcome}, c.Declarative → c.keyed = true →
      c.apply call run place trail site = .ok o → c.Kept (o.after site.slot) := by
  induction c using Command.induction with
  | op kind argument =>
    intro place trail site o hd hk h
    exact kept_of_operation (throughout_op.1 hd kind argument rfl) hk h
  | unknown kind argument => intro place trail site o _ _ h; cases h
  | descend children ih =>
    intro place trail site o hd hk h
    obtain ⟨hdistinct, hall⟩ := keyed_descend.1 hk
    obtain ⟨fields, hopen⟩ := exists_opens_after h
    refine .descend hopen fun k c hm => ?_
    obtain ⟨p, hp, e, -⟩ := (descend_at hdistinct h).1 k c hm
    rw [e]
    exact ih k c hm ((throughout_descend.1 hd).2 k c hm) (hall k c hm) hp

end Command

/-! ## On such a place a run changes nothing -/

theorem Site.set_same {site : Site} {v : Value} (h : v.same site.current = true) :
    site.set v = .unchanged site.current := by
  unfold Site.set
  rw [if_pos h]

namespace Draft

theorem take_nothing (draft : Draft) (k : Key) (v : Value) : draft.take k ⟨v, .nothing⟩ = draft := rfl

theorem commit_start (fields : List (Key × Value)) (fresh : Ident) (source : Value) :
    (start fields).commit fresh source = .unchanged source := rfl

/-- Entries that are the same as what the draft holds leave it as it is. -/
theorem setAll_same {draft : Draft} {entries : List (Key × Value)}
    (h : ∀ k v, (k, v) ∈ entries → v.same (draft.site k).current = true) :
    draft.setAll entries = draft := by
  induction entries with
  | nil => rfl
  | cons entry rest ih =>
    obtain ⟨k, v⟩ := entry
    obtain ⟨hv, hr⟩ := Fields.forall_cons.1 h
    rw [setAll, Site.set_same hv, Outcome.unchanged, take_nothing]
    exact ih hr

end Draft

theorem Site.extend_same {site : Site} {fresh : Ident} {fields extensions : List (Key × Value)}
    (h : ∀ k v, (k, v) ∈ extensions → v.same ((Fields.get? k fields).getD .absent) = true) :
    site.extend fresh (some fields) extensions = .unchanged site.current := by
  have hd : (Draft.start fields).setAll extensions = Draft.start fields := Draft.setAll_same h
  rw [Site.extend, hd, Draft.commit_start]

namespace Command

variable {call : Functions} {run : Nat}

theorem Kept.idle_operation {kind : Operation} {v : Value} {slot : Slot} (h : Kept (.op kind v) slot)
    (call : Functions) (fresh : Ident) (key : Key) :
    kind.apply call fresh ⟨key, slot⟩ v = .ok (.unchanged (slot.getD .absent)) := by
  cases h with
  | set same =>
    have hs : (Site.mk key slot).set v = .unchanged (slot.getD .absent) := Site.set_same same
    rw [Operation.apply, hs]
  | @merge _ _ extensions fields given mapping same =>
    have ht : (Site.mk key slot).Targets (some fields) := mapping
    have he : (Site.mk key slot).extend fresh (some fields) extensions =
        .unchanged (slot.getD .absent) := by
      refine Site.extend_same fun k w hm => ?_
      rw [← Slot.Opens.child (.mapping mapping) k]
      exact same k w hm
    simp only [Operation.apply, Site.merge, mappingOf_of_fields given, Site.targetOf_of_targets ht]
    exact congrArg Except.ok he
  | @defaults _ _ extensions fields given mapping filled =>
    have ht : (Site.mk key slot).Targets (some fields) := mapping
    have he : (Site.mk key slot).extend fresh (some fields) (lacking (some fields) extensions) =
        .unchanged (slot.getD .absent) := by
      refine Site.extend_same fun k w hm => ?_
      obtain ⟨hm, hl⟩ := List.mem_filter.1 hm
      have hn : Fields.get? k fields = none := by simpa [Fields.has] using hl
      rw [hn]
      exact filled k w hm (by rw [Slot.Opens.child (.mapping mapping), hn])
    simp only [Operation.apply, Site.defaults, mappingOf_of_fields given, Site.targetOf_of_targets ht]
    exact congrArg Except.ok he

/-- Children that tell nothing leave the draft as it is. -/
theorem applyAll_idle {place : List Key} {trail : Trail} {draft : Draft}
    {children : List (Key × Command)}
    (h : ∀ k c, (k, c) ∈ children →
      ∃ v, c.apply call run (k :: place) (trail ++ [k.plain]) (draft.site k) = .ok ⟨v, .nothing⟩) :
    applyAll call run place trail draft children = .ok draft := by
  induction children with
  | nil => rfl
  | cons entry rest ih =>
    obtain ⟨k, c⟩ := entry
    obtain ⟨⟨v, hv⟩, hr⟩ := Fields.forall_cons.1 h
    rw [applyAll, hv]
    exact ih hr

/-- On a place that is as the command wants it, a run of the command tells nothing. -/
theorem Kept.idle {c : Command} {slot : Slot} (h : c.Kept slot) (call : Functions) (run : Nat) :
    ∀ (place : List Key) (trail : Trail) (key : Key),
      ∃ v, c.apply call run place trail ⟨key, slot⟩ = .ok ⟨v, .nothing⟩ := by
  induction h with
  | set same =>
    intro place trail key
    exact ⟨_, Kept.idle_operation (.set same) call ⟨run, place⟩ key⟩
  | merge given mapping same =>
    intro place trail key
    exact ⟨_, Kept.idle_operation (.merge given mapping same) call ⟨run, place⟩ key⟩
  | defaults given mapping filled =>
    intro place trail key
    exact ⟨_, Kept.idle_operation (.defaults given mapping filled) call ⟨run, place⟩ key⟩
  | @descend children slot fields opens below ih =>
    intro place trail key
    have each : ∀ k c, (k, c) ∈ children → ∃ v, c.apply call run (k :: place) (trail ++ [k.plain])
        ((Draft.start fields).site k) = .ok ⟨v, .nothing⟩ := by
      intro k c hm
      obtain ⟨v, hv⟩ := ih k c hm (k :: place) (trail ++ [k.plain]) k
      rw [opens.child] at hv
      exact ⟨v, hv⟩
    obtain ⟨source, hs⟩ :=
      @apply_descend call run place trail ⟨key, slot⟩ children fields _ opens (applyAll_idle each)
    exact ⟨source, hs⟩

end Command

/-! ## Updates -/

/-- What a descent into a value leaves is no null. -/
theorem Command.present_of_applyRoot {call : Functions} {run : Nat} {source : Value}
    {children : List (Key × Command)} {o : Outcome}
    (h : (descend children).applyRoot call run source = .ok o) : o.value.isAbsent = false := by
  simp only [applyRoot] at h
  obtain ⟨fields, last, hf, -, rfl⟩ := descendInto_ok h
  unfold Draft.commit
  split
  · cases source <;> first | rfl | cases hf
  · rfl

/-- Updating the result of a declarative command by the same command again changes nothing: the
result is the very value that was there, and nothing is told. -/
theorem Value.update_idempotent {call : Functions} {run : Nat} {source commands : Value} {o : Outcome}
    (hk : commands.keyed = true)
    (hd : ∀ c, Command.parse [] commands = .ok c → c.Declarative)
    (h : Value.update call run source commands = .ok o) (again : Nat) :
    Value.update call again o.value commands = .ok (.unchanged o.value) := by
  obtain ⟨c, hp, hc⟩ := update_ok h
  have hkept : c.Kept (some o.value) := by
    have hkept := Command.kept_of_apply (hd c hp) (Command.keyed_of_parse hk hp)
      (Command.apply_of_applyRoot hc)
    rwa [Command.applyRoot_after hc] at hkept
  obtain ⟨v, hv⟩ := hkept.idle call again [] [] rootKey
  have hr : c.applyRoot call again o.value = .ok ⟨v, .nothing⟩ := by
    refine Command.applyRoot_iff.2 ⟨hv, fun hnull children e => ?_⟩
    rw [e] at hc
    rw [Command.present_of_applyRoot hc] at hnull
    cases hnull
  have hsame : v = o.value := Command.applyRoot_unchanged hr rfl
  rw [update_of_parse hp, hr, hsame]
  rfl

/-- NaN is set below null, a mapping is merged in where one is, one of two keys being there already,
and where nothing is, and defaults are filled in below a key that is not there. -/
theorem Value.update_idempotent_of_mixed :
    let nan : Value := .nan ⟨1, [.str "n"]⟩
    let entries : Value :=
      .map ⟨1, [.int 0]⟩ [(.str "x", .int 0), (.str "y", .list ⟨1, [.int 1]⟩ [])]
    let source : Value := .map ⟨0, []⟩ [(.str "a", .null),
      (.str "b", .map ⟨0, [.str "b"]⟩ [(.str "x", .int 0)])]
    let commands : Value := .map ⟨1, []⟩
      [(.str "a", .map ⟨1, [.int 2]⟩ [(.str "n", .op (.str "$set") nan)]),
        (.str "b", .op (.str "$merge") entries), (.str "c", .op (.str "$merge") entries),
        (.str "d", .map ⟨1, [.int 3]⟩ [(.str "e", .op (.str "$defaults") entries)])]
    let call : Functions := fun _ _ v => .ok v
    commands.keyed = true ∧ (∀ c, Command.parse [] commands = .ok c → c.Declarative) ∧
      ∃ o, Value.update call 2 source commands = .ok o ∧ o.delta.isNothing = false ∧
        Value.update call 3 o.value commands = .ok (.unchanged o.value) := by
  intro nan entries source commands call
  have hk : commands.keyed = true := by decide
  have hd : ∀ c, Command.parse [] commands = .ok c → c.Declarative := by
    intro c hc
    have hp : Command.parse [] commands = .ok (.descend [
      (.str "a", .descend [(.str "n", .op .set nan)]), (.str "b", .op .merge entries),
      (.str "c", .op .merge entries), (.str "d", .descend [(.str "e", .op .defaults entries)])]) := rfl
    cases hp.symm.trans hc
    simp only [Command.Declarative, Command.throughout_descend, Fields.forall_cons,
      Command.throughout_op]
    simp [Operation.isDeclarative]
  obtain ⟨o, ho, hn⟩ : ∃ o, Value.update call 2 source commands = .ok o ∧ o.delta.isNothing = false :=
    ⟨_, rfl, rfl⟩
  exact ⟨hk, hd, o, ho, hn, Value.update_idempotent hk hd ho 3⟩

end TreeDelta
