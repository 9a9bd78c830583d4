import TreeDelta.Proofs.Command.Raw
/-!
# When an update fails

A part of a command fails on what stands at its path in the source, whatever the other branches
have done before: `Command.Rejects` says on what. `Command.error_apply` finds such a part behind
every failure and `Command.fits_of_apply` excludes it behind every success;
`Value.update_fails_iff` is the two for whole updates, with the root, which is not descended into
where it is null.
-/

namespace TreeDelta

/-- Something stands there and it is no mapping: nothing can be merged into it and there is no way
down. -/
def Value.Closed (v : Value) : Prop := v.isAbsent = false ∧ v.fields? = none

/-- The operation with its argument cannot be applied to what it finds. -/
def Operation.Unfit (argument found : Value) : Operation → Prop
  | .set => False
  | .push | .unshift => found.sequence? = none
  | .merge | .defaults => argument.fields? = none ∨ found.Closed
  | .invoke => ∀ id, argument ≠ .fn id

namespace Command

/-- The command fails on the value, whatever its children do. -/
def Rejects (found : Value) : Command → Prop
  | op kind argument => kind.Unfit argument found
  | unknown _ _ => True
  | descend _ => found.Closed

/-- Some part of the command does not fit what stands at its path in the source. -/
inductive Misfit (c : Command) (source : Value) : Prop where
  | root {children : List (Key × Command)} (descends : c = descend children)
      (found : source.fields? = none)
  | below {p : List Key} {children : List (Key × Command)} (part : c.Holds p (descend children))
      (deeper : p ≠ []) (found : (source.at_ p).Closed)
  | operation {p : List Key} {kind : Operation} {argument : Value}
      (part : c.Holds p (op kind argument)) (found : kind.Unfit argument (source.at_ p))

end Command

/-! ## Single operations -/

theorem mappingOf_error {kind : Operation} {role : Role} {key : Key} {v : Value} {f : Fault}
    (h : mappingOf kind role key v = .error f) :
    (∃ problem, f = .command problem) ∧ v.fields? = none := by
  unfold mappingOf at h
  split at h
  · cases h
  · rename_i e
    cases h
    exact ⟨⟨_, rfl⟩, e⟩

namespace Site

variable {site : Site} {kind : Operation} {f : Fault}

theorem sequenceAt_error (h : site.sequenceAt kind = .error f) :
    (∃ problem, f = .command problem) ∧ site.current.sequence? = none := by
  unfold sequenceAt at h
  split at h
  · cases h
  · rename_i e
    cases h
    exact ⟨⟨_, rfl⟩, e⟩

theorem targetOf_error (h : site.targetOf kind = .error f) :
    (∃ problem, f = .command problem) ∧ site.current.Closed := by
  unfold targetOf at h
  split at h
  · cases h
  · rename_i ha
    obtain ⟨hf, hn⟩ := mappingOf_error (map_eq_error.1 h)
    exact ⟨hf, by simpa using ha, hn⟩

/-- What merging and filling in need: entries as the argument, and a mapping, null or nothing there. -/
theorem mappings_error {v : Value}
    {lay : List (Key × Value) → Option (List (Key × Value)) → Outcome}
    (h : (do
      let extensions ← mappingOf kind .argument site.key v
      let target ← site.targetOf kind
      .ok (lay extensions target)) = .error f) :
    (∃ problem, f = .command problem) ∧ (v.fields? = none ∨ site.current.Closed) := by
  rcases bind_eq_error.1 h with hm | ⟨extensions, -, h⟩
  · obtain ⟨hf, hn⟩ := mappingOf_error hm
    exact ⟨hf, Or.inl hn⟩
  · rcases bind_eq_error.1 h with ht | ⟨target, -, h⟩
    · obtain ⟨hf, hc⟩ := targetOf_error ht
      exact ⟨hf, Or.inr hc⟩
    · cases h

theorem Targets.not_closed {target : Option (List (Key × Value))} (h : site.Targets target) :
    ¬ site.current.Closed := by
  rintro ⟨ha, hn⟩
  cases target with
  | none =>
    have h : site.current.isAbsent = true := h
    rw [h] at ha
    cases ha
  | some fields =>
    have h : site.current.fields? = some fields := h
    rw [h] at hn
    cases hn

end Site

/-- An operation that fails does not fit what it finds, unless a function refuses its argument. -/
theorem Operation.error_apply {call : Functions} {fresh : Ident} {site : Site} {kind : Operation}
    {v : Value} {f : Fault}
    (answers : ∀ id, kind = .invoke → v = .fn id → ∃ made, call id fresh site.current = .ok made)
    (h : kind.apply call fresh site v = .error f) :
    (∃ problem, f = .command problem) ∧ kind.Unfit v site.current := by
  cases kind with
  | set => cases h
  | push =>
    rw [Operation.apply, Site.push, bind_eq_error] at h
    rcases h with hs | ⟨items, -, h⟩
    · exact Site.sequenceAt_error hs
    · cases h
  | unshift =>
    rw [Operation.apply, Site.unshift, bind_eq_error] at h
    rcases h with hs | ⟨items, -, h⟩
    · exact Site.sequenceAt_error hs
    · cases h
  | merge =>
    rw [Operation.apply, Site.merge] at h
    exact Site.mappings_error h
  | defaults =>
    rw [Operation.apply, Site.defaults] at h
    exact Site.mappings_error h
  | invoke =>
    simp only [Operation.apply, Site.invoke] at h
    split at h
    · rename_i id
      obtain ⟨made, hm⟩ := answers id rfl rfl
      rw [hm] at h
      cases h
    · rename_i hn
      cases h
      exact ⟨⟨_, rfl⟩, hn⟩

/-- An operation that succeeds fits what it finds. -/
theorem Operation.fits_of_apply {call : Functions} {fresh : Ident} {site : Site} {kind : Operation}
    {v : Value} {o : Outcome} (h : kind.apply call fresh site v = .ok o) :
    ¬ kind.Unfit v site.current := by
  intro hu
  cases did_of_apply h with
  | set => exact hu
  | push found | unshift found =>
    have hu : site.current.sequence? = none := hu
    rw [hu] at found
    cases found
  | merge given found | defaults given found =>
    rcases hu with hn | hc
    · rw [hn] at given
      cases given
    · exact found.not_closed hc
  | invoke called => exact hu _ rfl

/-! ## Commands -/

namespace Command

variable {call : Functions} {run : Nat}

/-- All operations of the command are known. -/
def Known (c : Command) : Prop := c.Throughout fun d => ∀ kind argument, d ≠ unknown kind argument

/-- The functions that the command calls answer what stands at their places. -/
def Answered (call : Functions) (run : Nat) (place : List Key) (c : Command) (slot : Slot) : Prop :=
  ∀ p id, c.Holds p (.op .invoke (.fn id)) →
    ∃ made, call id ⟨run, p.reverse ++ place⟩ ((Slot.at_ slot p).getD .absent) = .ok made

theorem Answered.child {place : List Key} {slot : Slot} {children : List (Key × Command)}
    (h : (descend children).Answered call run place slot) {k : Key} {c : Command}
    (hm : (k, c) ∈ children) : c.Answered call run (k :: place) (slot.child k) := by
  intro p id hp
  have := h (k :: p) id (.down hm hp)
  simpa using this

theorem descendInto_error {fresh : Ident} {trail : Trail} {source : Value}
    {through : Draft → Except Fault Draft} {f : Fault}
    (h : descendInto fresh trail source through = .error f) :
    ((∃ problem, f = .command problem) ∧ source.fields? = none) ∨
      ∃ fields, source.fields? = some fields ∧ through (.start fields) = .error f := by
  unfold descendInto at h
  split at h
  · rename_i fields hf
    rcases bind_eq_error.1 h with ht | ⟨last, -, h⟩
    · exact Or.inr ⟨fields, hf, ht⟩
    · cases h
  · rename_i hn
    cases h
    exact Or.inl ⟨⟨_, rfl⟩, hn⟩

/-- A descent fails because there is no way down, or because one of its children fails on what its
key held at first. -/
theorem error_descend {place : List Key} {trail : Trail} {site : Site}
    {children : List (Key × Command)} {f : Fault} (hd : Fields.Distinct children)
    (h : (descend children).apply call run place trail site = .error f) :
    ((∃ problem, f = .command problem) ∧ site.current.Closed) ∨
      ∃ k c, (k, c) ∈ children ∧
        c.apply call run (k :: place) (trail ++ [k.plain]) ⟨k, Slot.child site.slot k⟩ = .error f := by
  simp only [apply] at h
  rcases descendInto_error h with ⟨hf, hn⟩ | ⟨fields, hf, ht⟩
  · refine Or.inl ⟨hf, ?_⟩
    split at hn
    · cases hn
    · rename_i ha
      exact ⟨by simpa using ha, hn⟩
  · have hopen : Slot.Opens site.slot fields := by
      split at hf
      · rename_i ha; cases hf; exact .absent ha
      · exact .mapping hf
    obtain ⟨k, c, hm, he⟩ := applyAll_error hd ht
    have e : Fields.get? k (Draft.start fields).fields = Slot.child site.slot k :=
      (hopen.child k).symm
    rw [Draft.site, e] at he
    exact Or.inr ⟨k, c, hm, he⟩

/-- Behind every failure there is a part of the command that fails on what stood at its path before
the update. -/
theorem error_apply {c : Command} :
    ∀ {place : List Key} {trail : Trail} {site : Site} {f : Fault}, c.keyed = true → c.Known →
      c.Answered call run place site.slot → c.apply call run place trail site = .error f →
      (∃ problem, f = .command problem) ∧
        ∃ p d, c.Holds p d ∧ d.Rejects ((Slot.at_ site.slot p).getD .absent) := by
  induction c using Command.induction with
  | op kind argument =>
    intro place trail site f hk known answered h
    have answers : ∀ id, kind = .invoke → argument = .fn id →
        ∃ made, call id ⟨run, place⟩ site.current = .ok made := by
      rintro id rfl rfl
      exact answered [] id (.here _)
    obtain ⟨hf, hu⟩ := Operation.error_apply answers h
    exact ⟨hf, [], _, .here _, hu⟩
  | unknown kind argument => intro place trail site f _ known; exact absurd rfl (known [] _ (.here _) kind argument)
  | descend children ih =>
    intro place trail site f hk known answered h
    obtain ⟨hd, hall⟩ := keyed_descend.1 hk
    rcases error_descend hd h with ⟨hf, hc⟩ | ⟨k, c, hm, he⟩
    · exact ⟨hf, [], _, .here _, hc⟩
    · obtain ⟨hf, p, d, hp, hr⟩ :=
        ih k c hm (hall k c hm) ((throughout_descend.1 known).2 k c hm) (answered.child hm) he
      exact ⟨hf, k :: p, d, .down hm hp, by simpa using hr⟩

/-- A command that succeeds has no part that fails on what stood at its path before. -/
theorem fits_of_apply {c d : Command} {p : List Key} {place : List Key} {trail : Trail} {site : Site}
    {o : Outcome} (hk : c.keyed = true) (h : c.apply call run place trail site = .ok o)
    (hp : c.Holds p d) : ¬ d.Rejects ((Slot.at_ site.slot p).getD .absent) := by
  obtain ⟨key, trail', q, -, hq, -⟩ := apply_below hp hk h
  cases d with
  | op kind argument => exact Operation.fits_of_apply hq
  | unknown kind argument => cases hq
  | descend children =>
    obtain ⟨fields, -, -, hopen, -⟩ := descend_ok hq
    rintro ⟨ha, hn⟩
    cases hopen with
    | absent h => exact absurd h (by simp [ha])
    | mapping h => exact absurd h (by simp [hn])

theorem Misfit.of_rejects {c d : Command} {p : List Key} {source : Value} (hp : c.Holds p d)
    (hu : ∀ kind argument, d ≠ unknown kind argument) (h : d.Rejects (source.at_ p)) :
    c.Misfit source := by
  cases d with
  | op kind argument => exact .operation hp h
  | unknown kind argument => exact absurd rfl (hu kind argument)
  | descend children =>
    cases hp with
    | here => exact .root rfl h.2
    | down hm hr => exact .below (.down hm hr) (by simp) h

theorem applyRoot_of_fields {source : Value} {c : Command} (h : source.fields?.isSome = true) :
    c.applyRoot call run source = c.apply call run [] [] ⟨rootKey, some source⟩ := by
  have ha : source.isAbsent = false := by cases source <;> first | rfl | cases h
  cases c with
  | op | unknown => rfl
  | descend children => simp [applyRoot, apply, Site.current, ha]

/-- On a whole value, a command of known operations whose functions answer fails exactly if some
part of it does not fit, and always with a fault of the command. -/
theorem applyRoot_cases {c : Command} {source : Value} (hk : c.keyed = true) (known : c.Known)
    (answered : c.Answered call run [] (some source)) :
    ((∃ o, c.applyRoot call run source = .ok o) ∧ ¬ c.Misfit source) ∨
      (∃ problem, c.applyRoot call run source = .error (.command problem)) ∧ c.Misfit source := by
  cases h : c.applyRoot call run source with
  | ok o =>
    refine Or.inl ⟨⟨o, rfl⟩, fun hm => ?_⟩
    obtain ⟨ha, hroot⟩ := applyRoot_iff.1 h
    have fits : ∀ {p d}, c.Holds p d → ¬ d.Rejects (source.at_ p) := by
      intro p d hp
      have := fits_of_apply hk ha hp
      rwa [Slot.getD_at] at this
    cases hm with
    | @root children descends found =>
      by_cases hn : source.isAbsent = true
      · exact hroot hn children descends
      · have closed : source.Closed := ⟨by simpa using hn, found⟩
        rw [descends] at fits
        exact fits (.here _) closed
    | below part deeper found => exact fits part found
    | operation part found => exact fits part found
  | error f =>
    refine Or.inr ?_
    have reject : c.apply call run [] [] ⟨rootKey, some source⟩ = .error f →
        (∃ problem, Except.error f = (.error (.command problem) : Except Fault Outcome)) ∧
          c.Misfit source := by
      intro ha
      obtain ⟨⟨problem, rfl⟩, p, d, hp, hr⟩ := error_apply hk known answered ha
      rw [Slot.getD_at] at hr
      exact ⟨⟨problem, rfl⟩, .of_rejects hp (known p d hp) hr⟩
    cases c with
    | op kind argument => exact reject h
    | unknown kind argument => exact absurd rfl (known [] _ (.here _) kind argument)
    | descend children =>
      cases hs : source.fields? with
      | some fields => exact reject (applyRoot_of_fields (by rw [hs]; rfl) ▸ h)
      | none =>
        simp only [applyRoot, descendInto, hs] at h
        cases h
        exact ⟨⟨_, rfl⟩, .root rfl hs⟩

end Command

/-! ## Updates -/

/-- Whether an update returns does not depend on the order of branches. -/
theorem Value.Reordered.returns_iff {call : Functions} {run : Nat} {source commands others : Value}
    (h : commands.Reordered others) (hk : commands.keyed = true) :
    (∃ o, Value.update call run source commands = .ok o) ↔
      ∃ o, Value.update call run source others = .ok o := by
  constructor
  · rintro ⟨o, ho⟩
    obtain ⟨c, hp, hc⟩ := update_ok ho
    obtain ⟨d, hd, hs⟩ := h.parse hp
    obtain ⟨q, hq, -⟩ := hs.follows_root (Command.keyed_of_parse hk hp) hc
    exact ⟨q, by rw [update_of_parse hd, hq]⟩
  · rintro ⟨q, hq⟩
    obtain ⟨d, hp, hd⟩ := update_ok hq
    obtain ⟨c, hc, hs⟩ := h.symm.parse hp
    obtain ⟨o, ho, -⟩ := hs.follows_root (hs.symm.keyed (Command.keyed_of_parse hk hc)) hd
    exact ⟨o, by rw [update_of_parse hc, ho]⟩

/-- An update by a command of known operations whose functions answer fails exactly if the command
does not parse or some part of it does not fit the source. It then fails with a fault of the
command, and otherwise it returns; and which of the two is the same in every order of branches. -/
theorem Value.update_fails_iff {call : Functions} {run : Nat} {source commands : Value}
    (hk : commands.keyed = true) (hb : commands.branching = true)
    (known : ∀ c, Command.parse [] commands = .ok c → c.Known)
    (answers : ∀ c, Command.parse [] commands = .ok c → ∀ p id, c.Holds p (.op .invoke (.fn id)) →
      ∃ made, call id ⟨run, p.reverse⟩ (source.at_ p) = .ok made) :
    ((∃ problem, Value.update call run source commands = .error (.command problem)) ↔
        (∃ problem, Command.parse [] commands = .error (.command problem)) ∨
          ∃ c, Command.parse [] commands = .ok c ∧ c.Misfit source) ∧
      ((∃ o, Value.update call run source commands = .ok o) ∨
        ∃ problem, Value.update call run source commands = .error (.command problem)) ∧
      ∀ others, commands.Reordered others →
        ((∃ o, Value.update call run source commands = .ok o) ↔
          ∃ o, Value.update call run source others = .ok o) := by
  rw [← and_assoc]
  refine ⟨?_, fun others h => h.returns_iff hk⟩
  cases hp : Command.parse [] commands with
  | error f =>
    obtain ⟨problem, rfl⟩ := Command.parse_error hb hp
    have hu : Value.update call run source commands = .error (.command problem) := by
      rw [Value.update, hp]; rfl
    rw [hu]
    simp
  | ok c =>
    rw [update_of_parse hp]
    have answered : c.Answered call run [] (some source) := by
      intro p id hm
      rw [Slot.getD_at, List.append_nil]
      exact answers c hp p id hm
    rcases Command.applyRoot_cases (Command.keyed_of_parse hk hp) (known c hp) answered with
      ⟨⟨o, ho⟩, hm⟩ | ⟨⟨problem, hu⟩, hm⟩
    · rw [ho]
      simpa using hm
    · rw [hu]
      simpa using hm

/-- A function is called below null; then an empty descent comes to a number, where it fails. -/
theorem Value.update_fails_of_number :
    let source : Value := .map ⟨0, []⟩ [(.str "a", .int 1), (.str "b", .null)]
    let inner : Value := .map ⟨1, [.int 0]⟩ [(.str "x", .op (.str "$invoke") (.fn ⟨2, []⟩))]
    let empty : Value := .descend (.map ⟨1, [.int 1]⟩ [])
    let commands : Value := .map ⟨1, []⟩ [(.str "b", inner), (.str "a", empty)]
    let others : Value := .map ⟨1, []⟩ [(.str "a", empty), (.str "b", inner)]
    let c : Command :=
      .descend [(.str "b", .descend [(.str "x", .op .invoke (.fn ⟨2, []⟩))]), (.str "a", .descend [])]
    let call : Functions := fun _ _ _ => .ok (.int 0)
    commands.keyed = true ∧ commands.branching = true ∧ Command.parse [] commands = .ok c ∧
      c.Known ∧ c.Misfit source ∧ commands.Reordered others ∧
      (∃ problem, Value.update call 3 source commands = .error (.command problem)) ∧
      ¬ ∃ o, Value.update call 3 source others = .ok o := by
  intro source inner empty commands others c call
  have hk : commands.keyed = true := by decide
  have hb : commands.branching = true := by decide
  have hp : Command.parse [] commands = .ok c := rfl
  have known : c.Known := by
    simp only [c, Command.Known, Command.throughout_descend, Fields.forall_cons,
      Command.throughout_op]
    simp
  have misfit : c.Misfit source := by
    have part : c.Holds [.str "a"] (.descend []) := .down (by simp) (.here _)
    exact .below part (by simp) ⟨rfl, rfl⟩
  have reordered : commands.Reordered others := .swap (.map rfl) (.map rfl) (List.Perm.swap _ _ _)
  have same : ∀ {P : Command → Prop}, P c → ∀ d, Command.parse [] commands = .ok d → P d := by
    intro P hc d hd
    cases hp.symm.trans hd
    exact hc
  obtain ⟨fails, -, order⟩ := @Value.update_fails_iff call 3 source commands hk hb (same known)
    (same fun p id _ => ⟨_, rfl⟩)
  obtain ⟨problem, hu⟩ := fails.2 (Or.inr ⟨c, hp, misfit⟩)
  refine ⟨hk, hb, hp, known, misfit, reordered, ⟨problem, hu⟩, fun h => ?_⟩
  obtain ⟨o, ho⟩ := (order others reordered).2 h
  cases hu.symm.trans ho

end TreeDelta
