import TreeDelta.Proofs.Update.Along
import TreeDelta.Proofs.Update.Normal
/-!
# Setting at a path

A place and `$set` at the path to it obey the laws of a lens. What was set stands there (`settled`, since a
value that is the same as the old one is not written), setting what stands there gives back the very source,
of two values set one after the other the second counts, and all places apart from the path hold what they
held. The second law is `Command.Kept` once more; the third goes up the path level by level
(`Command.Does.set_set`), since one of the two runs may leave a level as it was where the other makes a new
one.
-/

namespace TreeDelta

/-- Values that are the same are equal whichever is asked. -/
theorem Value.equals_of_same {u v : Value} (hu : u.regular = true) (hv : v.regular = true)
    (h : u.same v = true) : u.Equals v :=
  ⟨equalItem_of_same h, equalItem_of_same (same_symm hu hv h)⟩

namespace Slot

theorem Regular.at_ {path : List Key} : ∀ {slot : Slot}, slot.Regular → Slot.Regular (slot.at_ path) := by
  induction path with
  | nil => exact id
  | cons k path ih => exact fun h => ih (h.child k)

theorem Regular.distinct {slot : Slot} (h : slot.Regular) : slot.Distinct := by
  intro fields ho
  cases ho with
  | absent => exact List.nodup_nil
  | mapping hf =>
    cases slot with
    | none => cases hf
    | some v =>
      cases v with
      | map id entries => cases hf; exact (Value.regular_map.1 (h _ rfl)).1
      | _ => cases hf

end Slot

/-! ## What setting leaves -/

/-- Setting leaves the value, or what was there if that is the same. -/
theorem settled_cases {v : Value} (hv : v ≠ .absent) (slot : Slot) :
    settled v slot = some v ∨ ∃ x, slot = some x ∧ v.same x = true ∧ settled v slot = some x := by
  unfold settled
  split
  · rename_i hs
    cases slot with
    | none => exact absurd (Value.eq_absent_of_same hs) hv
    | some x => exact Or.inr ⟨x, rfl, hs, rfl⟩
  · exact Or.inl rfl

theorem exists_settled {v : Value} (hv : v ≠ .absent) (slot : Slot) : ∃ x, settled v slot = some x := by
  rcases settled_cases hv slot with h | ⟨x, -, -, h⟩
  · exact ⟨v, h⟩
  · exact ⟨x, h⟩

theorem regular_settled {v : Value} {slot : Slot} (hv : v.regular = true) (h : slot.Regular) :
    Slot.Regular (settled v slot) := by
  unfold settled
  split
  · exact h
  · intro w hw
    cases hw
    exact hv

/-- What setting one value leaves at two places is the same. -/
theorem same_of_settled {w x y : Value} {s t : Slot} (hw : w.regular = true) (hs : s.Regular)
    (hx : settled w s = some x) (hy : settled w t = some y) : x.same y = true := by
  have hwx : w.same x = true := by simpa [hx] using same_settled w s
  have hwy : w.same y = true := by simpa [hy] using same_settled w t
  exact Value.same_trans (Value.same_symm hw (regular_settled hw hs x hx) hwx) hwy

namespace Command

variable {call : Functions} {path : List Key} {slot : Slot} {o q r : Outcome} {v w : Value}

theorem Does.after_set (h : (op .set v).Does call slot o) : o.after slot = settled v slot := by
  obtain ⟨run, place, trail, key, h⟩ := h
  cases h
  exact Site.after_set ⟨key, slot⟩ v

theorem can_set (v : Value) (slot : Slot) : (op .set v).Can call slot := fun _ _ _ _ => ⟨_, rfl⟩

theorem Does.at_set (h : (along path (.op .set v)).Does call slot o) :
    Slot.at_ (o.after slot) path = settled v (slot.at_ path) := by
  obtain ⟨p, hp, e⟩ := h.at_end
  rw [e, hp.after_set]

/-- Setting below a place makes it a mapping, if it is not one. -/
theorem Does.exists_map_after {k : Key} (h : (along (k :: path) (.op .set v)).Does call slot o)
    (hv : v ≠ .absent) : ∃ id fields, o.after slot = some (.map id fields) := by
  obtain ⟨x, hx⟩ := exists_settled hv (slot.at_ (k :: path))
  exact Slot.exists_map_of_at (h.at_set.trans hx)

theorem Does.distinct_after (h : (along path (.op .set v)).Does call slot o) (hv : v.regular = true)
    (hs : slot.Regular) : Slot.Distinct (o.after slot) := by
  cases path with
  | nil =>
    rw [h.after_set]
    exact (regular_settled hv hs).distinct
  | cons k path => exact (h.opens_after (Fields.distinct_single k _) hs.distinct).2

/-- Of two values set one after the other the second counts: it leaves what it would have left without the
first, in the sense of equality. -/
theorem Does.set_set (hv : v.regular = true) (hw : w.regular = true) (present : w ≠ .absent)
    (hs : slot.Regular) (h : (along path (.op .set v)).Does call slot o)
    (h₂ : (along path (.op .set w)).Does call (o.after slot) q)
    (h₁ : (along path (.op .set w)).Does call slot r) :
    Slot.Equals (q.after (o.after slot)) (r.after slot) := by
  induction path generalizing slot o q r with
  | nil =>
    have ho : o.after slot = settled v slot := h.after_set
    have hreg := regular_settled hv hs
    rw [h₂.after_set, h₁.after_set, ho]
    obtain ⟨x, hx⟩ := exists_settled present (settled v slot)
    obtain ⟨y, hy⟩ := exists_settled present slot
    rw [hx, hy]
    exact .some (Value.equals_of_same (regular_settled hw hreg x hx) (regular_settled hw hs y hy)
      (same_of_settled hw hreg hx hy))
  | cons k path ih =>
    have hd := h.distinct_after hv hs
    -- both runs of the second value end in a mapping that holds each key once
    obtain ⟨i, fs, hfs⟩ := h₂.exists_map_after present
    obtain ⟨j, gs, hgs⟩ := h₁.exists_map_after present
    have hdf : Fields.Distinct fs :=
      (h₂.opens_after (Fields.distinct_single k _) hd).2 fs (hfs ▸ .mapping rfl)
    have hdg : Fields.Distinct gs := (h₁.distinct_after hw hs) gs (hgs ▸ .mapping rfl)
    obtain ⟨⟨o', ho', e⟩, other⟩ := h.single
    obtain ⟨⟨q', hq', e₂⟩, other₂⟩ := h₂.single
    obtain ⟨⟨r', hr', e₁⟩, other₁⟩ := h₁.single
    rw [e] at hq'
    have below : ∀ l, Slot.Equals (Slot.child (q.after (o.after slot)) l) (Slot.child (r.after slot) l) := by
      intro l
      cases hl : l.same k with
      | true =>
        rw [Slot.child_congr hl, Slot.child_congr hl, e₂, e₁, e]
        exact ih (hs.child k) ho' hq' hr'
      | false =>
        rw [other₂ l hl, other₁ l hl, other l hl]
        exact Slot.Equals.refl _
    rw [hfs, hgs] at below ⊢
    exact .some (Value.equals_map hdf hdg below)

/-- What stands at a path is as setting it there wants it. -/
theorem kept_set {x : Value} (h : slot.at_ path = some x) : Kept (along path (.op .set x)) slot := by
  induction path generalizing slot with
  | nil =>
    have h : slot = some x := h
    exact .set (by rw [h]; exact Value.same_self x)
  | cons k path ih =>
    cases Slot.openTo_of_at h with
    | down opens rest =>
      refine .descend opens fun l c hm => ?_
      cases List.mem_singleton.1 hm
      exact ih h

end Command

/-! ## Updates -/

namespace Value

variable {call : Functions} {run : Nat} {source : Value} {path : List Key} {v : Value} {o : Outcome}

theorem shortcut_of_keys {p argument : Value} {kind : Operation} (h : Value.toKeys? p.asPath = some path) :
    Value.shortcut call run source p kind argument = Value.updateAt call run source path kind argument := by
  rw [Value.shortcut, Command.nestAt, h]
  rfl

theorem keys_of_shortcut {p argument : Value} {kind : Operation}
    (h : Value.shortcut call run source p kind argument = .ok o) :
    ∃ path, Value.toKeys? p.asPath = some path := by
  cases hp : Value.toKeys? p.asPath with
  | some path => exact ⟨path, rfl⟩
  | none => rw [Value.shortcut, Command.nestAt, hp] at h; cases h

/-- Below a root that is null nothing is set. -/
theorem present_of_updateAt {kind : Operation}
    (h : Value.updateAt call run source path kind v = .ok o) (hp : path ≠ []) :
    source.isAbsent = false ∧ o.value.isAbsent = false := by
  rw [updateAt_eq] at h
  cases path with
  | nil => exact absurd rfl hp
  | cons k path =>
    refine ⟨?_, Command.present_of_applyRoot h⟩
    by_contra hnull
    exact (Command.applyRoot_iff.1 h).2 (by simpa using hnull) _ rfl

/-- At the end of an open path anything can be set. -/
theorem exists_updateAt_set (hopen : Slot.OpenTo (some source) path)
    (hroot : path ≠ [] → source.isAbsent = false) (w : Value) :
    ∃ r, Value.updateAt call run source path .set w = .ok r := by
  have hcan : (Command.op .set w).Can call (Slot.at_ (some source) path) := Command.can_set w _
  obtain ⟨r, hr⟩ := Command.can_along hopen hcan run [] [] rootKey
  refine ⟨r, ?_⟩
  rw [updateAt_eq]
  cases path with
  | nil => exact hr
  | cons k path => rw [Command.applyRoot_of_present (hroot (by simp))]; exact hr

theorem does_of_updateAt (h : Value.updateAt call run source path .set v = .ok o) :
    (Command.along path (.op .set v)).Does call (some source) o ∧ o.after (some source) = some o.value := by
  rw [updateAt_eq] at h
  exact ⟨⟨run, [], [], rootKey, Command.apply_of_applyRoot h⟩, Command.applyRoot_after h⟩

/-- Setting what stands at a path gives back the very source. -/
theorem updateAt_set_found {x : Value} (h : source.lookup? path = some x) :
    Value.updateAt call run source path .set x = .ok (.unchanged source) := by
  obtain ⟨u, hu⟩ := (Command.kept_set h).idle call run [] [] rootKey
  have hr : (Command.along path (.op .set x)).applyRoot call run source = .ok ⟨u, .nothing⟩ := by
    cases path with
    | nil => exact hu
    | cons k path =>
      obtain ⟨id, fields, hs⟩ := Slot.exists_map_of_at h
      cases hs
      exact hu
  obtain rfl : u = source := Command.applyRoot_unchanged hr rfl
  rw [updateAt_eq, hr]
  rfl

/-- Setting at a path that a value names is a lens. If setting `v` succeeds, then `v` stands at the path, or
the old value if that is the same. Setting what stands at the path in the source gives back the very source.
Setting `w` in the result and setting it in the source succeed, with equal results that hold the same at the
path. Every place apart from the path holds what it held in the source. -/
theorem set_shortcut_lens {p : Value} (hs : source.regular = true) (hv : v.regular = true)
    (present : v ≠ .absent) (h : Value.shortcut call run source p .set v = .ok o) :
    ∃ path, Value.toKeys? p.asPath = some path ∧
      (o.value.lookup? path = some v ∨
        ∃ x, source.lookup? path = some x ∧ v.same x = true ∧ o.value.lookup? path = some x) ∧
      (∀ again x, source.lookup? path = some x →
        Value.shortcut call again source p .set x = .ok (.unchanged source)) ∧
      (∀ again direct w, w.regular = true → w ≠ .absent →
        ∃ q r x y, Value.shortcut call again o.value p .set w = .ok q ∧
          Value.shortcut call direct source p .set w = .ok r ∧ q.value.Equals r.value ∧
          q.value.lookup? path = some x ∧ r.value.lookup? path = some y ∧ x.same y = true) ∧
      ∀ q, Key.Apart path q → o.value.lookup? q = source.lookup? q := by
  obtain ⟨path, hp⟩ := keys_of_shortcut h
  simp only [shortcut_of_keys hp] at h ⊢
  obtain ⟨hdoes, hafter⟩ := does_of_updateAt h
  have hreg : Slot.Regular (some source) := by rintro _ ⟨⟩; exact hs
  have hat : o.value.lookup? path = settled v (source.lookup? path) := by
    rw [Value.lookup?, ← hafter]
    exact hdoes.at_set
  refine ⟨path, hp, ?_, fun again x hx => updateAt_set_found hx, ?_, ?_⟩
  · rw [hat]
    exact settled_cases present _
  · intro again direct w hw presentw
    have hopen : Slot.OpenTo (some o.value) path := hafter ▸ hdoes.openTo_after
    obtain ⟨q, hq⟩ := @exists_updateAt_set call again _ _ hopen (fun hne => (present_of_updateAt h hne).2) w
    obtain ⟨r, hr⟩ :=
      @exists_updateAt_set call direct _ _ hdoes.openTo (fun hne => (present_of_updateAt h hne).1) w
    obtain ⟨hdq, hqafter⟩ := does_of_updateAt hq
    obtain ⟨hdr, hrafter⟩ := does_of_updateAt hr
    obtain ⟨x, hx⟩ := exists_settled presentw (o.value.lookup? path)
    obtain ⟨y, hy⟩ := exists_settled presentw (source.lookup? path)
    have hregat : Slot.Regular (o.value.lookup? path) := hat ▸ regular_settled hv hreg.at_
    refine ⟨q, r, x, y, hq, hr, ?_, ?_, ?_, same_of_settled hw hregat hx hy⟩
    · have hequal := Command.Does.set_set hv hw presentw hreg hdoes (hafter.symm ▸ hdq) hdr
      rw [hafter, hqafter, hrafter] at hequal
      cases hequal with
      | some he => exact he
    · rw [Value.lookup?, ← hqafter, hdq.at_set]
      exact hx
    · rw [Value.lookup?, ← hrafter, hdr.at_set]
      exact hy
  · intro q hq
    rw [Value.lookup?, ← hafter]
    exact hdoes.apart_along hq

/-- A key that is spelled like an operation is set below null, first to one and then to the double one: the
second run finds the whole number there and leaves it, where a single run writes the double. -/
theorem set_shortcut_lens_of_operation_key :
    let source : Value := .map ⟨0, []⟩ [(.str "a", .null), (.str "b", .list ⟨0, [.str "b"]⟩ [])]
    let path : List Key := [.str "a", .str "$set"]
    let p : Value := .list ⟨1, []⟩ [.str "a", .str "$set"]
    let one : Value := .float (.finite false ⟨1023 * fractionCount, by decide⟩)
    let set (run : Nat) (source v : Value) : Except Fault Outcome :=
      Value.shortcut (fun _ _ v => .ok v) run source p .set v
    ∃ o, source.regular = true ∧ (int 1).regular = true ∧ int 1 ≠ .absent ∧ set 2 source (.int 1) = .ok o ∧
      o.value.lookup? path = some (.int 1) ∧
      o.value.lookup? [.str "b"] = source.lookup? [.str "b"] ∧
      ∃ q r x y, set 3 o.value one = .ok q ∧ set 4 source one = .ok r ∧ q.value.Equals r.value ∧
        q.value.lookup? path = some x ∧ r.value.lookup? path = some y ∧ x.same y = true := by
  intro source path p one set
  have hs : source.regular = true := by decide
  have hv : (int 1).regular = true := rfl
  obtain ⟨o, ho⟩ : ∃ o, set 2 source (.int 1) = .ok o := ⟨_, rfl⟩
  obtain ⟨path', hp, hat, -, twice, apart⟩ := set_shortcut_lens hs hv nofun ho
  obtain rfl : path' = path := Option.some.inj (hp.symm.trans rfl)
  refine ⟨o, hs, hv, nofun, ho, ?_, apart [.str "b"] (by decide), twice 3 4 one rfl nofun⟩
  rcases hat with h | ⟨x, hx, -⟩
  · exact h
  · cases hx

end Value

end TreeDelta
