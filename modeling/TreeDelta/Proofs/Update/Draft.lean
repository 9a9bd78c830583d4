import TreeDelta.Update.Apply
import TreeDelta.Proofs.Place
import TreeDelta.Proofs.Shape
/-!
# Going through a draft

Both loops of an update, over the children of a descent and over the entries of a mapping that is
merged in, read each key from the draft as it is by then and write the outcome back.
`Draft.Went` is such a run, with what is known of each outcome as a relation, and `Went.spec` is
its invariant: as no key comes twice, every outcome is one on what the key held at the start, and
in the end the key holds what that outcome leaves, whatever came between.
-/

namespace TreeDelta

/-- What a place holds after an outcome there. -/
def Outcome.after (o : Outcome) (slot : Slot) : Slot :=
  if o.delta.isNothing then slot else some o.value

/-- What setting a value leaves: what was there, if that is the same. -/
def settled (v : Value) (slot : Slot) : Slot :=
  if v.same (slot.getD .absent) then slot else some v

theorem Delta.isNothing_iff {d : Delta} : d.isNothing = true ↔ d = .nothing := by
  cases d <;> simp [isNothing]

@[simp] theorem Outcome.after_unchanged (v : Value) (slot : Slot) : (unchanged v).after slot = slot := rfl

@[simp] theorem Outcome.after_replaced (site : Site) (kind : ChangeKind) (v : Value) (slot : Slot) :
    (replaced site kind v).after slot = some v := rfl

theorem Site.after_set (site : Site) (v : Value) :
    (site.set v).after site.slot = settled v site.slot := by
  unfold Site.set settled Site.current
  split <;> rfl

namespace Draft

variable {α : Type}

theorem get?_take_fields (draft : Draft) (k l : Key) (o : Outcome) :
    Fields.get? l (draft.take k o).fields =
      if l.same k then o.after (Fields.get? k draft.fields) else Fields.get? l draft.fields := by
  unfold take Outcome.after
  by_cases hn : o.delta.isNothing = true
  · simp only [hn, if_true]
    split
    · rename_i h; exact Fields.get?_congr h _
    · rfl
  · simp only [hn, Bool.false_eq_true, if_false, Fields.get?_put]

/-- An outcome at one key leaves what the draft holds at another. -/
theorem site_take {k l : Key} (h : k.same l = false) (draft : Draft) (o : Outcome) :
    (draft.take k o).site l = draft.site l := by
  rw [site, get?_take_fields, Key.same_comm, h]
  rfl

theorem get?_take_changes (draft : Draft) (k l : Key) (o : Outcome) :
    Fields.get? l (draft.take k o).changes =
      if l.same k && !o.delta.isNothing then some o.delta else Fields.get? l draft.changes := by
  unfold take
  by_cases hn : o.delta.isNothing = true
  · simp [hn]
  · simp [hn, Fields.get?_put]

/-- The changes gathered so far stand under different keys, and each tells something. -/
structure Tidy (draft : Draft) : Prop where
  distinct : Fields.Distinct draft.changes
  told : ∀ k, Fields.get? k draft.changes ≠ some .nothing

theorem tidy_start (fields : List (Key × Value)) : (start fields).Tidy :=
  ⟨List.nodup_nil, fun _ h => by cases h⟩

theorem Tidy.take {draft : Draft} (h : draft.Tidy) (k : Key) (o : Outcome) : (draft.take k o).Tidy := by
  refine ⟨?_, fun l hl => ?_⟩
  · unfold Draft.take
    split
    · exact h.distinct
    · exact Fields.distinct_put h.distinct
  · rw [get?_take_changes] at hl
    split at hl
    · rename_i hs
      simp only [Option.some.injEq] at hl
      simp [hl, Delta.isNothing] at hs
    · exact h.told l hl

/-- A run through a list of entries: `R k x slot o` says that the entry `x` at the key `k` made
the outcome `o` of what the draft held there when its turn came. -/
inductive Went (R : Key → α → Slot → Outcome → Prop) : Draft → List (Key × α) → Draft → Prop where
  | nil (draft : Draft) : Went R draft [] draft
  | cons {draft last : Draft} {k : Key} {x : α} {rest : List (Key × α)} {o : Outcome}
      (step : R k x (Fields.get? k draft.fields) o) (next : Went R (draft.take k o) rest last) :
      Went R draft ((k, x) :: rest) last

/-- What a draft has come to at a key by an outcome on what it held at first. -/
structure Took (draft last : Draft) (k : Key) (o : Outcome) : Prop where
  fields : Fields.get? k last.fields = o.after (Fields.get? k draft.fields)
  changes : Fields.get? k last.changes =
    if o.delta.isNothing then Fields.get? k draft.changes else some o.delta

/-- The invariant of a run, step by step from the back: every entry acts on what its key held at
the start, and keys without an entry stay as they are. -/
theorem Went.spec {R : Key → α → Slot → Outcome → Prop} {draft last : Draft}
    {entries : List (Key × α)} (h : Went R draft entries last) (hd : Fields.Distinct entries) :
    (∀ k x, (k, x) ∈ entries → ∃ o, R k x (Fields.get? k draft.fields) o ∧
      ∀ l, l.same k = true → Took draft last l o) ∧
    (∀ l, Fields.get? l entries = none → Fields.get? l last.fields = Fields.get? l draft.fields ∧
      Fields.get? l last.changes = Fields.get? l draft.changes) ∧
    (draft.Tidy → last.Tidy) := by
  induction h with
  | nil draft => exact ⟨by simp, fun _ _ => ⟨rfl, rfl⟩, id⟩
  | @cons draft last k x rest o step next ih =>
    obtain ⟨hk, hrest⟩ := Fields.distinct_cons.1 hd
    obtain ⟨ih1, ih2, ih3⟩ := ih hrest
    refine ⟨?_, fun l hl => ?_, fun ht => ih3 (ht.take k o)⟩
    · refine Fields.forall_cons.2 ⟨⟨o, step, fun l hl => ?_⟩, fun m y hm => ?_⟩
      · -- no later entry has this key
        obtain ⟨e1, e2⟩ := ih2 l (Fields.get?_rest_of_same hd hl)
        refine ⟨?_, ?_⟩
        · rw [e1, get?_take_fields, if_pos hl, Fields.get?_congr hl]
        · rw [e2, get?_take_changes]
          by_cases hn : o.delta.isNothing = true <;> simp [hl, hn]
      · -- the first entry has not touched this key
        obtain ⟨p, hp, hl⟩ := ih1 m y hm
        have away : ∀ l : Key, l.same m = true → l.same k = false := fun l hlm => by
          rw [Key.same_comm, Key.same_right hlm]; exact hk m y hm
        have e := get?_take_fields draft k m o
        rw [away m (Key.same_self m)] at e
        simp only [Bool.false_eq_true, if_false] at e
        refine ⟨p, e ▸ hp, fun l hlm => ?_⟩
        obtain ⟨f1, f2⟩ := hl l hlm
        rw [get?_take_fields, away l hlm] at f1
        rw [get?_take_changes, away l hlm] at f2
        simp only [Bool.false_eq_true, if_false, Bool.false_and] at f1 f2
        exact ⟨f1, f2⟩
    · rw [Fields.get?_cons] at hl
      split at hl
      · cases hl
      · rename_i hlk
        obtain ⟨e1, e2⟩ := ih2 l hl
        rw [get?_take_fields] at e1
        rw [get?_take_changes] at e2
        simp only [hlk, Bool.false_eq_true, if_false, Bool.false_and] at e1 e2
        exact ⟨e1, e2⟩

theorem Went.distinct_fields {R : Key → α → Slot → Outcome → Prop} {draft last : Draft}
    {entries : List (Key × α)} (h : Went R draft entries last)
    (hd : Fields.Distinct draft.fields) : Fields.Distinct last.fields := by
  induction h with
  | nil draft => exact hd
  | cons step next ih =>
    refine ih ?_
    unfold take
    split
    · exact hd
    · exact Fields.distinct_put hd

theorem went_setAll (draft : Draft) (entries : List (Key × Value)) :
    Went (fun k v slot o => o = (Site.mk k slot).set v) draft entries (draft.setAll entries) := by
  induction entries generalizing draft with
  | nil => exact .nil draft
  | cons entry rest ih => exact .cons rfl (ih _)

end Draft

/-- A run through the children of a descent: each is applied to what its key holds by then. -/
theorem Command.went_applyAll {call : Functions} {run : Nat} {place : List Key} {trail : Trail}
    {draft last : Draft} {children : List (Key × Command)}
    (h : applyAll call run place trail draft children = .ok last) :
    Draft.Went (fun k c slot o => c.apply call run (k :: place) (trail ++ [k.plain]) ⟨k, slot⟩ = .ok o)
      draft children last := by
  induction children generalizing draft with
  | nil => cases h; exact .nil _
  | cons entry rest ih =>
    obtain ⟨k, c⟩ := entry
    simp only [applyAll] at h
    cases ho : c.apply call run (k :: place) (trail ++ [k.plain]) (draft.site k) with
    | error f => rw [ho] at h; cases h
    | ok o => rw [ho] at h; exact .cons ho (ih h)

/-- The run through the children of a descent succeeds if each child does on what its key held at
the start. -/
theorem Command.applyAll_ok {call : Functions} {run : Nat} {place : List Key} {trail : Trail}
    {draft : Draft} {children : List (Key × Command)} (hd : Fields.Distinct children)
    (h : ∀ k c, (k, c) ∈ children →
      ∃ o, c.apply call run (k :: place) (trail ++ [k.plain]) (draft.site k) = .ok o) :
    ∃ last, applyAll call run place trail draft children = .ok last := by
  induction children generalizing draft with
  | nil => exact ⟨draft, rfl⟩
  | cons entry rest ih =>
    obtain ⟨k, c⟩ := entry
    obtain ⟨hk, hd⟩ := Fields.distinct_cons.1 hd
    obtain ⟨⟨o, ho⟩, hr⟩ := Fields.forall_cons.1 h
    have hrest : ∀ l d, (l, d) ∈ rest →
        ∃ p, d.apply call run (l :: place) (trail ++ [l.plain]) ((draft.take k o).site l) = .ok p := by
      intro l d hl
      rw [Draft.site_take (hk l d hl)]
      exact hr l d hl
    obtain ⟨last, hl⟩ := ih hd hrest
    exact ⟨last, by simp only [applyAll, ho]; exact hl⟩

/-- The run through the children of a descent fails only as one of them does on what its key held at
the start. -/
theorem Command.applyAll_error {call : Functions} {run : Nat} {place : List Key} {trail : Trail}
    {draft : Draft} {children : List (Key × Command)} {f : Fault} (hd : Fields.Distinct children)
    (h : applyAll call run place trail draft children = .error f) :
    ∃ k c, (k, c) ∈ children ∧
      c.apply call run (k :: place) (trail ++ [k.plain]) (draft.site k) = .error f := by
  induction children generalizing draft with
  | nil => cases h
  | cons entry rest ih =>
    obtain ⟨k, c⟩ := entry
    obtain ⟨hk, hd⟩ := Fields.distinct_cons.1 hd
    simp only [applyAll] at h
    cases ho : c.apply call run (k :: place) (trail ++ [k.plain]) (draft.site k) with
    | error g =>
      rw [ho] at h
      cases h
      exact ⟨k, c, List.mem_cons_self, ho⟩
    | ok o =>
      rw [ho] at h
      obtain ⟨l, d, hm, he⟩ := ih hd h
      rw [Draft.site_take (hk l d hm)] at he
      exact ⟨l, d, List.mem_cons_of_mem _ hm, he⟩

end TreeDelta
