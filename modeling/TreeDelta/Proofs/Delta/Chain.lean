import Mathlib.Data.List.Chain
import TreeDelta.Proofs.Delta.Readings
import TreeDelta.Proofs.Delta.Merge
import TreeDelta.Proofs.Symmetry
/-!
# Chains of changes

Changes of one place, each from where the one before it ended, can be merged in any grouping, and
what they come to depends on the two ends only: nothing if these are the same, and else one real
change between them (`Grouping.merged_spans`). `Change.Real.merge` is the step, for two changes;
what a longer chain comes to is joined with it by moving its ends, `Delta.Spans.move`.
-/

namespace TreeDelta

theorem Value.absent_iff_of_same {u v : Value} (h : u.same v = true) : u = .absent ↔ v = .absent :=
  likeness_equalItem.absent (equalItem_of_same h)

/-- The kind of change that leads from one value to another. -/
def ChangeKind.between (u v : Value) : ChangeKind :=
  if u = .absent then .add else if v = .absent then .remove else .change

theorem ChangeKind.between_congr {u u' v v' : Value} (hu : u.same u' = true) (hv : v.same v' = true) :
    between u v = between u' v' := by
  simp only [between, Value.absent_iff_of_same hu, Value.absent_iff_of_same hv]

/-! ## Real changes -/

namespace Change

/-- A valid change that purging keeps; its values hold each key once. -/
structure Real (c : Change) : Prop where
  valid : (Delta.node c).isValid = true
  kept : Delta.purge (.node c) = .node c
  old : c.old.regular = true
  new : c.new.regular = true

/-- What a valid change that purging keeps looks like. -/
inductive Proper : Change → Prop where
  | add {new : Value} (here : new ≠ .absent) : Proper (.of .add .absent new)
  | change {old new : Value} (there : old ≠ .absent) (here : new ≠ .absent)
      (differ : old.same new = false) : Proper (.of .change old new)
  | remove {old : Value} (there : old ≠ .absent) : Proper (.of .remove old .absent)

variable {c x y : Change}

theorem label_of_kind {kind : ChangeKind} (h : c.kind? = some kind) : c.label = .str kind.name := by
  have := List.find?_some h
  simpa using this

theorem eq_of_kind {kind : ChangeKind} (h : c.kind? = some kind) : c = .of kind c.old c.new := by
  rw [of, ← label_of_kind h]

theorem isVoid_of_kept (h : Delta.purge (.node c) = .node c) : c.isVoid = false := by
  rw [Delta.purge] at h
  split at h
  · cases h
  · rename_i hv
    simpa using hv

theorem Real.proper (h : c.Real) : c.Proper := by
  have hf : c.fault? [] = none := by
    have := h.valid
    simpa [Delta.isValid, Delta.fault?] using this
  have hv := isVoid_of_kept h.kept
  cases hk : c.kind? with
  | none => simp [fault?, hk] at hf
  | some kind =>
    obtain ⟨old, new, rfl⟩ : ∃ old new, c = of kind old new := ⟨_, _, eq_of_kind hk⟩
    cases kind with
    | add =>
      simp only [fault?, kind?_of] at hf
      by_cases ho : old = .absent
      · by_cases hn : new = .absent
        · simp [hn, ho] at hf
        · rw [ho]
          exact .add hn
      · simp [ho] at hf
    | change =>
      simp only [fault?, kind?_of] at hf
      rw [Delta.isVoid_change] at hv
      by_cases ho : old = .absent
      · simp [ho] at hf
      · by_cases hn : new = .absent
        · simp [hn] at hf
        · exact .change ho hn hv
    | remove =>
      simp only [fault?, kind?_of] at hf
      by_cases hn : new = .absent
      · by_cases ho : old = .absent
        · simp [hn, ho] at hf
        · rw [hn]
          exact .remove ho
      · simp [hn] at hf

theorem Proper.real (h : c.Proper) (old : c.old.regular = true) (new : c.new.regular = true) :
    c.Real := by
  cases h with
  | add here => exact ⟨by simp [Delta.isValid, Delta.fault?, fault?, here], Delta.purge_add _ _, old, new⟩
  | change there here differ =>
    refine ⟨by simp [Delta.isValid, Delta.fault?, fault?, there, here], ?_, old, new⟩
    rw [Delta.purge, Delta.isVoid_change, differ]
    rfl
  | remove there =>
    exact ⟨by simp [Delta.isValid, Delta.fault?, fault?, there], Delta.purge_remove there _, old, new⟩

theorem Proper.differ (h : c.Proper) : c.old.same c.new = false := by
  rw [Bool.eq_false_iff]
  intro hs
  cases h with
  | add here => exact here ((Value.absent_iff_of_same hs).1 rfl)
  | change there here differ => simp [differ] at hs
  | remove there => exact there ((Value.absent_iff_of_same hs).2 rfl)

theorem Proper.kind (h : c.Proper) : c.kind? = some (.between c.old c.new) := by
  cases h with
  | add here => simp [ChangeKind.between]
  | change there here => simp [ChangeKind.between, there, here]
  | remove there => simp [ChangeKind.between, there]

end Change

/-! ## What lies between two ends -/

/-- What leads from `u` to `v` in one step: nothing if they are the same, and else a real change of
the kind that they ask for, between values that are the same as these. -/
inductive Delta.Spans (u v : Value) : Delta → Prop where
  | still (same : u.same v = true) : Spans u v .nothing
  | moved {c : Change} (real : c.Real) (differ : u.same v = false)
      (kind : c.kind? = some (.between u v)) (before : c.old.same u = true)
      (after : c.new.same v = true) : Spans u v (.node c)

/-- Nothing twice, or changes of one kind between values that are the same. -/
inductive Delta.Matches : Delta → Delta → Prop where
  | nothing : Matches .nothing .nothing
  | node {c d : Change} (label : c.label = d.label) (old : c.old.same d.old = true)
      (new : c.new.same d.new = true) : Matches (.node c) (.node d)

theorem Change.Real.spans {c : Change} (h : c.Real) : (Delta.node c).Spans c.old c.new :=
  .moved h h.proper.differ h.proper.kind (Value.same_self _) (Value.same_self _)

namespace Delta.Spans

variable {u u' v v' w : Value} {d e : Delta}

/-- The ends can be exchanged for values that are the same. -/
theorem move (h : d.Spans u v) (ru : u.regular = true) (ru' : u'.regular = true)
    (rv : v.regular = true) (rv' : v'.regular = true) (hu : u.same u' = true) (hv : v.same v' = true) :
    d.Spans u' v' := by
  cases h with
  | still same => exact .still (Value.same_trans (Value.same_symm ru ru' hu) (Value.same_trans same hv))
  | moved real differ kind before after =>
    refine .moved real ?_ (ChangeKind.between_congr hu hv ▸ kind) (Value.same_trans before hu)
      (Value.same_trans after hv)
    rw [Bool.eq_false_iff] at differ ⊢
    exact fun h => differ (Value.same_trans hu (Value.same_trans h (Value.same_symm rv rv' hv)))

/-- What leads from one end to the other is unique but for values that are the same. -/
theorem unique (h : d.Spans u v) (h' : e.Spans u v) (ru : u.regular = true) (rv : v.regular = true) :
    d.Matches e := by
  cases h with
  | still same =>
    cases h' with
    | still => exact .nothing
    | moved _ differ => rw [same] at differ; cases differ
  | moved real differ kind before after =>
    cases h' with
    | still same => rw [same] at differ; cases differ
    | moved real' _ kind' before' after' =>
      refine .node ?_ ?_ ?_
      · rw [Change.label_of_kind kind, Change.label_of_kind kind']
      · exact Value.same_trans before (Value.same_symm real'.old ru before')
      · exact Value.same_trans after (Value.same_symm real'.new rv after')

end Delta.Spans

/-! ## Two changes in a row -/

theorem Delta.spans_purge_change {u w : Value} (there : u ≠ .absent) (here : w ≠ .absent)
    (ru : u.regular = true) (rw' : w.regular = true) :
    (purge (.node (.of .change u w))).Spans u w := by
  cases hs : u.same w with
  | true =>
    rw [purge, isVoid_change, hs]
    exact .still hs
  | false =>
    have real : (Change.of .change u w).Real := (Change.Proper.change there here hs).real ru rw'
    rw [real.kept]
    exact real.spans

/-- A real change, and another from where it ended, make one real change, or none. -/
theorem Change.Real.merge {x y : Change} (hx : x.Real) (hy : y.Real)
    (h : x.new.same y.old = true) : ∃ m, x.merge y = .ok m ∧ m.Spans x.old y.new := by
  have meet := Value.absent_iff_of_same h
  have rx := hx.old
  have ry := hy.new
  cases hx.proper with
  | add here =>
    cases hy.proper with
    | add => exact absurd (meet.2 rfl) here
    | change _ here' =>
      have real := (Proper.add here').real rfl ry
      exact ⟨_, Delta.merge_of .add .change _ _ _ _, by rw [real.kept]; exact real.spans⟩
    | remove => exact ⟨_, Delta.merge_of .add .remove _ _ _ _, .still (Value.same_self _)⟩
  | change there here =>
    cases hy.proper with
    | add => exact absurd (meet.2 rfl) here
    | change _ here' =>
      exact ⟨_, Delta.merge_of .change .change _ _ _ _, Delta.spans_purge_change there here' rx ry⟩
    | remove =>
      have real := (Proper.remove there).real rx rfl
      exact ⟨_, Delta.merge_of .change .remove _ _ _ _, by rw [real.kept]; exact real.spans⟩
  | remove there =>
    cases hy.proper with
    | add here' =>
      exact ⟨_, Delta.merge_of .remove .add _ _ _ _, Delta.spans_purge_change there here' rx ry⟩
    | change there' | remove there' => exact absurd (meet.1 rfl) there'

/-- What leads from `u` to `v`, and what leads on from there to `w`, make what leads from `u` to
`w`. -/
theorem Delta.Spans.join {u v v' w : Value} {d e : Delta} (h : d.Spans u v) (h' : e.Spans v' w)
    (ru : u.regular = true) (rv : v.regular = true) (rv' : v'.regular = true) (rw' : w.regular = true)
    (meet : v.same v' = true) : ∃ m, d.mergeChange e = .ok m ∧ m.Spans u w := by
  cases h with
  | still same =>
    have hu : v'.same u = true := Value.same_symm ru rv' (Value.same_trans same meet)
    exact ⟨e, by rw [mergeChange], h'.move rv' ru rw' rw' hu (Value.same_self w)⟩
  | @moved c real differ kind before after =>
    cases h' with
    | still same =>
      have moved : (Delta.node c).Spans u v := .moved real differ kind before after
      exact ⟨.node c, by simp [mergeChange],
        moved.move ru ru rv rw' (Value.same_self u) (Value.same_trans meet same)⟩
    | @moved c' real' differ' kind' before' after' =>
      have inner : c.new.same c'.old = true :=
        Value.same_trans after (Value.same_trans meet (Value.same_symm real'.old rv' before'))
      obtain ⟨m, hm, hs⟩ := real.merge real' inner
      exact ⟨m, by rw [mergeChange, hm], hs.move real.old ru real'.new rw' before after'⟩

/-! ## Chains -/

/-- A way to merge changes in a row two by two. -/
inductive Grouping where
  | one (c : Change)
  | join (first later : Grouping)

namespace Grouping

/-- The changes in their order. -/
def changes : Grouping → List Change
  | one c => [c]
  | join a b => a.changes ++ b.changes

def first : Grouping → Change
  | one c => c
  | join a _ => a.first

def last : Grouping → Change
  | one c => c
  | join _ b => b.last

/-- What merging comes to. -/
def merged : Grouping → Except Fault Delta
  | one c => .ok (.node c)
  | join a b => do (← a.merged).mergeChange (← b.merged)

theorem head?_changes (g : Grouping) : g.changes.head? = some g.first := by
  induction g with
  | one c => rfl
  | join a b iha _ => rw [changes, List.head?_append, iha]; rfl

theorem getLast?_changes (g : Grouping) : g.changes.getLast? = some g.last := by
  induction g with
  | one c => rfl
  | join a b _ ihb => rw [changes, List.getLast?_append, ihb]; rfl

/-- Each change starts where the one before it ended. -/
def Chained (xs : List Change) : Prop := xs.IsChain fun x y => x.new.same y.old = true

theorem spans {g : Grouping} (real : ∀ c ∈ g.changes, c.Real) (chained : Chained g.changes) :
    ∃ d, g.merged = .ok d ∧ d.Spans g.first.old g.last.new := by
  induction g with
  | one c => exact ⟨.node c, rfl, (real c (by simp [changes])).spans⟩
  | join a b iha ihb =>
    have ra : ∀ c ∈ a.changes, c.Real := fun c hc => real c (List.mem_append_left _ hc)
    have rb : ∀ c ∈ b.changes, c.Real := fun c hc => real c (List.mem_append_right _ hc)
    obtain ⟨ca, cb, meet⟩ := List.isChain_append.1 chained
    obtain ⟨d, hd, sd⟩ := iha ra ca
    obtain ⟨e, he, se⟩ := ihb rb cb
    have first := ra a.first (List.mem_of_head? a.head?_changes)
    have ending := ra a.last (List.mem_of_getLast? a.getLast?_changes)
    have starting := rb b.first (List.mem_of_head? b.head?_changes)
    have last := rb b.last (List.mem_of_getLast? b.getLast?_changes)
    obtain ⟨m, hm, sm⟩ := sd.join se first.old ending.new starting.old last.new
      (meet _ a.getLast?_changes _ b.head?_changes)
    exact ⟨m, by rw [merged, hd, he]; exact hm, sm⟩

/-- Real changes, each from where the one before it ended, can be merged in any grouping. They come to
what leads from the first end to the last, and in every grouping to the same. -/
theorem merged_spans {g : Grouping} {x y : Change} (real : ∀ c ∈ g.changes, c.Real)
    (chained : Chained g.changes) (hx : g.changes.head? = some x) (hy : g.changes.getLast? = some y) :
    (∃ d, g.merged = .ok d ∧ d.Spans x.old y.new) ∧
      ∀ g' : Grouping, g'.changes = g.changes →
        ∃ d e, g.merged = .ok d ∧ g'.merged = .ok e ∧ d.Matches e := by
  have rx : x.Real := real x (List.mem_of_head? hx)
  have ry : y.Real := real y (List.mem_of_getLast? hy)
  -- the ends of a grouping are those of its changes
  have each : ∀ g' : Grouping, g'.changes = g.changes →
      ∃ d, g'.merged = .ok d ∧ d.Spans x.old y.new := by
    intro g' e
    obtain rfl : g'.first = x := Option.some.inj (by rw [← head?_changes, e, hx])
    obtain rfl : g'.last = y := Option.some.inj (by rw [← getLast?_changes, e, hy])
    exact spans (e ▸ real) (e ▸ chained)
  obtain ⟨d, hd, sd⟩ := each g rfl
  refine ⟨⟨d, hd, sd⟩, fun g' e => ?_⟩
  obtain ⟨d', hd', sd'⟩ := each g' e
  exact ⟨d, d', hd, hd', sd.unique sd' rx.old ry.new⟩

/-- An addition and its removal come to nothing, and the next addition and a change to an addition, in
one grouping; in the other the removal meets what is added next. -/
theorem merged_spans_of_readded :
    let a : Change := .of .add .absent (.int 1)
    let b : Change := .of .remove (.int 1) .absent
    let c : Change := .of .add .absent (.int 2)
    let d : Change := .of .change (.int 2) (.str "x")
    let g : Grouping := .join (.join (.one a) (.one b)) (.join (.one c) (.one d))
    let g' : Grouping := .join (.one a) (.join (.one b) (.join (.one c) (.one d)))
    (∀ x ∈ g.changes, x.Real) ∧ Chained g.changes ∧
      (∃ m, g.merged = .ok m ∧ m.Spans .absent (.str "x")) ∧
      ∃ m m', g.merged = .ok m ∧ g'.merged = .ok m' ∧ m.Matches m' := by
  intro a b c d g g'
  have real : ∀ x ∈ g.changes, x.Real := by
    have ra : a.Real := (Change.Proper.add (by decide)).real rfl rfl
    have rb : b.Real := (Change.Proper.remove (by decide)).real rfl rfl
    have rc : c.Real := (Change.Proper.add (by decide)).real rfl rfl
    have rd : d.Real := (Change.Proper.change (by decide) (by decide) (by decide)).real rfl rfl
    simp [g, changes, ra, rb, rc, rd]
  have chained : Chained g.changes := by simp [Chained, g, changes, a, b, c, d]
  obtain ⟨spans, same⟩ := @merged_spans g a d real chained rfl rfl
  exact ⟨real, chained, spans, same g' rfl⟩

end Grouping

end TreeDelta
