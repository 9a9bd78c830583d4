import TreeDelta.Delta.Accumulator
import TreeDelta.Proofs.Delta.Listing
import TreeDelta.Proofs.Delta.Merge
/-!
# What a refused merge leaves

A merge that meets a change which cannot follow the stored one stops there, and what it has merged
before stays merged. `Delta.Refused` is such a run with all that it has passed; by induction on it, the
refusal lies at one path, the paths passed on the way to it hold what they merge to, all others what
they held, and the stored delta is as before exactly if nothing that was passed had anything to tell.
`Accumulator.add_refused` is this for an accumulator, which keeps its two values.
-/

namespace TreeDelta

namespace Fields

variable {α : Type} {k : Key} {a : α} {done rest : List (Key × α)}

/-- The entries before that of a key. -/
def before (k : Key) (fields : List (Key × α)) : List (Key × α) :=
  fields.takeWhile fun entry => !k.same entry.1

theorem before_append (h : ∀ l b, (l, b) ∈ done → k.same l = false) :
    before k (done ++ (k, a) :: rest) = done := by
  have hdone : ∀ entry ∈ done, (!k.same entry.1) = true := by
    rintro ⟨l, b⟩ hm
    simp [h l b hm]
  rw [before, List.takeWhile_append_of_pos hdone]
  simp

end Fields

namespace Delta

/-- What is said of entries is true of every tree in the delta. -/
def Throughout (P : List (Key × Delta) → Prop) (d : Delta) : Prop :=
  ∀ p entries, d.at_ p = .tree entries → P entries

/-- Every tree in the delta holds each key once. -/
def Keyed (d : Delta) : Prop := d.Throughout Fields.Distinct

/-- Every entry of every tree in the delta tells something. -/
def Told (d : Delta) : Prop := d.Throughout fun entries => ∀ k, Fields.get? k entries ≠ some .nothing

theorem throughout_node (P : List (Key × Delta) → Prop) (c : Change) : (node c).Throughout P := by
  intro p entries hp
  cases p with
  | nil => cases hp
  | cons k p => simp at hp

theorem throughout_tree {P : List (Key × Delta) → Prop} {entries : List (Key × Delta)}
    (here : P entries) (below : ∀ k d, (k, d) ∈ entries → d.Throughout P) :
    (tree entries).Throughout P := by
  intro p inner hp
  cases p with
  | nil => cases hp; exact here
  | cons k p =>
    rw [at_cons, child_tree] at hp
    cases hk : Fields.get? k entries with
    | none => rw [hk] at hp; simp at hp
    | some d =>
      rw [hk] at hp
      obtain ⟨l, hm, -⟩ := Fields.exists_mem_of_get? hk
      exact below l d hm p inner hp

theorem told_tree {entries : List (Key × Delta)} (here : ∀ k d, (k, d) ∈ entries → d ≠ .nothing)
    (below : ∀ k d, (k, d) ∈ entries → d.Told) : (tree entries).Told := by
  refine throughout_tree (fun k hk => ?_) below
  obtain ⟨l, hm, -⟩ := Fields.exists_mem_of_get? hk
  exact here l .nothing hm rfl

theorem Keyed.child {d : Delta} (h : d.Keyed) (k : Key) : (d.child k).Keyed := fun p => h (k :: p)

theorem Told.child {d : Delta} (h : d.Told) (k : Key) : (d.child k).Told := fun p => h (k :: p)

/-- On the way down a later delta to `p`, a merge has passed `q`: the entry at its end stands before
that of the way. -/
inductive Passes : Delta → List Key → List Key → Prop where
  | beside {entries : List (Key × Delta)} {k l : Key} {p : List Key}
      (passed : (Fields.get? l (Fields.before k entries)).isSome = true) :
      Passes (.tree entries) (k :: p) [l]
  | deeper {entries : List (Key × Delta)} {k l : Key} {p q : List Key} (same : l.same k = true)
      (passed : Passes ((tree entries).child k) p q) : Passes (.tree entries) (k :: p) (l :: q)

/-- A merge that is refused at a path, and what the stored delta has become by then. -/
inductive Refused : Value → Value → Delta → Delta → Delta → List Key → Fault → Prop where
  | here {old new : Value} {x y : Change} {fault : Fault} (refused : x.merge y = .error fault) :
      Refused old new (.node x) (.node y) (.node x) [] fault
  | deeper {old new : Value} {earlier done rest mid : List (Key × Delta)} {k : Key} {d r : Delta}
      {p : List Key} {fault : Fault} (passed : mergeEntries earlier old new done = .ok mid)
      (refused : Refused (old.child k) (new.child k) ((Fields.get? k mid).getD .nothing) d r p fault) :
      Refused old new (.tree earlier) (.tree (done ++ (k, d) :: rest)) (.tree (Fields.put k r mid))
        (k :: p) fault

/-! ## From failures to refusals -/

theorem refused_of_mergeEntries {later : List (Key × Delta)} {fault : Fault}
    (each : ∀ k d, (k, d) ∈ later → ∀ stored old new reached,
      merge stored old new d = .error ⟨fault, reached⟩ →
        ∃ p, Refused old new stored d reached p fault) :
    ∀ {earlier entries : List (Key × Delta)} {old new : Value},
      mergeEntries earlier old new later = .error ⟨fault, entries⟩ →
        ∃ p, Refused old new (.tree earlier) (.tree later) (.tree entries) p fault := by
  induction later with
  | nil => intro earlier entries old new h; cases h
  | cons entry rest ih =>
    obtain ⟨k, d⟩ := entry
    intro earlier entries old new h
    obtain ⟨hd, hr⟩ := Fields.forall_cons.1 each
    rw [mergeEntries] at h
    cases hm : merge ((Fields.get? k earlier).getD .nothing) (old.child k) (new.child k) d with
    | error e =>
      rw [hm] at h
      cases h
      obtain ⟨p, hp⟩ := hd _ _ _ _ hm
      have at_first : Refused old new (.tree earlier) (.tree ([] ++ (k, d) :: rest))
          (.tree (Fields.put k e.reached earlier)) (k :: p) e.fault := .deeper rfl hp
      exact ⟨k :: p, at_first⟩
    | ok m =>
      rw [hm] at h
      obtain ⟨p, hp⟩ := ih hr h
      cases hp with
      | @deeper _ _ _ done rest mid l e r p _ passed refused =>
        have passed' : mergeEntries earlier old new ((k, d) :: done) = .ok mid := by
          rw [mergeEntries, hm]
          exact passed
        have further : Refused old new (.tree earlier) (.tree (((k, d) :: done) ++ (l, e) :: rest))
            (.tree (Fields.put l r mid)) (l :: p) fault := .deeper passed' refused
        exact ⟨l :: p, further⟩

/-- Behind a merge that fails for the order of changes there is a refusal. -/
theorem refused_of_merge {later : Delta} {a b : Value} :
    ∀ (stored : Delta) (old new : Value) (reached : Delta),
      merge stored old new later = .error ⟨.mergeOrder a b, reached⟩ →
        ∃ p, Refused old new stored later reached p (.mergeOrder a b) := by
  induction later using Delta.induction with
  | nothing => intro stored old new reached h; rw [merge_nothing] at h; cases h
  | node y =>
    intro stored old new reached h
    cases stored with
    | nothing => rw [nothing_merge] at h; cases h
    | node x =>
      rw [merge] at h
      cases hm : x.merge y with
      | ok d => rw [hm] at h; cases h
      | error f => rw [hm] at h; cases h; exact ⟨[], .here hm⟩
    | tree | other => simp [merge] at h
  | tree later ih =>
    intro stored old new reached h
    cases stored with
    | nothing => rw [nothing_merge] at h; cases h
    | node x => rw [node_merge_tree] at h; cases h
    | tree earlier =>
      rw [tree_merge_tree] at h
      cases hm : mergeEntries earlier old new later with
      | ok entries => rw [hm] at h; cases h
      | error e =>
        obtain ⟨fault, entries⟩ := e
        rw [hm] at h
        cases h
        exact refused_of_mergeEntries ih hm
    | other v items => rw [merge] at h; split at h <;> cases h
  | other v items =>
    intro stored old new reached h
    cases stored <;> simp [merge] at h

/-! ## The entry at which a loop is refused -/

/-- What the loop over a later tree has come to when it is at an entry: the keys before it hold what
they merge to, and all others what they held. -/
structure Halt (old new : Value) (earlier done rest mid : List (Key × Delta)) (k : Key) (d : Delta) :
    Prop where
  before : Fields.before k (done ++ (k, d) :: rest) = done
  later : (tree (done ++ (k, d) :: rest)).child k = d
  apart : ∀ l, (Fields.get? l done).isSome = true → l.same k = false
  passed : ∀ l, (Fields.get? l done).isSome = true →
    ((tree earlier).child l).merge (old.child l) (new.child l)
      ((tree (done ++ (k, d) :: rest)).child l) = .ok ((Fields.get? l mid).getD .nothing)
  others : ∀ l, Fields.get? l done = none → (Fields.get? l mid).getD .nothing = (tree earlier).child l

variable {old new : Value} {earlier done rest mid : List (Key × Delta)} {k : Key} {d : Delta}

theorem halt_of_mergeEntries (hl : (tree (done ++ (k, d) :: rest)).Keyed)
    (passed : mergeEntries earlier old new done = .ok mid) : Halt old new earlier done rest mid k d := by
  have distinct : Fields.Distinct (done ++ (k, d) :: rest) := hl [] _ rfl
  obtain ⟨hdone, hk⟩ := Fields.distinct_append distinct
  have each := merge_of_mergeEntries hdone passed
  refine ⟨Fields.before_append hk, ?_, fun l hd => ?_, fun l hd => ?_, fun l hd => ?_⟩
  · have hd : Fields.get? k (done ++ (k, d) :: rest) = some d := Fields.get?_of_mem distinct (by simp)
    rw [child_tree, hd]
    rfl
  · cases hs : l.same k with
    | false => rfl
    | true =>
      rw [Fields.get?_congr hs, Fields.get?_none_of_forall hk] at hd
      cases hd
  · obtain ⟨e, he⟩ := Option.isSome_iff_exists.1 hd
    have := each l
    rw [he] at this
    rw [child_tree, child_tree, Fields.get?_append he]
    exact this
  · have := each l
    rw [hd, Option.getD_none, merge_nothing] at this
    exact (Except.ok.inj this).symm

theorem Halt.there (h : Halt old new earlier done rest mid k d) :
    (Fields.get? k mid).getD .nothing = (tree earlier).child k := by
  refine h.others k ?_
  cases hk : Fields.get? k done with
  | none => rfl
  | some e =>
    have := h.apart k (by rw [hk]; rfl)
    rw [Key.same_self] at this
    cases this

theorem child_put (k l : Key) (r : Delta) (entries : List (Key × Delta)) :
    (tree (Fields.put k r entries)).child l =
      if l.same k then r else (Fields.get? l entries).getD .nothing := by
  rw [child_tree, Fields.get?_put]
  split <;> rfl

/-- A loop over entries that have nothing to tell changes nothing. -/
theorem mergeEntries_still {later : List (Key × Delta)} (ht : (tree earlier).Told)
    (h : ∀ l e, (l, e) ∈ later →
      ((tree earlier).child l).merge (old.child l) (new.child l) e = .ok ((tree earlier).child l)) :
    mergeEntries earlier old new later = .ok earlier := by
  induction later with
  | nil => rw [mergeEntries]
  | cons entry rest ih =>
    obtain ⟨l, e⟩ := entry
    obtain ⟨he, hr⟩ := Fields.forall_cons.1 h
    have written : writeEntry earlier l ((tree earlier).child l) = earlier := by
      rw [child_tree]
      cases hl : Fields.get? l earlier with
      | none => exact Fields.erase_of_get? hl
      | some m =>
        have hm : m ≠ .nothing := fun e => ht [] _ rfl l (by rw [hl, e])
        cases m with
        | nothing => exact absurd rfl hm
        | node | tree | other => exact Fields.put_of_get? hl
    rw [child_tree] at he written
    rw [mergeEntries, he]
    simp only [written]
    exact ih hr

/-! ## What a refusal leaves -/

namespace Refused

variable {stored later reached : Delta} {p q : List Key} {fault : Fault}

/-- At its path the later change cannot follow the stored one. -/
theorem clash (h : Refused old new stored later reached p fault) (hs : stored.Keyed) (ht : stored.Told)
    (hl : later.Keyed) :
    ∃ x y, stored.at_ p = .node x ∧ later.at_ p = .node y ∧ x.merge y = .error fault := by
  induction h with
  | here refused => exact ⟨_, _, rfl, rfl, refused⟩
  | @deeper old new earlier done rest mid k d r p fault passed refused ih =>
    have halt := halt_of_mergeEntries hl passed
    rw [halt.there] at ih
    obtain ⟨x, y, hx, hy, hm⟩ := ih (hs.child k) (ht.child k) (halt.later ▸ hl.child k)
    exact ⟨x, y, hx, by rw [at_cons, halt.later, hy], hm⟩

/-- What was passed holds what it merges to. -/
theorem merged (h : Refused old new stored later reached p fault) (hs : stored.Keyed) (ht : stored.Told)
    (hl : later.Keyed) (hq : later.Passes p q) :
    (stored.at_ q).merge (old.at_ q) (new.at_ q) (later.at_ q) = .ok (reached.at_ q) := by
  induction h generalizing q with
  | here => cases hq
  | @deeper old new earlier done rest mid k d r p fault passed refused ih =>
    have halt := halt_of_mergeEntries hl passed
    rw [halt.there] at ih
    cases hq with
    | @beside _ _ l _ before =>
      rw [halt.before] at before
      have e : (tree (Fields.put k r mid)).at_ [l] = (Fields.get? l mid).getD .nothing := by
        rw [at_cons, child_put, halt.apart l before]
        rfl
      rw [e]
      exact halt.passed l before
    | @deeper _ _ l _ q same inner =>
      rw [halt.later] at inner
      have := ih (hs.child k) (ht.child k) (halt.later ▸ hl.child k) inner
      rw [at_cons, at_cons, at_cons, child_put, if_pos same, Value.at_cons, Value.at_cons,
        child_congr same, child_congr same, Value.child_congr same, Value.child_congr same, halt.later]
      exact this

theorem present (h : Refused old new stored later reached p fault) : stored ≠ .nothing := by
  cases h <;> simp

/-- If nothing that was passed has anything to tell, the stored delta is as before. -/
theorem still (h : Refused old new stored later reached p fault) (hs : stored.Keyed) (ht : stored.Told)
    (hl : later.Keyed) (idle : ∀ q, later.Passes p q →
      (stored.at_ q).merge (old.at_ q) (new.at_ q) (later.at_ q) = .ok (stored.at_ q)) :
    reached = stored := by
  induction h with
  | here => rfl
  | @deeper old new earlier done rest mid k d r p fault passed refused ih =>
    have halt := halt_of_mergeEntries hl passed
    have hstill : mergeEntries earlier old new done = .ok earlier := by
      refine mergeEntries_still ht fun l e hm => ?_
      have distinct : Fields.Distinct (done ++ (k, d) :: rest) := hl [] _ rfl
      have he : Fields.get? l done = some e :=
        Fields.get?_of_mem (Fields.distinct_append distinct).1 hm
      have := idle [l] (.beside (by rw [halt.before, he]; rfl))
      rw [at_cons, at_cons, child_tree _ l, child_tree _ l, Fields.get?_append he] at this
      exact this
    cases passed.symm.trans hstill
    have hr : r = (tree earlier).child k := by
      refine ih (hs.child k) (ht.child k) (halt.later ▸ hl.child k) fun q hq => ?_
      have := idle (k :: q) (.deeper (Key.same_self k) (halt.later.symm ▸ hq))
      rw [at_cons, at_cons, halt.later] at this
      exact this
    have hk : Fields.get? k earlier = some r := by
      have hp := refused.present
      rw [hr, child_tree]
      cases hk : Fields.get? k earlier with
      | none => rw [hk] at hp; exact absurd rfl hp
      | some m => rfl
    rw [Fields.put_of_get? hk]

/-- Paths apart from all that was passed hold what they held. -/
theorem kept (h : Refused old new stored later reached p fault) (hs : stored.Keyed) (ht : stored.Told)
    (hl : later.Keyed) (hq : ∀ r, later.Passes p r → ¬ r <+: q ∧ ¬ q <+: r) :
    reached.at_ q = stored.at_ q := by
  induction h generalizing q with
  | here => rfl
  | @deeper old new earlier done rest mid k d r p fault passed refused ih =>
    have halt := halt_of_mergeEntries hl passed
    cases q with
    | nil =>
      have run : Refused old new (.tree earlier) (.tree (done ++ (k, d) :: rest))
          (.tree (Fields.put k r mid)) (k :: p) fault := .deeper passed refused
      exact run.still hs ht hl fun q hp => absurd List.nil_prefix (hq q hp).2
    | cons l q =>
      rw [halt.there] at ih
      rw [at_cons, at_cons, child_put]
      by_cases same : l.same k = true
      · rw [if_pos same, child_congr same]
        refine ih (hs.child k) (ht.child k) (halt.later ▸ hl.child k) fun s hp => ?_
        have := hq (l :: s) (.deeper same (halt.later.symm ▸ hp))
        simpa using this
      · rw [if_neg same]
        cases hd : Fields.get? l done with
        | none => rw [halt.others l hd]
        | some e =>
          have hp : (tree (done ++ (k, d) :: rest)).Passes (k :: p) [l] :=
            .beside (by rw [halt.before, hd]; rfl)
          exact absurd (by simp) (hq [l] hp).1

end Refused

end Delta

/-! ## Accumulators -/

namespace Accumulator

open Delta (throughout_node throughout_tree told_tree)

/-- An addition that is refused for the order of changes keeps both values. It has come to one path at
which the two changes do not fit; what it has passed on the way holds what it merges to, and all else
what it held. So the delta is as before exactly if nothing that was passed had anything to tell. -/
theorem add_refused {acc : Accumulator} {v a b : Value} {d : Delta} (hs : acc.delta.Keyed)
    (ht : acc.delta.Told) (hd : d.Keyed) (h : (acc.add v d).2 = some (.mergeOrder a b)) :
    (acc.add v d).1.initial = acc.initial ∧ (acc.add v d).1.value = acc.value ∧
      ∃ p x y, acc.delta.at_ p = .node x ∧ d.at_ p = .node y ∧ x.merge y = .error (.mergeOrder a b) ∧
        (∀ q, d.Passes p q →
          (acc.delta.at_ q).merge (acc.initial.at_ q) (v.at_ q) (d.at_ q) =
            .ok ((acc.add v d).1.delta.at_ q)) ∧
        (∀ q, (∀ r, d.Passes p r → ¬ r <+: q ∧ ¬ q <+: r) →
          (acc.add v d).1.delta.at_ q = acc.delta.at_ q) ∧
        ((acc.add v d).1.delta = acc.delta ↔ ∀ q, d.Passes p q →
          (acc.delta.at_ q).merge (acc.initial.at_ q) (v.at_ q) (d.at_ q) =
            .ok (acc.delta.at_ q)) := by
  cases hstray : d.stray? with
  | some stray =>
    simp only [add, hstray] at h
    cases h
  | none =>
    cases hm : acc.delta.merge acc.initial v d with
    | ok merged =>
      simp only [add, hstray, hm] at h
      cases h
    | error e =>
      obtain ⟨fault, reached⟩ := e
      have e : acc.add v d = (⟨acc.initial, acc.value, reached⟩, some fault) := by
        simp only [add, hstray, hm]
      rw [e] at h ⊢
      cases h
      obtain ⟨p, hp⟩ := Delta.refused_of_merge _ _ _ _ hm
      obtain ⟨x, y, hx, hy, hxy⟩ := hp.clash hs ht hd
      have merged := fun q => @Delta.Refused.merged _ _ _ _ _ p q _ hp hs ht hd
      refine ⟨rfl, rfl, p, x, y, hx, hy, hxy, merged, fun q => hp.kept hs ht hd, ?_⟩
      constructor
      · intro (same : reached = acc.delta)
        rw [same] at merged
        exact merged
      · exact hp.still hs ht hd

/-- Two levels down a change follows another and is merged; then an addition meets an addition. -/
theorem add_refused_two_levels :
    let u : Value := .map ⟨0, []⟩ [(.str "t", .map ⟨0, [.str "t"]⟩ [(.str "a", .null)])]
    let v : Value := .map ⟨1, []⟩
      [(.str "t", .map ⟨1, [.str "t"]⟩ [(.str "a", .str "y"), (.str "b", .str "y")])]
    let w : Value := .map ⟨2, []⟩
      [(.str "t", .map ⟨2, [.str "t"]⟩ [(.str "a", .bool true), (.str "b", .bool true)])]
    let stored : Delta := .tree [(.str "t", .tree [(.str "a", .node (.of .change .null (.str "y"))),
      (.str "b", .node (.of .add .absent (.str "y")))])]
    let later : Delta := .tree [(.str "t", .tree [(.str "a", .node (.of .change (.str "y") (.bool true))),
      (.str "b", .node (.of .add .absent (.bool true)))])]
    let acc : Accumulator := ⟨u, v, stored⟩
    acc.delta.Keyed ∧ acc.delta.Told ∧ later.Keyed ∧
      (acc.add w later).2 = some (.mergeOrder (.str "add") (.str "add")) ∧
      (acc.add w later).1.initial = u ∧ (acc.add w later).1.value = v ∧
      ∃ p x y, stored.at_ p = .node x ∧ later.at_ p = .node y ∧
        x.merge y = .error (.mergeOrder (.str "add") (.str "add")) := by
  intro u v w stored later acc
  have hs : acc.delta.Keyed := by
    refine throughout_tree (by decide) (Fields.forall_cons.2 ⟨?_, by simp⟩)
    refine throughout_tree (by decide) (Fields.forall_cons.2 ⟨throughout_node _ _, ?_⟩)
    exact Fields.forall_cons.2 ⟨throughout_node _ _, by simp⟩
  have ht : acc.delta.Told := by
    refine told_tree (by simp) (Fields.forall_cons.2 ⟨?_, by simp⟩)
    refine told_tree (Fields.forall_cons.2 ⟨by simp, by simp⟩)
      (Fields.forall_cons.2 ⟨throughout_node _ _, ?_⟩)
    exact Fields.forall_cons.2 ⟨throughout_node _ _, by simp⟩
  have hd : later.Keyed := by
    refine throughout_tree (by decide) (Fields.forall_cons.2 ⟨?_, by simp⟩)
    refine throughout_tree (by decide) (Fields.forall_cons.2 ⟨throughout_node _ _, ?_⟩)
    exact Fields.forall_cons.2 ⟨throughout_node _ _, by simp⟩
  have h : (acc.add w later).2 = some (.mergeOrder (.str "add") (.str "add")) := rfl
  obtain ⟨initial, value, p, x, y, hx, hy, hxy, -⟩ := add_refused hs ht hd h
  exact ⟨hs, ht, hd, h, initial, value, p, x, y, hx, hy, hxy⟩

/-- A refused addition changes the delta: the change of one key is merged before the other key is
refused, while the value stays. -/
theorem add_refused_halfway :
    let u : Value := .map ⟨0, []⟩ [(.str "a", .null)]
    let v : Value := .map ⟨1, []⟩ [(.str "a", .str "y"), (.str "b", .str "y")]
    let w : Value := .map ⟨2, []⟩ [(.str "a", .bool true), (.str "b", .bool true)]
    let acc := ((start u).add v (.tree [(.str "a", .node (.of .change .null (.str "y"))),
      (.str "b", .node (.of .add .absent (.str "y")))])).1
    let after := acc.add w (.tree [(.str "a", .node (.of .change (.str "y") (.bool true))),
      (.str "b", .node (.of .add .absent (.bool true)))])
    after.2 = some (.mergeOrder (.str "add") (.str "add")) ∧
      after.1.value.at_ [.str "a"] = .str "y" ∧
      acc.delta.at_ [.str "a"] = .node (.of .change .null (.str "y")) ∧
      after.1.delta.at_ [.str "a"] = .node (.of .change .null (.bool true)) ∧
      after.1.delta ≠ acc.delta := by
  intro u v w acc after
  have before : acc.delta.at_ [.str "a"] = .node (.of .change .null (.str "y")) := rfl
  have moved : after.1.delta.at_ [.str "a"] = .node (.of .change .null (.bool true)) := rfl
  refine ⟨rfl, rfl, before, moved, fun e => ?_⟩
  rw [e, before] at moved
  cases moved

end Accumulator

end TreeDelta
