import TreeDelta.Delta.Accumulator
import TreeDelta.Proofs.Delta.Listing
import TreeDelta.Proofs.Delta.Net
import TreeDelta.Proofs.Update.Full
/-!
# Accumulated deltas are net

`Accumulator.Reached` are the accumulators that updates and resets lead to. `Accumulator.Tracks` is
their invariant: the delta leads from the initial value to the latest. `Tracks.add` is the step,
by which no update is ever refused, and `Tracks.exact` reads the invariant off path by path.
-/

namespace TreeDelta

/-- Both places hold nothing, or values that count as unchanged. -/
def Slot.Alike (s t : Slot) : Prop :=
  (s = none ∧ t = none) ∨ ∃ u v, s = some u ∧ t = some v ∧ u.Alike v

theorem Slot.Full.at_ {slot : Slot} (h : slot.Full) (p : List Key) : Slot.Full (slot.at_ p) := by
  induction p generalizing slot with
  | nil => exact h
  | cons k p ih => exact ih (h.child k)

/-- In a full value, what is absent at a path is not there. -/
theorem Value.Full.lookup?_eq_none {v : Value} (h : v.Full) (p : List Key) :
    v.lookup? p = none ↔ v.at_ p = .absent := by
  rw [← v.getD_lookup? p]
  cases hl : v.lookup? p with
  | none => simp
  | some w =>
    have hw := (Slot.full_some h).at_ p w hl
    simpa using ne_absent_of_whole hw.2

theorem Value.Full.lookup?_eq_some {v w : Value} (h : v.Full) {p : List Key} (hw : v.at_ p = w)
    (hn : w ≠ .absent) : v.lookup? p = some w := by
  cases hl : v.lookup? p with
  | none => exact absurd (hw.symm.trans ((h.lookup?_eq_none p).1 hl)) hn
  | some u => rw [← hw, ← v.getD_lookup? p, hl]; rfl

namespace Accumulator

/-- The accumulators that a series of updates and resets leads to from an initial value. An update
that fails leaves the accumulator as it is. -/
inductive Reached (initial : Value) : Accumulator → Prop where
  | start : Reached initial (start initial)
  | update {acc : Accumulator} (call : Functions) (run : Nat) (commands : Value) {c : Command}
      {o : Outcome} (before : Reached initial acc) (parsed : Command.parse [] commands = .ok c)
      (admissible : c.Admissible call run [] (some acc.value))
      (updated : Value.update call run acc.value commands = .ok o) :
      Reached initial (acc.add o.value o.delta).1
  | reset {acc : Accumulator} (before : Reached initial acc) : Reached initial acc.reset

/-- The delta leads from the initial value to the latest one. -/
structure Tracks (acc : Accumulator) : Prop where
  initial : acc.initial.Full
  value : acc.value.Full
  leads : Delta.Leads .net acc.initial acc.value acc.delta

theorem tracks_start {v : Value} (h : v.Full) : (start v).Tracks := ⟨h, h, .still (.refl v)⟩

/-- One more update is added without a fault, and its accumulator tracks again. -/
theorem Tracks.add {acc : Accumulator} (h : acc.Tracks) {call : Functions} {run : Nat}
    {commands : Value} {c : Command} {o : Outcome} (hp : Command.parse [] commands = .ok c)
    (ha : c.Admissible call run [] (some acc.value))
    (hu : Value.update call run acc.value commands = .ok o) :
    (acc.add o.value o.delta).2 = none ∧ (acc.add o.value o.delta).1.Tracks := by
  rw [Value.update_of_parse hp] at hu
  have hfull := Command.applyRoot_full ha h.value hu
  have hexact : Delta.Leads .exact acc.value o.value o.delta := by
    refine (Command.applyRoot_records ha.keyed hu).leads ?_ ?_
    · rintro _ ⟨⟩; exact h.value.2
    · rintro _ ⟨⟩; exact hfull.2
  obtain ⟨m, hm, hl⟩ := h.leads.merge_exact (Or.inl h.initial) (Or.inl h.value) (Or.inl hfull) hexact
  simp only [Accumulator.add, hexact.stray_none, hm]
  exact ⟨trivial, h.initial, hfull, hl⟩

theorem tracks_of_reached {initial : Value} {acc : Accumulator} (hv : initial.Full)
    (h : Reached initial acc) : acc.Tracks := by
  induction h with
  | start => exact tracks_start hv
  | update _ _ _ _ parsed admissible updated ih => exact (ih.add parsed admissible updated).2
  | reset _ ih => exact tracks_start ih.value

/-- The delta tells exactly what has changed since the initial value. -/
structure Exact (acc : Accumulator) : Prop where
  valid : acc.delta = .nothing ∨ acc.delta.isValid = true
  /-- The changes are all listed, and what is listed are the changes. -/
  listed : ∃ nodes, acc.delta.changes = .ok nodes ∧
    (∀ p c, (p, c) ∈ nodes → acc.delta.at_ p = .node c) ∧
    ∀ p c, acc.delta.at_ p = .node c → ∃ q, Delta.SamePath p q ∧ (q, c) ∈ nodes
  node : ∀ p c, acc.delta.at_ p = .node c →
    acc.value.lookup? p = some c.new ∧ ((acc.initial.lookup? p).getD .absent).Alike c.old ∧
      (c.kind? = some .add ↔ acc.initial.lookup? p = none)
  apart : ∀ p, acc.delta.Apart p → Slot.Alike (acc.initial.lookup? p) (acc.value.lookup? p)
  unchanged : acc.delta = .nothing → acc.initial.Alike acc.value

theorem Tracks.exact {acc : Accumulator} (h : acc.Tracks) : acc.Exact where
  valid := h.leads.valid Value.likeness_alike (Reading.net_joins_exact.after_absent)
  listed := by
    obtain ⟨nodes, hn, hm⟩ := Delta.changes_listed h.leads.stray_none
    refine ⟨nodes, hn, fun p c hp => Delta.Leads.at_of_stands ((hm p c).1 hp) h.leads, fun p c hp => ?_⟩
    obtain ⟨q, hq, hs⟩ := Delta.exists_stands hp
    exact ⟨q, hq, (hm q c).2 hs⟩
  node p c hp := by
    obtain ⟨hold, hnew, hhere, hadd⟩ := h.leads.node_at Value.likeness_alike id hp
    have hnew : c.new = acc.value.at_ p := hnew
    refine ⟨h.value.lookup?_eq_some hnew.symm (hnew ▸ hhere), ?_, ?_⟩
    · rw [Value.getD_lookup?]; exact hold
    · rw [hadd, h.initial.lookup?_eq_none]
  apart p hp := by
    have ha : (acc.initial.at_ p).Alike (acc.value.at_ p) :=
      h.leads.apart_at Value.likeness_alike (Or.inl h.initial) (Or.inl h.value) hp
    by_cases hn : acc.initial.at_ p = .absent
    · have hn' := (Value.likeness_alike.absent ha).1 hn
      exact Or.inl ⟨(h.initial.lookup?_eq_none p).2 hn, (h.value.lookup?_eq_none p).2 hn'⟩
    · have hn' := mt (Value.likeness_alike.absent ha).2 hn
      exact Or.inr ⟨_, _, h.initial.lookup?_eq_some rfl hn, h.value.lookup?_eq_some rfl hn', ha⟩
  unchanged hn := by
    have hl := h.leads
    rw [hn] at hl
    exact Delta.leads_nothing.1 hl

/-- Whatever updates and resets have led to an accumulator, its delta is exact, and one more update
is added without a fault. -/
theorem exact_of_reached {initial : Value} {acc : Accumulator} (hv : initial.Full)
    (h : Reached initial acc) :
    acc.Exact ∧ ∀ call run commands c o, Command.parse [] commands = .ok c →
      c.Admissible call run [] (some acc.value) →
      Value.update call run acc.value commands = .ok o → (acc.add o.value o.delta).2 = none := by
  have ht := tracks_of_reached hv h
  exact ⟨ht.exact, fun call run commands c o hp ha hu => (ht.add hp ha hu).1⟩

/-- A mapping made below null, and then one merged in at the root. -/
theorem exact_of_reached_twice :
    let v : Value := .map ⟨0, []⟩ [(.str "a", .str "p"), (.str "b", .null)]
    v.Full ∧ ∃ acc, Reached v acc ∧ acc.delta.isValid = true ∧ acc.Exact := by
  intro v
  have hv : v.Full := ⟨by decide, by decide⟩
  let first : Value := .map ⟨1, []⟩
    [(.str "b", .map ⟨1, [.int 0]⟩ [(.str "x", .op (.str "$set") (.int 3))])]
  let second : Value := .op (.str "$merge") (.map ⟨1, [.int 1]⟩ [(.str "a", .bool false)])
  let call : Functions := fun _ _ v => .ok v
  obtain ⟨acc, h, hd⟩ : ∃ acc, Reached v acc ∧ acc.delta.isValid = true := by
    refine ⟨_, .update call 3 second (.update call 2 first .start rfl ⟨by decide, by decide, ?_⟩ rfl)
      rfl ⟨by decide, by decide, ?_⟩ rfl, rfl⟩
    · intro p id made hp
      cases hp with
      | down hm hp =>
        cases List.mem_singleton.1 hm
        cases hp with
        | down hm hp => cases List.mem_singleton.1 hm; cases hp
    · intro p id made hp
      cases hp
  exact ⟨hv, acc, h, hd, (exact_of_reached hv h).1⟩

end Accumulator

end TreeDelta
