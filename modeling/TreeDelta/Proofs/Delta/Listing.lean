import TreeDelta.Proofs.Delta.Leads
import TreeDelta.Proofs.Sorting.Keys
/-!
# The list of changes

A delta without stray data lists exactly the changes that stand in it, however its keys are
sorted (`Delta.changes_listed`). `Delta.Stands` is standing at a path that is spelled as in the
tree, where `Delta.at_` takes any spelling of the keys.
-/

namespace TreeDelta

/-- The arrangement loses no entry of a mapping. -/
def Arrangement.Permutes (a : Arrangement) : Prop :=
  ∀ {α : Type} (fields : List (Key × α)), (a.fields fields).Perm fields

theorem permutes_sorted : Arrangement.sorted.Permutes := perm_sortedFields

namespace Delta

variable {a : Arrangement}

/-- A change stands in a delta at the end of a path. -/
inductive Stands : Delta → List Key → Change → Prop where
  | here (c : Change) : Stands (.node c) [] c
  | down {entries : List (Key × Delta)} {k : Key} {d : Delta} {p : List Key} {c : Change}
      (entry : (k, d) ∈ entries) (rest : Stands d p c) : Stands (.tree entries) (k :: p) c

/-! ## What a walk meets -/

theorem mem_under {k : Key} {steps : List Step} {p : List Key} {met : Except Fault Change} :
    (p, met) ∈ under k steps ↔ ∃ q, p = k :: q ∧ (q, met) ∈ steps := by
  simp only [under, List.mem_map, Prod.mk.injEq, Prod.exists]
  constructor
  · rintro ⟨q, m, hm, rfl, rfl⟩; exact ⟨q, rfl, hm⟩
  · rintro ⟨q, rfl, hm⟩; exact ⟨q, met, hm, rfl, rfl⟩

theorem mem_stepsIn {entries : List (Key × Delta)} {k : Key} {below : List Step} :
    (k, below) ∈ stepsIn a entries ↔ ∃ d, (k, d) ∈ entries ∧ below = d.steps a := by
  induction entries with
  | nil => simp [stepsIn]
  | cons entry rest ih =>
    obtain ⟨l, d⟩ := entry
    simp only [stepsIn, List.mem_cons, Prod.mk.injEq, ih]
    constructor
    · rintro (⟨rfl, rfl⟩ | ⟨e, he, rfl⟩)
      · exact ⟨d, Or.inl ⟨rfl, rfl⟩, rfl⟩
      · exact ⟨e, Or.inr he, rfl⟩
    · rintro ⟨e, ⟨rfl, rfl⟩ | he, rfl⟩
      · exact Or.inl ⟨rfl, rfl⟩
      · exact Or.inr ⟨e, he, rfl⟩

theorem mem_steps_tree (ha : a.Permutes) {entries : List (Key × Delta)} {p : List Key}
    {met : Except Fault Change} :
    (p, met) ∈ (tree entries).steps a ↔
      ∃ k d q, (k, d) ∈ entries ∧ p = k :: q ∧ (q, met) ∈ d.steps a := by
  have hp := ha (stepsIn a entries)
  rw [steps, List.mem_flatMap]
  constructor
  · rintro ⟨⟨k, below⟩, hk, hm⟩
    obtain ⟨d, hd, rfl⟩ := mem_stepsIn.1 (hp.mem_iff.1 hk)
    obtain ⟨q, rfl, hq⟩ := mem_under.1 hm
    exact ⟨k, d, q, hd, rfl, hq⟩
  · rintro ⟨k, d, q, hd, rfl, hq⟩
    exact ⟨(k, d.steps a), hp.mem_iff.2 (mem_stepsIn.2 ⟨d, hd, rfl⟩), mem_under.2 ⟨q, rfl, hq⟩⟩

/-- Induction over a delta, with the claim at hand for every entry of a tree. -/
@[elab_as_elim]
theorem induction {motive : Delta → Prop} (nothing : motive .nothing) (node : ∀ c, motive (.node c))
    (tree : ∀ entries, (∀ k d, (k, d) ∈ entries → motive d) → motive (.tree entries))
    (other : ∀ v items, motive (.other v items)) (d : Delta) : motive d :=
  @Delta.rec motive (fun entries => ∀ k d, (k, d) ∈ entries → motive d) (fun _ => True)
    (fun entry => motive entry.2) nothing node tree (fun v items _ => other v items) (by simp)
    (fun _ _ he hrest => Fields.forall_cons.2 ⟨he, hrest⟩) trivial (fun _ _ _ _ => trivial)
    (fun _ _ h => h) d

/-- A walk over a delta without stray data meets its changes, and no fault. -/
theorem mem_steps_iff (ha : a.Permutes) {d : Delta} (h : d.stray? = none) {p : List Key}
    {met : Except Fault Change} : (p, met) ∈ d.steps a ↔ ∃ c, met = .ok c ∧ d.Stands p c := by
  induction d using Delta.induction generalizing p with
  | nothing =>
    rw [steps]
    refine iff_of_false (by simp) ?_
    rintro ⟨c, -, ⟨⟩⟩
  | node c =>
    rw [steps, List.mem_singleton, Prod.mk.injEq]
    constructor
    · rintro ⟨rfl, rfl⟩; exact ⟨c, rfl, .here c⟩
    · rintro ⟨c', rfl, ⟨⟩⟩; exact ⟨rfl, rfl⟩
  | tree entries ih =>
    have hs := stray?_tree.1 h
    rw [mem_steps_tree ha]
    constructor
    · rintro ⟨k, d, q, hm, rfl, hq⟩
      obtain ⟨c, rfl, hc⟩ := (ih k d hm (hs k d hm)).1 hq
      exact ⟨c, rfl, .down hm hc⟩
    · rintro ⟨c, rfl, hc⟩
      cases hc with
      | @down _ k d q _ hm hc => exact ⟨k, d, q, hm, rfl, (ih k d hm (hs k d hm)).2 ⟨c, rfl, hc⟩⟩
  | other v items => rw [stray?] at h; cases h

/-- The steps that meet changes. -/
def stepsOver (nodes : List (List Key × Change)) : List Step := nodes.map fun (p, c) => (p, .ok c)

theorem exists_stepsOver {steps : List Step} (h : ∀ p met, (p, met) ∈ steps → ∃ c, met = .ok c) :
    ∃ nodes, steps = stepsOver nodes := by
  induction steps with
  | nil => exact ⟨[], rfl⟩
  | cons step rest ih =>
    obtain ⟨q, met⟩ := step
    obtain ⟨c, rfl⟩ := h q met (by simp)
    obtain ⟨nodes, rfl⟩ := ih fun p met hp => h p met (by simp [hp])
    exact ⟨(q, c) :: nodes, rfl⟩

theorem mapM_stepsOver (nodes : List (List Key × Change)) :
    ((stepsOver nodes).mapM fun (path, met) => met.map (path, ·)) = .ok nodes := by
  induction nodes with
  | nil => rfl
  | cons node rest ih =>
    rw [stepsOver] at ih
    rw [stepsOver, List.map_cons, List.mapM_cons, ih]
    rfl

/-- A walk over a delta without stray data goes through its changes. -/
theorem steps_listed (ha : a.Permutes) {d : Delta} (h : d.stray? = none) :
    ∃ nodes, d.steps a = stepsOver nodes ∧ ∀ p c, (p, c) ∈ nodes ↔ d.Stands p c := by
  have met_ok : ∀ p met, (p, met) ∈ d.steps a → ∃ c, met = .ok c := by
    intro p met hp
    obtain ⟨c, hc, -⟩ := (mem_steps_iff ha h).1 hp
    exact ⟨c, hc⟩
  obtain ⟨nodes, hn⟩ := exists_stepsOver met_ok
  refine ⟨nodes, hn, fun p c => ?_⟩
  have met : (p, Except.ok c) ∈ d.steps a ↔ (p, c) ∈ nodes := by simp [hn, stepsOver]
  rw [← met, mem_steps_iff ha h]
  simp

/-- A delta without stray data lists its changes. -/
theorem changes_listed {d : Delta} (h : d.stray? = none) :
    ∃ nodes, d.changes = .ok nodes ∧ ∀ p c, (p, c) ∈ nodes ↔ d.Stands p c := by
  obtain ⟨nodes, hn, hm⟩ := steps_listed permutes_sorted h
  exact ⟨nodes, by rw [changes, hn, mapM_stepsOver], hm⟩

theorem Leads.at_of_stands {r : Reading} {u v : Value} {d : Delta} {p : List Key} {c : Change}
    (hs : d.Stands p c) : Leads r u v d → d.at_ p = .node c := by
  induction hs generalizing u v with
  | here c => exact fun _ => rfl
  | @down entries k d p c entry rest ih =>
    intro h
    cases h with
    | tree _ distinct _ _ _ below =>
      have hb := below k
      rw [Fields.get?_of_mem distinct entry] at hb
      rw [at_cons, child_tree, Fields.get?_of_mem distinct entry]
      exact ih hb

/-- Paths that are spelled alike, key by key. -/
abbrev SamePath (p q : List Key) : Prop := List.Forall₂ (fun k l => k.same l = true) p q

theorem exists_stands {d : Delta} {p : List Key} {c : Change} (h : d.at_ p = .node c) :
    ∃ q, SamePath p q ∧ d.Stands q c := by
  induction p generalizing d with
  | nil => cases h; exact ⟨[], .nil, .here c⟩
  | cons k p ih =>
    obtain ⟨q, hq, hs⟩ := ih (d := d.child k) h
    cases d with
    | tree entries =>
      cases hk : Fields.get? k entries with
      | none => rw [child_tree, hk] at hs; cases hs
      | some e =>
        rw [child_tree, hk] at hs
        obtain ⟨l, hl, hkl⟩ := Fields.exists_mem_of_get? hk
        exact ⟨l :: q, .cons hkl hq, .down hl hs⟩
    | nothing | node | other => cases hs

end Delta

end TreeDelta
