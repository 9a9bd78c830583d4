import TreeDelta.Delta.Shared
import TreeDelta.Proofs.Cells.Entries
import TreeDelta.Proofs.Delta.Merge
/-!
# Merging without shared parts

Where nothing that a merge writes into stands at a second place, writing into the stored delta comes to
the same as `Delta.merge` (`Value.mergeDeltas_of_unshared`). The two follow one another case by case
(`merge_agrees`); in the loop, the mapping that is written into is what `Delta.mergeEntries` has reached.
-/

namespace TreeDelta

namespace Delta

/-! ## The delta of a value -/

theorem ofFields_eq (fields : List (Key × Value)) : ofFields fields = Fields.mapValues ofValue fields := by
  induction fields with
  | nil => rfl
  | cons entry rest ih => rw [ofFields, ih]; rfl

theorem ofValue_eq_nothing {v : Value} : ofValue v = .nothing ↔ v = .null := by
  cases v <;> simp [ofValue]

/-- What a delta that stands for a value can be. -/
theorem ofValue_cases (v : Value) :
    v = .null ∨ (∃ id label old new, v = .node id label old new) ∨ (∃ id fields, v = .map id fields) ∨
      v.fields? = none ∧ ∃ items, ofValue v = .other v items := by
  cases v <;> simp [ofValue, Value.fields?]

theorem getD_ofFields (k : Key) (fields : List (Key × Value)) :
    (Fields.get? k (ofFields fields)).getD .nothing = ofValue ((Fields.get? k fields).getD .null) := by
  rw [ofFields_eq, Fields.get?_mapValues]
  cases Fields.get? k fields <;> rfl

theorem writeEntry_ofFields (fields : List (Key × Value)) (k : Key) (w : Value) :
    writeEntry (ofFields fields) k (ofValue w) =
      ofFields (if w = .null then Fields.erase k fields else Fields.put k w fields) := by
  by_cases h : w = .null
  · rw [if_pos h, h, ofFields_eq, ofFields_eq, Fields.mapValues_erase]; rfl
  · have : ofValue w ≠ .nothing := fun e => h (ofValue_eq_nothing.1 e)
    have put : writeEntry (ofFields fields) k (ofValue w) = Fields.put k (ofValue w) (ofFields fields) := by
      cases e : ofValue w <;> first | exact absurd e this | rfl
    rw [if_neg h, put, ofFields_eq, ofFields_eq, Fields.mapValues_put]

theorem node_merge_ofValue {x : Change} {old new merging : Value} (told : merging ≠ .null)
    (no_change : ∀ id label before after, merging ≠ .node id label before after) :
    (node x).merge old new (ofValue merging) = .ok (purge (.node (x.extendTo new))) := by
  rcases ofValue_cases merging with e | ⟨_, _, _, _, e⟩ | ⟨id, fields, rfl⟩ | ⟨_, items, e⟩
  · exact absurd e told
  · exact absurd e (no_change _ _ _ _)
  · rw [ofValue, node_merge_tree]
  · rw [e, merge]

theorem ofValue_merge_node {y : Change} {old new stored : Value} (told : stored ≠ .null)
    (no_change : ∀ id label before after, stored ≠ .node id label before after) :
    (ofValue stored).merge old new (node y) = .ok (purge (.node (y.extendFrom old))) := by
  rcases ofValue_cases stored with e | ⟨_, _, _, _, e⟩ | ⟨id, fields, rfl⟩ | ⟨_, items, e⟩
  · exact absurd e told
  · exact absurd e (no_change _ _ _ _)
  · rw [ofValue, tree_merge_node]
  · rw [e, merge] <;> simp

theorem purge_cases (d : Delta) : d.purge = .nothing ∨ d.purge = d := by
  unfold purge
  split
  · split <;> simp
  · simp
  · split <;> simp
  · simp

end Delta

/-- Two changes in a row come to nothing, or to a change of a known kind between their ends. -/
theorem Change.merge_cases {x y : Change} {d : Delta} (h : x.merge y = .ok d) :
    d = .nothing ∨ ∃ kind new, d = .node (.of kind x.old new) ∧ (new = y.new ∨ new = .absent) := by
  unfold Change.merge at h
  split at h
  · split at h <;> cases h
    · exact .inl rfl
    · exact (Delta.purge_cases _).imp_right fun e => ⟨_, _, e, .inr rfl⟩
    · exact (Delta.purge_cases _).imp_right fun e => ⟨_, _, e, .inl rfl⟩
  · split at h <;> cases h

namespace Value

/-- What stands below a key is a part, if it is there. -/
theorem child_cases (v : Value) (k : Key) : v.child k = .absent ∨ v.child k ∈ v.parts := by
  unfold child
  cases v with
  | map id fields =>
    cases h : Fields.get? k fields with
    | none => exact .inl (by simp [fields?, h])
    | some a =>
      obtain ⟨l, hl, -⟩ := Fields.exists_mem_of_get? h
      have inside : a ∈ (map id fields).parts := List.mem_map_of_mem (f := (·.2)) hl
      exact .inr (by simpa [fields?, h] using inside)
  | _ => exact .inl rfl

theorem keyed_child {v : Value} (h : v.keyed = true) (k : Key) : (v.child k).keyed = true := by
  rcases v.child_cases k with e | hp
  · rw [e]; rfl
  · exact keyed_of_parts h hp

theorem idents_child {v : Value} {k : Key} {i : Ident} (h : i ∈ (v.child k).idents) : i ∈ v.idents := by
  rcases v.child_cases k with e | hp
  · rw [e] at h; cases h
  · exact mem_idents.2 (.inr ⟨_, hp, h⟩)

end Value

namespace Shared

open Cells Value Writing

variable {run bound fuel : Nat} {others : List Ident} {cells : Cells} {stored merging old new v w : Value}
  {d : Delta}

/-- A merge of values, written into what `u` was, has come to what is expected of a merge of deltas. -/
def Agrees (run bound : Nat) (others : List Ident) (before : Cells) (u : Value)
    (expected : Except (MergeFault Delta) Delta) : Except Fault Value × Cells → Prop
  | (.ok v, after) => ∃ w, expected = .ok (.ofValue w) ∧ Grown run others before after u w ∧
      ∀ n, bound ≤ n → after.settled n v = w
  | (.error fault, _) => ∃ e, expected = .error e ∧ e.fault = fault

/-! ## Where no loop runs -/

/-- A value made of what there is. -/
structure MadeOf (others : List Ident) (stored v : Value) : Prop where
  keyed : v.keyed = true
  drawn : ∀ i ∈ v.idents, i ∈ stored.idents ∨ i ∈ others

theorem madeOf_bare (keyed : v.keyed = true) (bare : v.idents = []) : MadeOf others stored v :=
  ⟨keyed, by simp [bare]⟩

theorem madeOf_part (keyed : stored.keyed = true) (h : v ∈ stored.parts) : MadeOf others stored v :=
  ⟨keyed_of_parts keyed h, fun _ hi => .inl (mem_idents.2 (.inr ⟨v, h, hi⟩))⟩

theorem madeOf_other (keyed : v.keyed = true) (aside : ∀ i ∈ v.idents, i ∈ others) : MadeOf others stored v :=
  ⟨keyed, fun i hi => .inr (aside i hi)⟩

theorem agrees_same (ready : Ready run others cells stored) (made : MadeOf others stored v) :
    Agrees run bound others cells stored (.ok (.ofValue v)) (.ok v, cells) :=
  ⟨v, rfl, ready.grown made.drawn made.keyed, fun n _ => (ready.untouched_of made.drawn).settled n⟩

/-- A merged change is a new one. -/
theorem ofMerged_agrees (ready : Ready run others cells stored) (h : d = .nothing ∨ ∃ c, d = .node c ∧
      MadeOf others stored c.label ∧ MadeOf others stored c.old ∧ MadeOf others stored c.new) :
    Agrees run bound others cells stored (.ok d) ((ofMerged run d).from_ cells) := by
  rcases h with rfl | ⟨c, rfl, label, old, new⟩
  · exact agrees_same ready (madeOf_bare (v := .null) rfl rfl)
  · have drawn : ∀ i ∈ (node (cells.coming run) c.label c.old c.new).idents,
        i = cells.coming run ∨ i ∈ stored.idents ∨ i ∈ others := fun i hi => by
      simp only [idents, List.mem_cons, List.mem_append] at hi
      refine hi.imp_right ?_
      rintro ((hi | hi) | hi)
      · exact label.drawn i hi
      · exact old.drawn i hi
      · exact new.drawn i hi
    have keyed : (node (cells.coming run) c.label c.old c.new).keyed = true := by
      simp [Value.keyed, label.keyed, old.keyed, new.keyed]
    exact ⟨_, rfl, ready.grown_new drawn keyed, fun n _ => (ready.untouched_new drawn).settled n⟩

/-- What is left of the stored delta, unless it says nothing. -/
theorem purged_agrees {after : Cells} (g : Grown run others cells after stored w)
    (now : ∀ n, bound ≤ n → after.settled n stored = w)
    (told : (Delta.ofValue (after.current stored)).purge.isNothing = (Delta.ofValue w).purge.isNothing) :
    Agrees run bound others cells stored (.ok (Delta.ofValue w).purge) ((purged stored).from_ after) := by
  rw [purged, from_bind, from_current]
  simp only [andThen_ok, told, from_pure]
  rcases (Delta.ofValue w).purge_cases with e | e
  · rw [e]
    exact ⟨.null, rfl, g.null, fun n _ => untouched_null.settled n⟩
  · rw [e]
    cases hw : (Delta.ofValue w).isNothing with
    | true =>
      have := Delta.ofValue_eq_nothing.1 (by cases h : Delta.ofValue w <;> simp_all [Delta.isNothing])
      subst this
      exact ⟨.null, rfl, g.null, fun n _ => untouched_null.settled n⟩
    | false => exact ⟨w, rfl, g, now⟩

/-- A stored change is led on to the latest value. -/
theorem extend_agrees {id : Ident} {label before after : Value}
    (ready : Ready run others cells (.node id label before after)) (keyed : new.keyed = true)
    (drawn : ∀ i ∈ new.idents, i ∈ others) (small : 0 < bound) :
    Agrees run bound others cells (.node id label before after)
      (.ok (Delta.purge (.node ⟨label, before, new⟩)))
      ((do
        write id (.node id label before new)
        purged (.node id label before after) : Writing Value).from_ cells) := by
  rw [from_bind, from_write, andThen_ok]
  have drawn' : ∀ i ∈ (node id label before new).idents,
      i ∈ (node id label before after).idents ∨ i ∈ others := fun i hi => by
    simp only [idents, List.mem_cons, List.mem_append] at hi ⊢
    rcases hi with hi | (hi | hi) | hi <;> simp [hi, drawn i]
  have grown : Grown run others cells (cells.write id (node id label before new))
      (node id label before after) (node id label before new) :=
    { tidy := ready.tidy.write rfl (ready.given id (.inl (mem_idents.2 (.inl rfl))))
      next := Nat.le_refl _
      kept := fun i _ hi => lookup_write_ne _ _ _ i fun e => hi (List.mem_singleton.2 e)
      drawn := fun i hi _ => drawn' i hi
      given := fun i hi => ready.given i (drawn' i hi)
      keyed := by have := ready.keyed; simp_all [Value.keyed] }
  refine purged_agrees grown (fun n hn => ?_) (by rw [current_write rfl])
  obtain ⟨n, rfl⟩ : ∃ m, n = m + 1 := ⟨n - 1, by omega⟩
  rw [settled_succ, current_write rfl]
  -- what stands in the change is not written into
  refine mapParts_self fun p hp => Untouched.settled (fun i hi => ?_) n
  have inside := drawn' i (mem_idents.2 (.inr ⟨p, hp, hi⟩))
  have other : i ≠ id := by
    rintro rfl
    obtain ⟨apart, once⟩ := ready.unshared.root_node
    simp only [parts, List.mem_cons, List.not_mem_nil, or_false] at hp
    rcases hp with rfl | rfl | rfl
    · exact once (by simp [hi])
    · exact once (by simp [hi])
    · exact apart (drawn i hi)
  rw [lookup_write_ne _ _ _ i other]
  exact inside.elim (ready.untouched i) (ready.aside i)

/-! ## The whole merge -/

/-- A merged entry is written, or taken out if nothing is left of it. -/
theorem written_turn {start later : Cells} {id : Ident} {first found fields : List (Key × Value)} {k : Key}
    {ahead : List Key} (midway : Midway run bound others start id first found fields (k :: ahead) cells)
    (ready : Ready run others start (.map id first)) (apart : ∀ l ∈ ahead, k.same l = false)
    (grown : Grown run others cells later ((Fields.get? k found).getD .null) w)
    (now : ∀ n, bound ≤ n → later.settled n v = w) :
    ∃ after found' fields', (writeBelow (.map id first) k v).from_ later = (.ok (), after) ∧
      Midway run bound others start id first found' fields' ahead after ∧
      Delta.ofFields fields' = writeEntry (Delta.ofFields fields) k (.ofValue w) := by
  have null : v = .null ↔ w = .null := by rw [← now bound (Nat.le_refl _), grown.tidy.settled_eq_null]
  have written : (writeBelow (.map id first) k v).from_ later =
      (.ok (), later.write id (.map id (if v = .null then Fields.erase k found else Fields.put k v found))) := by
    rw [writeBelow, from_bind, from_current, midway.current_eq grown]; rfl
  rw [written, Delta.writeEntry_ofFields]
  by_cases gone : v = .null
  · rw [if_pos gone, if_pos (null.1 gone)]
    exact ⟨_, _, _, rfl, midway.erase ready grown apart, rfl⟩
  · rw [if_neg gone, if_neg fun h => gone (null.2 h)]
    exact ⟨_, _, _, rfl, midway.put ready grown apart now, rfl⟩

/-- The loop over the entries of the later tree. -/
theorem entries_agree {id lid : Ident} {first later : List (Key × Value)}
    (ready : Ready run others cells (.map id first)) (keyed : (Value.map lid later).keyed = true)
    (aside : ∀ i ∈ (Value.map lid later).idents, i ∈ others) (small : sizesIn first ≤ bound)
    (each : ∀ k v, (k, v) ∈ later → ∀ {stored : Value} {cells : Cells}, Ready run others cells stored →
      stored.size ≤ bound → Agrees run bound others cells stored
        (Delta.merge (.ofValue stored) (old.child k) (new.child k) (.ofValue v))
        ((merge run fuel stored v (old.child k) (new.child k)).from_ cells))
    (small' : sizesIn later ≤ bound)
    (old_aside : ∀ i ∈ old.idents, i ∈ others) (new_aside : ∀ i ∈ new.idents, i ∈ others) :
    Agrees run (bound + 1) others cells (.map id first)
      (Delta.merge (.tree (Delta.ofFields first)) old new (.tree (Delta.ofFields later)))
      ((do
        forEntries (.map lid later) fun k entry => do
          let oldBelow := (← current old).child k
          let newBelow := (← current new).child k
          let merged ← merge run fuel (← storedBelow (.map id first) k) entry oldBelow newBelow
          writeBelow (.map id first) k merged
        purged (.map id first) : Writing Value).from_ cells) := by
  rw [from_bind]
  -- the mapping is midway, and the rest of the loop leads from where it is to the same end
  refine forEntries_rule (P := fun rest c => ∃ found fields,
      Midway run bound others cells id first found fields (Fields.keys rest) c ∧
      (∀ e ∈ rest, e ∈ later) ∧ Fields.Distinct rest ∧
      Delta.mergeEntries (Delta.ofFields fields) old new (Delta.ofFields rest) =
        Delta.mergeEntries (Delta.ofFields first) old new (Delta.ofFields later))
    (Q := fun outcome => Agrees run (bound + 1) others cells (.map id first)
      (Delta.merge (.tree (Delta.ofFields first)) old new (.tree (Delta.ofFields later)))
      (andThen (fun _ => purged (.map id first)) outcome)) ?still ?each ?last ?first
  case still =>
    rintro rest c ⟨found, fields, midway, -⟩
    exact Untouched.current fun i hi => midway.aside ready (aside i hi)
  case first =>
    exact ⟨first, first, ready.midway small _, fun _ he => he, distinct_of_keyed keyed rfl, rfl⟩
  case last =>
    rintro c ⟨found, fields, midway, -, -, reached⟩
    rw [Delta.tree_merge_tree, ← reached]
    refine purged_agrees midway.grown (fun n hn => ?_) ?_
    · obtain ⟨n, rfl⟩ : ∃ m, n = m + 1 := ⟨n - 1, by omega⟩
      rw [settled_succ, midway.current, mapParts, midway.each n (by omega)]
    · rw [midway.current, ← midway.each bound (Nat.le_refl _)]
      cases found <;> rfl
  case each =>
    rintro k v rest c ⟨found, fields, midway, inside, distinct, reached⟩
    have pos : 0 < bound :=
      Nat.lt_of_lt_of_le v.size_pos (Nat.le_trans (size_le_sizesIn (inside (k, v) List.mem_cons_self)) small')
    have turn := each k v (inside _ List.mem_cons_self) (midway.ready ready) (midway.small pos)
    have old_now : c.current old = old := Untouched.current fun i hi => midway.aside ready (old_aside i hi)
    have new_now : c.current new = new := Untouched.current fun i hi => midway.aside ready (new_aside i hi)
    have below : (storedBelow (.map id first) k).from_ c = (.ok ((Fields.get? k found).getD .null), c) := by
      rw [storedBelow, from_bind, from_current, midway.current]; rfl
    simp only [from_bind, from_current, old_now, new_now, below, andThen_ok]
    rw [Delta.ofFields, Delta.mergeEntries, Delta.getD_ofFields, midway.get?_eq List.mem_cons_self] at reached
    generalize (merge run fuel ((Fields.get? k found).getD .null) v (old.child k) (new.child k)).from_ c =
      result at turn ⊢
    rcases result with ⟨fault | v', after⟩
    · obtain ⟨e, failed, rfl⟩ := turn
      rw [failed] at reached
      exact ⟨⟨e.fault, .tree _⟩, by rw [Delta.tree_merge_tree, ← reached], rfl⟩
    · obtain ⟨w, merged, grown, now⟩ := turn
      obtain ⟨later, found', fields', written, midway, filled⟩ :=
        written_turn midway ready (fun l => Fields.apart_of_distinct distinct) grown now
      rw [merged] at reached
      rw [andThen_ok, written]
      exact ⟨found', fields', midway, fun e he => inside e (List.mem_cons_of_mem _ he),
        (Fields.distinct_cons.1 distinct).2, by rw [filled]; exact reached⟩

/-- Entries are not merged into what is no mapping. -/
theorem plain_agrees {items : List Delta} {lid : Ident} {later : List (Key × Value)}
    {step : Key → Value → Writing Unit} (ready : Ready run others cells stored)
    (untouched : cells.Untouched (.map lid later)) (is : Delta.ofValue stored = .other stored items)
    (refuses : ∀ k v, (step k v).from_ cells = (.error (.unsupported stored.type), cells)) :
    Agrees run bound others cells stored
      (Delta.merge (.other stored items) old new (.tree (Delta.ofFields later)))
      ((do forEntries (.map lid later) step; purged stored : Writing Value).from_ cells) := by
  rw [from_bind]
  refine forEntries_rule (P := fun rest c => c = cells ∧ rest = later)
    (Q := fun outcome => Agrees run bound others cells stored
      (Delta.merge (.other stored items) old new (.tree (Delta.ofFields later)))
      (andThen (fun _ => purged stored) outcome)) ?still ?each ?last ⟨rfl, rfl⟩
  case still =>
    rintro rest c ⟨rfl, -⟩
    exact untouched.current
  case each =>
    rintro k v rest c ⟨rfl, rfl⟩
    rw [refuses]
    exact ⟨⟨.unsupported stored.type, _⟩, by rw [Delta.merge]; rfl, rfl⟩
  case last =>
    rintro c ⟨rfl, rfl⟩
    have merged : Delta.merge (.other stored items) old new (.tree (Delta.ofFields [])) =
        .ok (Delta.ofValue stored).purge := by rw [Delta.merge, is]; rfl
    rw [merged]
    exact purged_agrees (ready.grown (fun _ => .inl) ready.keyed)
      (fun n _ => ready.untouched.settled n) (by rw [ready.untouched.current])

/-- Written into a value in which nothing has a second place, a merge comes to the merge of deltas. -/
theorem merge_agrees (fuel : Nat) : ∀ {stored merging old new : Value} {cells : Cells} (bound : Nat),
    merging.size ≤ fuel → Ready run others cells stored →
    merging.keyed = true → old.keyed = true → new.keyed = true →
    (∀ i, i ∈ merging.idents ∨ i ∈ old.idents ∨ i ∈ new.idents → i ∈ others) →
    stored.size ≤ bound → merging.size ≤ bound →
    Agrees run bound others cells stored (Delta.merge (.ofValue stored) old new (.ofValue merging))
      ((merge run fuel stored merging old new).from_ cells) := by
  induction fuel with
  | zero =>
    intro _ merging _ _ _ _ small
    have := merging.size_pos
    omega
  | succ fuel ih =>
    intro stored merging old new cells bound fits ready keyed keyed_old keyed_new aside small small'
    have untouched : cells.Untouched merging := fun i hi => ready.aside i (aside i (.inl hi))
    rw [Shared.merge, from_bind, from_current, ready.untouched.current]
    simp only [from_bind, from_current, untouched.current, andThen_ok]
    have old_aside : ∀ i ∈ old.idents, i ∈ others := fun i hi => aside i (.inr (.inl hi))
    have new_aside : ∀ i ∈ new.idents, i ∈ others := fun i hi => aside i (.inr (.inr hi))
    have theirs : ∀ p ∈ merging.parts, MadeOf others stored p := fun p hp =>
      madeOf_other (keyed_of_parts keyed hp) fun i hi => aside i (.inl (mem_idents.2 (.inr ⟨p, hp, hi⟩)))
    split
    next =>
      rw [Delta.ofValue, Delta.nothing_merge]
      exact agrees_same ready (madeOf_other keyed fun i hi => aside i (.inl hi))
    next =>
      rw [Delta.ofValue, Delta.merge_nothing]
      exact agrees_same ready ⟨ready.keyed, fun i => .inl⟩
    next id label before after _ laterLabel laterBefore laterAfter =>
      rw [Delta.ofValue, Delta.ofValue, Delta.merge]
      cases met : Change.merge ⟨label, before, after⟩ ⟨laterLabel, laterBefore, laterAfter⟩ with
      | error fault => exact ⟨_, rfl, rfl⟩
      | ok d =>
        refine ofMerged_agrees ready ((Change.merge_cases met).imp_right ?_)
        rintro ⟨kind, last, rfl, last_of⟩
        refine ⟨_, rfl, madeOf_bare rfl rfl, madeOf_part ready.keyed (by simp [parts]), ?_⟩
        rcases last_of with rfl | rfl
        · exact theirs _ (by simp [parts])
        · exact madeOf_bare rfl rfl
    next id label before after told no_change =>
      rw [Delta.ofValue, Delta.node_merge_ofValue told no_change]
      exact extend_agrees ready keyed_new new_aside (Nat.lt_of_lt_of_le (size_pos _) small)
    next _ label before after told no_change =>
      rw [Delta.ofValue.eq_2, Delta.ofValue_merge_node told no_change]
      refine ofMerged_agrees ready ((Delta.purge_cases _).imp_right fun e => ⟨_, e, ?_⟩)
      refine ⟨?_, madeOf_other keyed_old old_aside, theirs after (by simp [parts])⟩
      unfold Change.extendFrom
      dsimp only
      split
      · exact madeOf_bare rfl rfl
      · exact theirs label (by simp [parts])
    next told no_change told' no_change' _ =>
      rcases Delta.ofValue_cases merging with rfl | ⟨_, _, _, _, rfl⟩ | ⟨lid, later, rfl⟩ | ⟨plain', items', is'⟩
      · exact absurd rfl told'
      · exact absurd rfl (no_change' _ _ _ _)
      · rcases Delta.ofValue_cases stored with rfl | ⟨_, _, _, _, rfl⟩ | ⟨id, first, rfl⟩ | ⟨plain, items, is⟩
        · exact absurd rfl told
        · exact absurd rfl (no_change _ _ _ _)
        · rw [Value.size] at small small' fits
          obtain ⟨bound, rfl⟩ : ∃ b, bound = b + 1 := ⟨bound - 1, by omega⟩
          refine entries_agree ready keyed (fun i hi => aside i (.inl hi)) (by omega) ?_ (by omega)
            old_aside new_aside
          intro k v hm stored cells ready small
          have := size_le_sizesIn hm
          refine ih bound (by omega) ready (keyed_of_parts keyed (List.mem_map_of_mem hm)) (keyed_child keyed_old k)
            (keyed_child keyed_new k) ?_ small (by omega)
          rintro i (hi | hi | hi)
          · exact aside i (.inl (mem_idents.2 (.inr ⟨v, List.mem_map_of_mem hm, hi⟩)))
          · exact old_aside i (idents_child hi)
          · exact new_aside i (idents_child hi)
        · rw [is]
          refine plain_agrees ready untouched is fun k v => ?_
          simp only [from_bind, from_current, andThen_ok, storedBelow, ready.untouched.current]
          split
          · cases plain
          · rfl
      · rw [is', from_bind, forEntries_none untouched.current plain', andThen_error]
        rcases Delta.ofValue_cases stored with rfl | ⟨_, _, _, _, rfl⟩ | ⟨id, first, rfl⟩ | ⟨_, items, is⟩
        · exact absurd rfl told
        · exact absurd rfl (no_change _ _ _ _)
        · exact ⟨_, by rw [Delta.ofValue, Delta.merge] <;> simp, rfl⟩
        · exact ⟨_, by rw [is, Delta.merge] <;> simp, rfl⟩

end Shared

/-- Where nothing that a merge writes into has a second place, merging values is merging deltas, and the
later one is left alone. -/
theorem Value.mergeDeltas_of_unshared {run : Nat} {stored merging old new : Value}
    (unshared : stored.Unshared (merging.idents ++ old.idents ++ new.idents))
    (keyed : ∀ v ∈ [stored, merging, old, new], v.keyed = true)
    (new_run : ∀ v ∈ [stored, merging, old, new], ∀ i ∈ v.idents, i.source ≠ run) :
    Value.mergeDeltas run stored merging old new =
      match Delta.merge (.ofValue stored) old new (.ofValue merging) with
      | .ok d => .ok (d, .ofValue merging)
      | .error e => .error e.fault := by
  simp only [List.forall_mem_cons] at keyed new_run
  obtain ⟨keyed, keyed_later, keyed_old, keyed_new, -⟩ := keyed
  obtain ⟨mine, theirs, olds, news, -⟩ := new_run
  have ready : Cells.Ready run (merging.idents ++ old.idents ++ new.idents) {} stored :=
    .initial unshared keyed fun i hi => by
      simp only [List.mem_append] at hi
      rcases hi with hi | (hi | hi) | hi
      · exact mine i hi
      · exact theirs i hi
      · exact olds i hi
      · exact news i hi
  obtain ⟨size, total⟩ : ∃ n, n = stored.size + merging.size + old.size + new.size := ⟨_, rfl⟩
  have agrees := Shared.merge_agrees size size (by omega) ready keyed_later keyed_old keyed_new
    (fun i hi => by simpa [or_assoc] using hi) (by omega) (by omega)
  rw [mergeDeltas, ← total, ← Writing.from_.eq_1]
  generalize (Shared.merge run size stored merging old new).from_ {} = result at agrees ⊢
  rcases result with ⟨fault | v, after⟩
  · obtain ⟨e, failed, rfl⟩ := agrees
    rw [failed]
  · obtain ⟨w, merged, grown, now⟩ := agrees
    have left : after.Untouched merging := fun i hi => by
      have other : i ∈ merging.idents ++ old.idents ++ new.idents := by simp [hi]
      rw [grown.kept i (ready.given i (.inr other)) fun hw => unshared.apart i hw other]
      rfl
    simp only [merged, now size (Nat.le_refl _), left.settled]

end TreeDelta
