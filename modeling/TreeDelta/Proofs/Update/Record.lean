import TreeDelta.Value.Cells
import TreeDelta.Proofs.Update.Step
/-!
# What the delta of an update records

`Delta.Records run before after d` says that `d` is the full record of how a place came from
`before` to `after` in one update: a change holds the very values of both sides, a tree stands
where a new mapping was made, and where the delta says nothing the place holds what it held.
`Command.apply_records` proves it of every command by induction on the command tree;
`TreeDelta.Proofs.Update.Exact` reads it off path by path.
-/

namespace TreeDelta

/-- `d` records exactly how a place came from `before` to `after`; the mappings on the way were
made by the update `run`. -/
inductive Delta.Records (run : Nat) : Slot → Slot → Delta → Prop where
  | unchanged (slot : Slot) : Records run slot slot .nothing
  | added (v : Value) : Records run none (some v) (.node (.of .add .absent v))
  | changed (u v : Value) : Records run (some u) (some v) (.node (.of .change u v))
  | tree {before : Slot} {id : Ident} {fields : List (Key × Value)} {entries : List (Key × Delta)}
      (own : id.source = run)
      (open_ : ∀ v, before = some v → v.isAbsent = true ∨ v.fields?.isSome = true)
      (nonempty : entries ≠ [])
      (distinct : Fields.Distinct entries)
      (told : ∀ k, Fields.get? k entries ≠ some .nothing)
      (below : ∀ k, Records run (before.child k) (Fields.get? k fields)
        ((Fields.get? k entries).getD .nothing)) :
      Records run before (some (.map id fields)) (.tree entries)

open Delta (Records)

/-! ## One operation -/

theorem Site.set_records (run : Nat) (site : Site) (v : Value) :
    Records run site.slot ((site.set v).after site.slot) (site.set v).delta := by
  obtain ⟨k, slot⟩ := site
  unfold Site.set
  split
  · exact .unchanged _
  · cases slot with
    | none => exact .added v
    | some u => exact .changed u v

/-- A draft that was gone through with exact outcomes is committed with an exact delta. -/
theorem Draft.commit_records {α : Type} {run : Nat} {R : Key → α → Slot → Outcome → Prop}
    {before : Slot} {fields : List (Key × Value)} {entries : List (Key × α)} {last : Draft}
    {fresh : Ident} {source : Value} (own : fresh.source = run) (hopen : before.Opens fields)
    (hd : Fields.Distinct entries)
    (went : Draft.Went R (.start fields) entries last)
    (hR : ∀ k x o slot, (k, x) ∈ entries → R k x slot o → Records run slot (o.after slot) o.delta) :
    Records run before ((last.commit fresh source).after before) (last.commit fresh source).delta := by
  have below : ∀ k, Records run (before.child k)
      (((last.commit fresh source).after before).child k)
      ((last.commit fresh source).delta.child k) := by
    intro k
    obtain ⟨took, kept⟩ := commit_at fresh source hopen hd went
    cases hk : Fields.get? k entries with
    | none =>
      obtain ⟨e1, e2⟩ := kept k hk
      rw [e1, e2]; exact .unchanged _
    | some x =>
      obtain ⟨l, hl, hs⟩ := Fields.exists_mem_of_get? hk
      obtain ⟨o, ho, e1, e2⟩ := took l x hl
      rw [Slot.child_congr hs, Slot.child_congr hs, Delta.child_congr hs, e1, e2]
      exact hR l x o _ hl ho
  have ht := (went.spec hd).2.2 (Draft.tidy_start fields)
  unfold Draft.commit at below ⊢
  split
  · exact .unchanged _
  · rename_i hne
    simp only [hne] at below
    refine .tree own (fun v hv => ?_) (by simpa using hne) ht.distinct ht.told below
    subst hv; exact hopen.of_some

theorem Site.extend_records {run : Nat} {site : Site} {fresh : Ident} (own : fresh.source = run)
    {target : Option (List (Key × Value))} {extensions : List (Key × Value)}
    (hd : Fields.Distinct extensions) (ht : site.Targets target) :
    Records run site.slot ((site.extend fresh target extensions).after site.slot)
      (site.extend fresh target extensions).delta := by
  obtain ⟨key, slot⟩ := site
  cases target with
  | none =>
    cases slot with
    | none => exact .added _
    | some u => exact .changed u _
  | some fields =>
    cases slot with
    | none => cases ht
    | some u =>
      refine Draft.commit_records own (.mapping ht) hd (Draft.went_setAll _ extensions) ?_
      rintro k v o slot' - rfl
      exact Site.set_records run ⟨k, slot'⟩ v

theorem Operation.apply_records {call : Functions} {run : Nat} {fresh : Ident} {site : Site}
    {kind : Operation} {v : Value} {o : Outcome} (own : fresh.source = run) (hk : v.keyed = true)
    (h : kind.apply call fresh site v = .ok o) :
    Records run site.slot (o.after site.slot) o.delta := by
  cases did_of_apply h with
  | set => exact Site.set_records run site v
  | push hs | unshift hs =>
    obtain ⟨key, slot⟩ := site
    obtain ⟨u, rfl⟩ := Slot.of_sequence hs
    exact .changed u _
  | merge he ht => exact Site.extend_records own (Value.distinct_of_keyed hk he) ht
  | defaults he ht =>
    exact Site.extend_records own (Fields.distinct_filter (Value.distinct_of_keyed hk he)) ht
  | invoke hc => exact Site.set_records run site _

/-! ## Commands -/

theorem Command.apply_records {call : Functions} {run : Nat} {c : Command} :
    ∀ {place : List Key} {trail : Trail} {site : Site} {o : Outcome}, c.keyed = true →
      c.apply call run place trail site = .ok o → Records run site.slot (o.after site.slot) o.delta := by
  induction c using Command.induction with
  | op kind argument =>
    intro place trail site o hk h
    exact Operation.apply_records rfl hk h
  | unknown kind argument => intro place trail site o _ h; cases h
  | descend children ih =>
    intro place trail site o hk h
    obtain ⟨hd, hall⟩ := keyed_descend.1 hk
    obtain ⟨fields, last, source, hopen, hl, rfl⟩ := descend_ok h
    refine Draft.commit_records rfl hopen hd (went_applyAll hl) fun k c o slot hm ho => ?_
    exact ih k c hm (hall k c hm) ho

/-- The delta of an update is the exact record of how its result came from the source. -/
theorem Command.applyRoot_records {call : Functions} {run : Nat} {source : Value} {c : Command}
    {o : Outcome} (hk : c.keyed = true) (h : c.applyRoot call run source = .ok o) :
    Records run (some source) (some o.value) o.delta := by
  have hrec := apply_records hk (apply_of_applyRoot h)
  rw [applyRoot_after h] at hrec
  exact hrec

end TreeDelta
