import TreeDelta.Delta.Valid
import TreeDelta.Proofs.Place
import TreeDelta.Proofs.Shape
/-!
# What a delta leads from and to

`Delta.Leads r u v d` says that `d` leads from `u` to `v`, where the reading `r` tells what counts
as equal at either end of a change and whether removals may occur. The delta of an update, the net
delta of a series of updates and a delta given by hand are read differently, but all compose in
the same way; `Reading.Joins` lists what that takes.
-/

namespace TreeDelta

/-- A value that is full, or absent as a whole. -/
def Value.Sound (v : Value) : Prop := v.Full ∨ v = .absent

theorem Value.sound_absent : Value.absent.Sound := Or.inr rfl

theorem Value.Sound.full {v : Value} {fields : List (Key × Value)} (h : v.Sound)
    (hf : v.fields? = some fields) : v.Full := by
  rcases h with h | rfl
  · exact h
  · cases hf

theorem Value.Sound.distinct {v : Value} {fields : List (Key × Value)} (h : v.Sound)
    (hf : v.fields? = some fields) : Fields.Distinct fields := distinct_of_keyed (h.full hf).1 hf

theorem Value.Sound.present {v : Value} {fields : List (Key × Value)} (h : v.Sound)
    (hf : v.fields? = some fields) (k : Key) : Fields.get? k fields ≠ some .absent := by
  intro hk
  have hv := h.full hf
  cases v with
  | map id entries => cases hf; exact ne_absent_of_whole (whole_of_get? hv.2 hk) rfl
  | _ => cases hf

theorem Value.child_eq_absent {v : Value} (h : v.fields? = none) (k : Key) : v.child k = .absent := by
  simp [Value.child, h]

theorem Value.Sound.child {v : Value} (h : v.Sound) (k : Key) : (v.child k).Sound := by
  cases v with
  | map id fields =>
    unfold Value.child
    cases hk : Fields.get? k fields with
    | none => simpa [fields?, hk] using sound_absent
    | some w =>
      have hw : w.Sound := Or.inl ((full_map.1 (h.full rfl)).2 k w hk)
      simpa [fields?, hk] using hw
  | _ => rw [child_eq_absent rfl]; exact sound_absent

/-- What counts as equal at the ends of a change, and whether there may be removals. -/
structure Reading where
  /-- A value and what a delta tells of it as the old one. -/
  before : Value → Value → Prop
  /-- What a delta tells as the new value, and the value. -/
  after : Value → Value → Prop
  removals : Prop

/-- The delta leads from the first value to the second; `absent` stands for nothing there. -/
inductive Delta.Leads (r : Reading) : Value → Value → Delta → Prop where
  | still {u v : Value} (equal : r.before u v) : Leads r u v .nothing
  | add {v new : Value} (here : v ≠ .absent) (after : r.after new v) :
      Leads r .absent v (.node (.of .add .absent new))
  | change {u v old new : Value} (there : u ≠ .absent) (here : v ≠ .absent)
      (before : r.before u old) (after : r.after new v) :
      Leads r u v (.node (.of .change old new))
  | remove {u old : Value} (allowed : r.removals) (there : u ≠ .absent) (before : r.before u old) :
      Leads r u .absent (.node (.of .remove old .absent))
  | tree {u v : Value} {entries : List (Key × Delta)} (nonempty : entries ≠ [])
      (distinct : Fields.Distinct entries) (told : ∀ k, Fields.get? k entries ≠ some .nothing)
      (open_ : u.isAbsent = true ∨ u.fields?.isSome = true) (mapping : v.fields?.isSome = true)
      (below : ∀ k, Leads r (u.child k) (v.child k) ((Fields.get? k entries).getD .nothing)) :
      Leads r u v (.tree entries)

open Delta (Leads)

/-! ## Laws -/

/-- A relation between values that agrees on what is absent and on what is a mapping, and passes
to what stands below a key. -/
structure Likeness (P : Value → Value → Prop) : Prop where
  refl : ∀ v, P v v
  absent : ∀ {u v}, P u v → (u = .absent ↔ v = .absent)
  open_ : ∀ {u v}, P u v → u.isAbsent = v.isAbsent
  mapping : ∀ {u v}, P u v → u.fields?.isSome = v.fields?.isSome
  child : ∀ {u v}, u.Sound → v.Sound → P u v → ∀ k, P (u.child k) (v.child k)

/-- A delta read by `s` that follows one read by `r` makes with it one that is again read by `r`. -/
structure Reading.Joins (r s : Reading) : Prop where
  before : Likeness r.before
  later : Likeness s.before
  /-- Mappings are equal if they are below every key. -/
  ext : ∀ {u v : Value}, u.Sound → v.Sound → u.fields?.isSome = true → v.fields?.isSome = true →
    (∀ k, r.before (u.child k) (v.child k)) → r.before u v
  trans : ∀ {u v w}, r.before u v → s.before v w → r.before u w
  /-- Changes that come back to what counts as unchanged amount to nothing. -/
  undone : ∀ {u v old new}, r.before u old → old.same new = true → r.after new v → r.before u v
  after_refl : ∀ v, r.after v v
  after_absent : ∀ {new v}, r.after new v → (new = .absent ↔ v = .absent)
  after_trans : ∀ {new v w}, r.after new v → s.before v w → r.after new w
  after_later : ∀ {new v}, s.after new v → r.after new v
  removals : s.removals → r.removals

@[simp] theorem Change.old_of (kind : ChangeKind) (old new : Value) : (of kind old new).old = old := rfl

@[simp] theorem Change.new_of (kind : ChangeKind) (old new : Value) : (of kind old new).new = new := rfl

namespace Delta

/-! ## Deltas that lead somewhere are well formed -/

theorem faultIn?_none {entries : List (Key × Delta)}
    (h : ∀ k d, (k, d) ∈ entries → ∀ trail, d.fault? trail = none) (trail : Trail) :
    faultIn? trail entries = none := by
  induction entries with
  | nil => rfl
  | cons entry rest ih =>
    obtain ⟨he, hr⟩ := Fields.forall_cons.1 h
    rw [faultIn?, he]; exact ih hr

variable {r s : Reading} {u v w : Value} {d : Delta}

theorem Leads.fault_none (hb : Likeness r.before)
    (ha : ∀ {new v}, r.after new v → (new = .absent ↔ v = .absent)) (h : Leads r u v d)
    (hd : d ≠ .nothing) (trail : Trail) : d.fault? trail = none := by
  induction h generalizing trail with
  | still => exact absurd rfl hd
  | add here after =>
    have hn := mt (ha after).1 here
    simp [fault?, Change.fault?, hn]
  | change there here before after =>
    have hn := mt (ha after).1 here
    have ho := mt (hb.absent before).2 there
    simp [fault?, Change.fault?, hn, ho]
  | remove allowed there before =>
    have ho := mt (hb.absent before).2 there
    simp [fault?, Change.fault?, ho]
  | @tree u v entries nonempty distinct told _ _ _ ih =>
    obtain ⟨e, es, rfl⟩ := List.exists_cons_of_ne_nil nonempty
    rw [fault?]
    refine faultIn?_none (fun k d hm trail => ?_) trail
    have hk := Fields.get?_of_mem distinct hm
    have := ih k (by rw [hk]; rintro rfl; exact told k hk) trail
    rwa [hk] at this

theorem Leads.valid (hb : Likeness r.before)
    (ha : ∀ {new v}, r.after new v → (new = .absent ↔ v = .absent)) (h : Leads r u v d) :
    d = .nothing ∨ d.isValid = true := by
  by_cases hd : d = .nothing
  · exact Or.inl hd
  · exact Or.inr (by rw [isValid, h.fault_none hb ha hd]; rfl)

theorem Leads.single {k : Key} (told : d ≠ .nothing)
    (open_ : u.isAbsent = true ∨ u.fields?.isSome = true) (mapping : v.fields?.isSome = true)
    (there : Leads r (u.child k) (v.child k) d)
    (elsewhere : ∀ l : Key, l.same k = false → r.before (u.child l) (v.child l)) :
    Leads r u v (.tree [(k, d)]) := by
  refine .tree (by simp) (by simp [Fields.Distinct, Fields.keys]) (fun l => ?_) open_ mapping fun l => ?_
  · rw [Fields.get?_cons]
    split <;> simp [told]
  · rw [Fields.get?_cons]
    by_cases hl : l.same k = true
    · rw [if_pos hl, Value.child_congr hl, Value.child_congr hl]; exact there
    · rw [if_neg hl]; exact .still (elsewhere l (by simpa using hl))

/-! ## Where one end stays as it is -/

theorem leads_nothing : Leads r u v .nothing ↔ r.before u v :=
  ⟨fun h => by cases h with | still equal => exact equal, .still⟩

theorem Leads.of_absent (h : Leads r .absent .absent d) : d = .nothing := by
  cases h with
  | still => rfl
  | add here => exact absurd rfl here
  | change there => exact absurd rfl there
  | remove _ there => exact absurd rfl there
  | tree _ _ _ _ mapping => cases mapping

/-- Whatever leads on from `v` leads on from what counts as equal to it. -/
theorem Leads.after_still (hj : r.Joins s) (h : Leads s v w d) :
    ∀ {u : Value}, u.Sound → v.Sound → r.before u v → Leads r u w d := by
  induction h with
  | still equal => intro u _ _ hu; exact .still (hj.trans hu equal)
  | add here after =>
    intro u _ _ hu
    rw [(hj.before.absent hu).2 rfl]
    exact .add here (hj.after_later after)
  | change there here before after =>
    intro u _ _ hu
    exact .change (mt (hj.before.absent hu).1 there) here (hj.trans hu before) (hj.after_later after)
  | remove allowed there before =>
    intro u _ _ hu
    exact .remove (hj.removals allowed) (mt (hj.before.absent hu).1 there) (hj.trans hu before)
  | tree nonempty distinct told open_ mapping _ ih =>
    intro u hsu hsv hu
    refine .tree nonempty distinct told ?_ mapping fun k =>
      ih k (hsu.child k) (hsv.child k) (hj.before.child hsu hsv hu k)
    rwa [hj.before.open_ hu, hj.before.mapping hu]

/-- What leads to `v` leads to what counts as equal to it. -/
theorem Leads.before_still (hj : r.Joins s) (h : Leads r u v d) :
    ∀ {w : Value}, v.Sound → w.Sound → s.before v w → Leads r u w d := by
  induction h with
  | still equal => intro w _ _ hw; exact .still (hj.trans equal hw)
  | add here after =>
    intro w _ _ hw
    exact .add (mt (hj.later.absent hw).2 here) (hj.after_trans after hw)
  | change there here before after =>
    intro w _ _ hw
    exact .change there (mt (hj.later.absent hw).2 here) before (hj.after_trans after hw)
  | remove allowed there before =>
    intro w _ _ hw
    rw [(hj.later.absent hw).1 rfl]
    exact .remove allowed there before
  | tree nonempty distinct told open_ mapping _ ih =>
    intro w hsv hsw hw
    refine .tree nonempty distinct told open_ ?_ fun k =>
      ih k (hsv.child k) (hsw.child k) (hj.later.child hsv hsw hw k)
    rwa [← hj.later.mapping hw]

/-! ## Path by path -/

theorem Leads.exists_node (h : Leads r u v d) (hd : d ≠ .nothing) : ∃ p c, d.at_ p = .node c := by
  induction h with
  | still => exact absurd rfl hd
  | add | change | remove => exact ⟨[], _, rfl⟩
  | tree nonempty distinct told _ _ _ ih => exact exists_node_of_tree nonempty distinct told ih

/-- At a change stand values that count as equal to its own. -/
theorem Leads.node_at (hb : Likeness r.before) (hr : ¬ r.removals) (h : Leads r u v d) {p : List Key}
    {c : Change} (hc : d.at_ p = .node c) :
    r.before (u.at_ p) c.old ∧ r.after c.new (v.at_ p) ∧ v.at_ p ≠ .absent ∧
      (c.kind? = some .add ↔ u.at_ p = .absent) := by
  induction h generalizing p with
  | still => simp at hc
  | add here after =>
    cases p with
    | nil => cases hc; exact ⟨hb.refl _, after, here, by simp⟩
    | cons k p => simp at hc
  | change there here before after =>
    cases p with
    | nil => cases hc; exact ⟨before, after, here, by simpa using there⟩
    | cons k p => simp at hc
  | remove allowed => exact absurd allowed hr
  | tree _ _ _ _ _ _ ih =>
    cases p with
    | nil => cases hc
    | cons k p => exact ih k hc

theorem Likeness.at_ {P : Value → Value → Prop} (hP : Likeness P) (hu : u.Sound) (hv : v.Sound)
    (h : P u v) (p : List Key) : P (u.at_ p) (v.at_ p) := by
  induction p generalizing u v with
  | nil => exact h
  | cons k p ih => exact ih (hu.child k) (hv.child k) (hP.child hu hv h k)

/-- Apart from all changes nothing has changed. -/
theorem Leads.apart_at (hb : Likeness r.before) (h : Leads r u v d) :
    u.Sound → v.Sound → ∀ {p : List Key}, d.Apart p → r.before (u.at_ p) (v.at_ p) := by
  induction h with
  | still equal => intro hu hv p _; exact Likeness.at_ hb hu hv equal p
  | add | change | remove => intro _ _ p hp; exact absurd List.nil_prefix (hp [] _ rfl).2
  | tree nonempty distinct told open_ mapping below ih =>
    intro hu hv p hp
    cases p with
    | nil =>
      -- the root of a tree lies above each of its changes
      obtain ⟨q, c, hq⟩ := (Leads.tree nonempty distinct told open_ mapping below).exists_node (by simp)
      exact absurd List.nil_prefix (hp q c hq).1
    | cons k p => exact ih k (hu.child k) (hv.child k) hp.below

theorem stray?_tree {entries : List (Key × Delta)} :
    (tree entries).stray? = none ↔ ∀ k d, (k, d) ∈ entries → d.stray? = none := by
  rw [stray?]
  induction entries with
  | nil => simp [strayIn?]
  | cons entry rest ih =>
    obtain ⟨l, d⟩ := entry
    rw [strayIn?, Fields.forall_cons, ← ih]
    cases stray? d <;> simp

theorem Leads.stray_none (h : Leads r u v d) : d.stray? = none := by
  induction h with
  | still | add | change | remove => rw [stray?]
  | @tree _ _ entries _ distinct _ _ _ _ ih =>
    refine stray?_tree.2 fun k d hm => ?_
    have := ih k
    rwa [Fields.get?_of_mem distinct hm] at this

end Delta

end TreeDelta
