import TreeDelta.Proofs.Place
import TreeDelta.Proofs.Settings.Layers
/-!
# Nested settings over others

Written over settings that hold neither nulls nor empty sections, others leave such settings behind, at
any depth (`Settings.overlay_pruned`): what they set is there, what they null is gone, the rest is as it
was, and writing them once more changes nothing.

`Settings.Written` says what stands at one place before and after a value is written there, section
within section; `exists_overlay` shows that the loop does so, for each entry apart, since what is written
at one key is not looked at under another. All that is claimed of the result is then an induction over
`Written`.
-/

namespace TreeDelta

/-- Induction over nested mappings, with the claim at hand for every entry. -/
@[elab_as_elim]
theorem Value.fields_induction {motive : Value → Prop} (plain : ∀ v, v.fields? = none → motive v)
    (map : ∀ id fields, (∀ k v, (k, v) ∈ fields → motive v) → motive (.map id fields)) (v : Value) :
    motive v := by
  cases v with
  | map id fields => exact map id fields fun k v hm => fields_induction plain map v
  | _ => exact plain _ rfl
termination_by sizeOf v
decreasing_by
  have := List.sizeOf_lt_of_mem hm
  simp only [Value.map.sizeOf_spec, Prod.mk.sizeOf_spec] at *
  omega

/-- A plain value holds itself and nothing else. -/
theorem Value.lookup?_plain {v w : Value} (plain : v.fields? = none) {p : List Key}
    (h : v.lookup? p = some w) : p = [] ∧ w = v := by
  cases p with
  | nil => cases h; exact ⟨rfl, rfl⟩
  | cons k p =>
    have : Slot.child (some v) k = none := by simp [Slot.child, plain]
    rw [Value.lookup?, Slot.at_cons, this, Slot.at_none] at h
    cases h

theorem Value.lookup?_of_get? {id : Ident} {fields : List (Key × Value)} {k : Key} {v : Value}
    (h : Fields.get? k fields = some v) (p : List Key) :
    (Value.map id fields).lookup? (k :: p) = v.lookup? p := by
  rw [lookup?, Slot.at_cons, Slot.child_map, h, lookup?]

theorem Value.exists_of_lookup? {id : Ident} {fields : List (Key × Value)} {k : Key} {p : List Key}
    {w : Value} (h : (Value.map id fields).lookup? (k :: p) = some w) :
    ∃ v, Fields.get? k fields = some v ∧ v.lookup? p = some w := by
  cases hk : Fields.get? k fields with
  | none =>
    rw [lookup?, Slot.at_cons, Slot.child_map, hk, Slot.at_none] at h
    cases h
  | some v => exact ⟨v, rfl, by rwa [lookup?_of_get? hk] at h⟩

namespace Settings

variable {before after : Slot} {v w : Value} {k : Key} {p q : List Key}

/-- The entries that are left of a section, which is gone if there are none. -/
def remains (id : Ident) (entries : List (Key × Value)) : Slot :=
  if entries = [] then none else some (.map id entries)

theorem child_remains (id : Ident) (entries : List (Key × Value)) (k : Key) :
    (remains id entries).child k = Fields.get? k entries := by
  cases entries <;> rfl

/-- What stands at a place before and after a value is written there. -/
inductive Written : Slot → Value → Slot → Prop where
  | null (before : Slot) : Written before .null none
  | plain (before : Slot) {v : Value} (plain : v.fields? = none) (here : v ≠ .null) :
      Written before v (some v)
  | nested {before : Slot} {id old : Ident} {fields entries : List (Key × Value)}
      (distinct : Fields.Distinct fields) (open_ : ∀ w, before = some w → w.fields? ≠ none)
      (written : ∀ k v, Fields.get? k fields = some v →
        Written (before.child k) v (Fields.get? k entries))
      (kept : ∀ k, Fields.get? k fields = none → Fields.get? k entries = before.child k) :
      Written before (.map id fields) (remains old entries)

/-- Wherever sections are written, there is a section or nothing. -/
def Fits (before : Slot) (new : Value) : Prop :=
  ∀ p v w, new.lookup? p = some v → v.fields? ≠ none → before.at_ p = some w → w.fields? ≠ none

theorem Fits.child {id : Ident} {fields : List (Key × Value)} (h : Fits before (.map id fields))
    (hk : Fields.get? k fields = some v) : Fits (before.child k) v := by
  intro p w u hw hf hu
  exact h (k :: p) w u ((Value.lookup?_of_get? hk p).trans hw) hf hu

theorem fits_plain (plain : v.fields? = none) (before : Slot) : Fits before v := by
  intro p u w hu hf _
  obtain ⟨-, rfl⟩ := Value.lookup?_plain plain hu
  exact absurd plain hf

theorem fits_map {id : Ident} {fields : List (Key × Value)}
    (open_ : ∀ w, before = some w → w.fields? ≠ none)
    (each : ∀ k v, (k, v) ∈ fields → Fits (before.child k) v) : Fits before (.map id fields) := by
  intro p u w hu hf hw
  cases p with
  | nil => exact open_ w hw
  | cons k p =>
    obtain ⟨v, hv, hu⟩ := Value.exists_of_lookup? hu
    obtain ⟨l, hm, hkl⟩ := Fields.exists_mem_of_get? hv
    rw [Slot.at_cons, Slot.child_congr hkl] at hw
    exact each l v hm p u w hu hf hw

/-! ## What is written at one place -/

/-- A plain setting that is written is there, and if it is null then nothing is. -/
theorem Written.at_plain (h : Written before v after) (hp : v.lookup? p = some w)
    (plain : w.fields? = none) : after.at_ p = said (some w) := by
  induction h generalizing p with
  | null =>
    obtain ⟨rfl, rfl⟩ := Value.lookup?_plain rfl hp
    rfl
  | plain _ hv hn =>
    obtain ⟨rfl, rfl⟩ := Value.lookup?_plain hv hp
    exact (said_some hn).symm
  | nested _ _ _ _ ih =>
    cases p with
    | nil => cases hp; cases plain
    | cons k p =>
      obtain ⟨v, hv, hp⟩ := Value.exists_of_lookup? hp
      rw [Slot.at_cons, child_remains]
      exact ih k v hv hp

/-- Nothing stands below it. -/
theorem Written.below_plain (h : Written before v after) (hp : v.lookup? p = some w)
    (plain : w.fields? = none) (hq : q ≠ []) : after.at_ (p ++ q) = none := by
  rw [Slot.at_append, h.at_plain hp plain]
  cases hs : Slot.at_ (said (some w)) q with
  | none => rfl
  | some u =>
    by_cases hw : w = .null
    · rw [hw, said_null, Slot.at_none] at hs
      cases hs
    · rw [said_some hw] at hs
      exact absurd (Value.lookup?_plain plain hs).1 hq

/-- Where on the way nothing but sections is written, the plain settings are those of before. -/
theorem Written.kept (h : Written before v after)
    (hp : ∀ q u, q <+: p → v.lookup? q = some u → u.fields? ≠ none) (plain : w.fields? = none) :
    after.at_ p = some w ↔ before.at_ p = some w := by
  induction h generalizing p with
  | null => exact absurd rfl (hp [] _ List.nil_prefix rfl)
  | plain _ hv _ => exact absurd hv (hp [] _ List.nil_prefix rfl)
  | @nested before id old fields entries _ open_ _ kept ih =>
    cases p with
    | nil =>
      refine iff_of_false (fun ha => ?_) fun hb => open_ w hb plain
      cases entries with
      | nil => cases ha
      | cons => cases ha; cases plain
    | cons k p =>
      rw [Slot.at_cons, Slot.at_cons, child_remains]
      cases hk : Fields.get? k fields with
      | none => rw [kept k hk]
      | some v =>
        exact ih k v hk fun q u hq hu =>
          hp (k :: q) u (List.cons_prefix_cons.2 ⟨rfl, hq⟩) ((Value.lookup?_of_get? hk q).trans hu)

/-- Neither null nor an empty section stands there or further down. -/
def Neat (slot : Slot) : Prop := ∀ p w, slot.at_ p = some w → w ≠ .null ∧ w.fields? ≠ some []

theorem Neat.child (h : Neat before) (k : Key) : Neat (before.child k) := fun p => h (k :: p)

theorem neat_none : Neat none := by
  intro p w h
  rw [Slot.at_none] at h
  cases h

theorem neat_plain (plain : v.fields? = none) (here : v ≠ .null) : Neat (some v) := by
  intro p w h
  obtain ⟨-, rfl⟩ := Value.lookup?_plain plain h
  exact ⟨here, by simp [plain]⟩

/-- Under no key, at any depth, stands null or an empty section. -/
def Pruned (fields : List (Key × Value)) : Prop := ∀ k, Neat (Fields.get? k fields)

theorem pruned_of_each {fields : List (Key × Value)} (h : ∀ k v, (k, v) ∈ fields → Neat (some v)) :
    Pruned fields := by
  intro k
  cases hk : Fields.get? k fields with
  | none => exact neat_none
  | some v =>
    obtain ⟨l, hm, -⟩ := Fields.exists_mem_of_get? hk
    exact h l v hm

theorem neat_remains {id : Ident} {entries : List (Key × Value)}
    (h : Pruned entries) : Neat (remains id entries) := by
  intro p w hp
  cases p with
  | nil =>
    cases entries with
    | nil => cases hp
    | cons => cases hp; exact ⟨by simp, by simp [Value.fields?]⟩
  | cons k p =>
    rw [Slot.at_cons, child_remains] at hp
    exact h k p w hp

theorem neat_map {id : Ident} {entry : Key × Value} {rest : List (Key × Value)}
    (h : ∀ k v, (k, v) ∈ entry :: rest → Neat (some v)) : Neat (some (.map id (entry :: rest))) :=
  neat_remains (pruned_of_each h)

theorem Written.neat (h : Written before v after) (hb : ∀ k, Neat (before.child k)) : Neat after := by
  induction h with
  | null => exact neat_none
  | plain _ hv hn => exact neat_plain hv hn
  | @nested before id old fields entries _ _ _ kept ih =>
    refine neat_remains fun k => ?_
    cases hk : Fields.get? k fields with
    | none => rw [kept k hk]; exact hb k
    | some v => exact ih k v hk (hb k).child

/-! ## Writing once more -/

/-- A section stays as it is if its entries stand where they are written. -/
theorem settle_of_remains {id : Ident} {entries target : List (Key × Value)}
    (h : Fields.get? k target = remains id entries) : settle false k (.map id entries) target = target := by
  cases entries with
  | nil => exact Fields.erase_of_get? h
  | cons => exact Fields.put_of_get? h

theorem getD_of_remains {old : Ident} {entries target : List (Key × Value)}
    (h : Fields.get? k target = remains old entries) (id : Ident) :
    ∃ found, (Fields.get? k target).getD (.map id []) = .map found entries ∧
      Fields.get? k target = remains found entries := by
  cases entries with
  | nil => exact ⟨id, by rw [h]; rfl, h⟩
  | cons => exact ⟨old, by rw [h]; rfl, h⟩

theorem overlay_of_each {target new : List (Key × Value)} (each : ∀ k v, (k, v) ∈ new → ∀ rest,
    overlay false target ((k, v) :: rest) = overlay false target rest) :
    overlay false target new = .ok target := by
  induction new with
  | nil => rw [overlay]
  | cons entry rest ih =>
    obtain ⟨here, each⟩ := Fields.forall_cons.1 each
    rw [here, ih each]

/-- To write again what was written at a key leaves everything as it is. -/
theorem Written.again (h : Written before v after) :
    ∀ {k : Key} {target : List (Key × Value)}, Fields.get? k target = after → ∀ rest,
      overlay false target ((k, v) :: rest) = overlay false target rest := by
  induction h with
  | null =>
    intro k target hk rest
    rw [overlay_cons_plain rfl, layOne, if_pos rfl, Fields.erase_of_get? hk]
  | plain _ hv hn =>
    intro k target hk rest
    rw [overlay_cons_plain hv, layOne, if_neg hn, Fields.put_of_get? hk]
  | @nested before id old fields entries distinct _ _ _ ih =>
    intro k target hk rest
    obtain ⟨found, hget, hk⟩ := getD_of_remains hk id
    have inner : overlay false entries fields = .ok entries :=
      overlay_of_each fun l v hm => ih l v (Fields.get?_of_mem distinct hm) rfl
    rw [overlay, hget]
    simp only [inner, bind, Except.bind, settle_of_remains hk]

/-! ## The loop -/

/-- What writing one entry does: it is written at its key, and nothing else changes. -/
structure Writes (k : Key) (v : Value) (target target' : List (Key × Value)) : Prop where
  run : ∀ rest, overlay false target ((k, v) :: rest) = overlay false target' rest
  here : Written (Fields.get? k target) v (Fields.get? k target')
  others : ∀ l, l.same k = false → Fields.get? l target' = Fields.get? l target

theorem writes_plain (plain : v.fields? = none) (k : Key) (target : List (Key × Value)) :
    Writes k v target (layOne k v target) where
  run := overlay_cons_plain plain k target
  here := by
    rw [get?_layOne, if_pos k.same_self]
    by_cases hv : v = .null
    · rw [hv, said_null]
      exact .null _
    · rw [said_some hv]
      exact .plain _ plain hv
  others l hl := by rw [get?_layOne, if_neg (by simp [hl])]

/-- If each entry can be written, wherever it fits, they all can, one after the other: what is written at
one key is not looked at under another. -/
theorem exists_overlay_of_each {new : List (Key × Value)} (distinct : Fields.Distinct new)
    (each : ∀ k v, (k, v) ∈ new → ∀ target, Fits (Fields.get? k target) v →
      ∃ target', Writes k v target target') :
    ∀ target, (∀ k v, (k, v) ∈ new → Fits (Fields.get? k target) v) →
      ∃ after, overlay false target new = .ok after ∧
        (∀ k v, Fields.get? k new = some v → Written (Fields.get? k target) v (Fields.get? k after)) ∧
        ∀ k, Fields.get? k new = none → Fields.get? k after = Fields.get? k target := by
  induction new with
  | nil => exact fun target _ => ⟨target, by rw [overlay], nofun, fun _ _ => rfl⟩
  | cons entry rest ih =>
    obtain ⟨l, v⟩ := entry
    intro target fits
    obtain ⟨apart, hrest⟩ := Fields.distinct_cons.1 distinct
    obtain ⟨eachl, each⟩ := Fields.forall_cons.1 each
    obtain ⟨fitsl, fits⟩ := Fields.forall_cons.1 fits
    obtain ⟨target', step⟩ := eachl target fitsl
    obtain ⟨after, run, written, kept⟩ := ih hrest each target' fun k w hm => by
      rw [step.others k (by rw [Key.same_comm]; exact apart k w hm)]
      exact fits k w hm
    refine ⟨after, by rw [step.run, run], fun k w hk => ?_, fun k hk => ?_⟩
    · rw [Fields.get?_cons] at hk
      split at hk
      · rename_i hkl
        cases hk
        rw [kept k (Fields.get?_rest_of_same distinct hkl), Fields.get?_congr hkl, Fields.get?_congr hkl]
        exact step.here
      · rename_i hkl
        rw [← step.others k (Bool.eq_false_iff.2 hkl)]
        exact written k w hk
    · rw [Fields.get?_cons] at hk
      split at hk
      · cases hk
      · rename_i hkl
        rw [kept k hk, step.others k (Bool.eq_false_iff.2 hkl)]

/-- A section, or nothing, as the section that is written into. -/
theorem exists_entries (h : ∀ w, before = some w → w.fields? ≠ none) (id : Ident) :
    ∃ old entries, before.getD (.map id []) = .map old entries ∧
      ∀ k, Fields.get? k entries = before.child k := by
  cases before with
  | none => exact ⟨id, [], rfl, fun k => rfl⟩
  | some w =>
    cases w with
    | map old entries => exact ⟨old, entries, rfl, fun k => rfl⟩
    | _ => exact absurd rfl (h _ rfl)

/-- Any setting that fits can be written. -/
theorem exists_writes (v : Value) : v.keyed = true → ∀ {k : Key} {target : List (Key × Value)},
    Fits (Fields.get? k target) v → ∃ target', Writes k v target target' := by
  induction v using Value.fields_induction with
  | plain v hv => exact fun _ {k target} _ => ⟨_, writes_plain hv k target⟩
  | map id fields ih =>
    intro keyed k target fits
    obtain ⟨distinct, each⟩ := Value.keyed_map.1 keyed
    have open_ : ∀ w, Fields.get? k target = some w → w.fields? ≠ none := fun w hw =>
      fits [] _ w rfl (by simp [Value.fields?]) hw
    obtain ⟨old, entries, found, below⟩ := exists_entries open_ id
    obtain ⟨after, run, written, kept⟩ := exists_overlay_of_each distinct
      (fun l w hm _ => ih l w hm (each l w hm)) entries fun l w hm => by
        rw [below]
        exact fits.child (Fields.get?_of_mem distinct hm)
    refine ⟨settle false k (.map old after) target, fun rest => ?_, ?_, fun l hl => ?_⟩
    · rw [overlay, found]
      simp only [run, bind, Except.bind]
    · rw [get?_settle_map, if_pos k.same_self]
      exact .nested distinct open_ (fun l w hw => below l ▸ written l w hw)
        fun l hl => (kept l hl).trans (below l)
    · rw [get?_settle_map, if_neg (by simp [hl])]

/-! ## All together -/

/-- Below the root it makes no difference that empty settings are still settings. -/
theorem at_remains (id : Ident) (entries : List (Key × Value)) (hp : p ≠ []) :
    (remains id entries).at_ p = (Value.map id entries).lookup? p := by
  cases p with
  | nil => exact absurd rfl hp
  | cons k p => rw [Slot.at_cons, child_remains, Value.lookup?, Slot.at_cons, Slot.child_map]

/-- A path to a plain value does not end at the root of a mapping. -/
theorem ne_nil_of_plain {id : Ident} {fields : List (Key × Value)}
    (h : (Value.map id fields).lookup? p = some v) (plain : v.fields? = none) : p ≠ [] := by
  rintro rfl
  cases h
  cases plain

/-- Settings are written over pruned ones, whatever the depth, unless a section comes where there is none:
each plain setting that is written stands at its path, at the path of a null stands nothing, and below
either stands nothing; at every other path the plain settings are those of before. What comes of it is
pruned, and the same settings written over it change nothing. -/
theorem overlay_pruned {id nid : Ident} {target new : List (Key × Value)}
    (keyed : (Value.map nid new).keyed = true) (pruned : Pruned target)
    (fits : Fits (some (.map id target)) (.map nid new)) :
    ∃ after, overlay false target new = .ok after ∧
      (∀ p v, (Value.map nid new).lookup? p = some v → v.fields? = none → v ≠ .null →
        (Value.map id after).lookup? p = some v) ∧
      (∀ p, (Value.map nid new).lookup? p = some .null → (Value.map id after).lookup? p = none) ∧
      (∀ p q v, (Value.map nid new).lookup? p = some v → v.fields? = none → q ≠ [] →
        (Value.map id after).lookup? (p ++ q) = none) ∧
      (∀ p, (∀ q u, q <+: p → (Value.map nid new).lookup? q = some u → u.fields? ≠ none) →
        ∀ v, v.fields? = none →
          ((Value.map id after).lookup? p = some v ↔ (Value.map id target).lookup? p = some v)) ∧
      Pruned after ∧ overlay false after new = .ok after := by
  obtain ⟨distinct, each⟩ := Value.keyed_map.1 keyed
  obtain ⟨after, run, written, kept⟩ := exists_overlay_of_each distinct
    (fun k v hm _ => exists_writes v (each k v hm)) target
    fun k v hm => fits.child (Fields.get?_of_mem distinct hm)
  have root : Written (some (.map id target)) (.map nid new) (remains id after) :=
    .nested distinct (fun w hw => by cases hw; simp [Value.fields?]) written kept
  refine ⟨after, run, fun p v hp plain here => ?_, fun p hp => ?_, fun p q v hp plain hq => ?_,
    fun p hp v plain => ?_, fun k => ?_, overlay_of_each fun k v hm => ?_⟩
  · rw [← at_remains id after (ne_nil_of_plain hp plain)]
    exact (root.at_plain hp plain).trans (said_some here)
  · rw [← at_remains id after (ne_nil_of_plain hp rfl)]
    exact root.at_plain hp rfl
  · rw [← at_remains id after (by simp [hq])]
    exact root.below_plain hp plain hq
  · by_cases hnil : p = []
    · rw [hnil]
      exact iff_of_false (fun h => ne_nil_of_plain h plain rfl) fun h => ne_nil_of_plain h plain rfl
    · rw [← at_remains id after hnil]
      exact root.kept hp plain
  · have := (root.neat pruned).child k
    rwa [child_remains] at this
  · exact (written k v (Fields.get?_of_mem distinct hm)).again rfl

/-- Two sections are emptied, one of them a new one two levels deep, an empty one is written, a plain
setting comes in place of a section and one is taken away. -/
theorem overlay_pruned_of_emptied :
    let target : List (Key × Value) :=
      [(.str "a", .map ⟨0, [.str "a"]⟩
          [(.str "x", .int 1), (.str "y", .map ⟨0, [.int 0]⟩ [(.str "z", .int 2)])]),
        (.str "b", .map ⟨0, [.str "b"]⟩ [(.str "u", .int 3)]), (.str "c", .int 4)]
    let new : List (Key × Value) :=
      [(.str "a", .map ⟨1, [.str "a"]⟩ [(.str "y", .map ⟨1, [.int 0]⟩ [(.str "z", .null)]),
          (.str "w", .map ⟨1, [.int 1]⟩ [])]),
        (.str "b", .int 5), (.str "c", .null),
        (.str "d", .map ⟨1, [.str "d"]⟩ [(.str "e", .map ⟨1, [.int 2]⟩ [(.str "f", .null)])])]
    let after : List (Key × Value) :=
      [(.str "a", .map ⟨0, [.str "a"]⟩ [(.str "x", .int 1)]), (.str "b", .int 5)]
    (Value.map ⟨1, []⟩ new).keyed = true ∧ Pruned target ∧
      Fits (some (.map ⟨0, []⟩ target)) (.map ⟨1, []⟩ new) ∧
      overlay false target new = .ok after ∧ Pruned after ∧ overlay false after new = .ok after := by
  intro target new after
  have keyed : (Value.map ⟨1, []⟩ new).keyed = true := by decide
  have int : ∀ n, Neat (some (.int n)) := fun n => neat_plain rfl (by simp)
  have pruned : Pruned target := by
    refine pruned_of_each (Fields.forall_cons.2 ⟨neat_map ?_, Fields.forall_cons.2 ⟨neat_map ?_,
      Fields.forall_cons.2 ⟨int 4, by simp⟩⟩⟩)
    · exact Fields.forall_cons.2 ⟨int 1, Fields.forall_cons.2
        ⟨neat_map (Fields.forall_cons.2 ⟨int 2, by simp⟩), by simp⟩⟩
    · exact Fields.forall_cons.2 ⟨int 3, by simp⟩
  have mapping : ∀ {i : Ident} {fields : List (Key × Value)} (w : Value),
      some (Value.map i fields) = some w → w.fields? ≠ none := by
    intro i fields w h
    cases h
    simp [Value.fields?]
  have missing : ∀ w : Value, (none : Slot) = some w → w.fields? ≠ none := by simp
  have a : Fits (Slot.child (some (.map ⟨0, []⟩ target)) (.str "a"))
      (.map ⟨1, [.str "a"]⟩ [(.str "y", .map ⟨1, [.int 0]⟩ [(.str "z", .null)]),
        (.str "w", .map ⟨1, [.int 1]⟩ [])]) := by
    refine fits_map mapping (Fields.forall_cons.2 ⟨fits_map mapping ?_,
      Fields.forall_cons.2 ⟨fits_map missing ?_, by simp⟩⟩)
    · exact Fields.forall_cons.2 ⟨fits_plain rfl _, by simp⟩
    · simp
  have d : Fits (Slot.child (some (.map ⟨0, []⟩ target)) (.str "d"))
      (.map ⟨1, [.str "d"]⟩ [(.str "e", .map ⟨1, [.int 2]⟩ [(.str "f", .null)])]) :=
    fits_map missing (Fields.forall_cons.2 ⟨fits_map missing
      (Fields.forall_cons.2 ⟨fits_plain rfl _, by simp⟩), by simp⟩)
  have fits : Fits (some (.map ⟨0, []⟩ target)) (.map ⟨1, []⟩ new) :=
    fits_map mapping (Fields.forall_cons.2 ⟨a, Fields.forall_cons.2 ⟨fits_plain rfl _,
      Fields.forall_cons.2 ⟨fits_plain rfl _, Fields.forall_cons.2 ⟨d, by simp⟩⟩⟩⟩)
  have run : overlay false target new = .ok after := by cbv
  obtain ⟨after', run', -, -, -, -, pruned', again⟩ := overlay_pruned keyed pruned fits
  cases run.symm.trans run'
  exact ⟨keyed, pruned, fits, run, pruned', again⟩

end Settings

end TreeDelta
