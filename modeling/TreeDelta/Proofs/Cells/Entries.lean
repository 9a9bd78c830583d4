import TreeDelta.Proofs.Cells.Settled
import TreeDelta.Proofs.Shape
/-!
# Writing the entries of a mapping one by one

A loop writes into one mapping, key by key, and on the way into what stands below each key. Where nothing
that may be written into stands at a second place (`Value.Unshared`), what happens below one key is not
seen below another: `Midway.step` takes the mapping from before a turn to after it, whatever was done in
the turn, as long as it kept to what stands below its own key (`Grown`).
-/

namespace TreeDelta

namespace Value

variable {id i : Ident} {fields : List (Key × Value)} {others more : List Ident} {k : Key} {v a : Value}

/-! ## What may be written into -/

mutual
/-- What may be written into: a mapping or change, and what lies in it along mappings alone. -/
def writable : Value → List Ident
  | map id fields => id :: writableIn fields
  | node id _ _ _ => [id]
  | _ => []

def writableIn : List (Key × Value) → List Ident
  | [] => []
  | (_, v) :: rest => v.writable ++ writableIn rest
end

mutual
theorem idents_of_writable : ∀ {v : Value}, i ∈ v.writable → i ∈ v.idents
  | map id fields, h => by
    rw [writable, List.mem_cons] at h
    rw [idents, List.mem_cons]
    exact h.imp_right identsIn_of_writableIn
  | node .., h => by
    rw [idents, List.mem_cons]
    exact .inl (List.mem_singleton.1 h)
  | null, h | bool _, h | int _, h | float _, h | nan _, h | str _, h | absent, h | fn _, h | list _ _, h
  | tuple _, h | set _ _, h | op _ _, h | descend _, h => by cases h

theorem identsIn_of_writableIn : ∀ {fields : List (Key × Value)}, i ∈ writableIn fields → i ∈ identsIn fields
  | (_, v) :: rest, h => by
    rw [writableIn, List.mem_append] at h
    rw [identsIn, List.mem_append]
    exact h.imp idents_of_writable identsIn_of_writableIn
end

theorem writable_of_mem (h : (k, v) ∈ fields) (hi : i ∈ v.writable) : i ∈ writableIn fields := by
  induction fields with
  | nil => cases h
  | cons entry rest ih =>
    rw [writableIn, List.mem_append]
    rcases List.mem_cons.1 h with rfl | h
    · exact .inl hi
    · exact .inr (ih h)

theorem size_le_sizesIn (h : (k, v) ∈ fields) : v.size ≤ sizesIn fields := by
  induction fields with
  | nil => cases h
  | cons entry rest ih =>
    rw [sizesIn]
    rcases List.mem_cons.1 h with rfl | h
    · exact Nat.le_add_right _ _
    · exact Nat.le_trans (ih h) (Nat.le_add_left _ _)

theorem size_pos (v : Value) : 0 < v.size := by
  cases v <;> simp only [size] <;> omega

theorem keyed_of_parts (h : v.keyed = true) (ha : a ∈ v.parts) : a.keyed = true := by
  cases v with
  | list | tuple => exact keyedItems_iff.1 h a ha
  | map id fields =>
    obtain ⟨e, he, rfl⟩ := List.mem_map.1 ha
    exact (keyed_map.1 h).2 e.1 e.2 he
  | node | op | descend =>
    simp only [keyed, Bool.and_eq_true, parts, List.mem_cons, List.not_mem_nil, or_false] at h ha
    grind
  | _ => cases ha

/-- The containers below a key, and those below the others. -/
theorem identsIn_perm (distinct : Fields.Distinct fields) (h : Fields.get? k fields = some a) :
    (identsIn fields).Perm (a.idents ++ identsIn (Fields.erase k fields)) := by
  induction fields with
  | nil => cases h
  | cons entry rest ih =>
    obtain ⟨l, b⟩ := entry
    rw [Fields.get?_cons] at h
    by_cases hs : k.same l = true
    · have alone := Fields.erase_of_get? (Fields.get?_rest_of_same distinct hs)
      simp only [hs, if_true, Option.some.injEq] at h
      have : Fields.erase k ((l, b) :: rest) = rest := by rw [← alone]; simp [Fields.erase, hs]
      rw [this, identsIn, h]
    · rw [if_neg hs] at h
      have : Fields.erase k ((l, b) :: rest) = (l, b) :: Fields.erase k rest := by simp [Fields.erase, hs]
      rw [this, identsIn, identsIn]
      refine ((ih (Fields.distinct_cons.1 distinct).2 h).append_left _).trans ?_
      rw [← List.append_assoc, ← List.append_assoc]
      exact List.perm_append_comm.append_right _

/-- What may be written into stands once in the value, and not among the others. -/
structure Unshared (others : List Ident) (v : Value) : Prop where
  once : ∀ i ∈ v.writable, v.idents.count i ≤ 1
  apart : ∀ i ∈ v.writable, i ∉ others

theorem Unshared.mono (h : Unshared others v) (fewer : ∀ i ∈ more, i ∈ v.writable → i ∈ others) :
    Unshared more v := ⟨h.once, fun i hi hm => h.apart i hi (fewer i hm hi)⟩

theorem Unshared.root (h : Unshared others (map id fields)) : id ∉ others ∧ id ∉ identsIn fields := by
  have here : id ∈ (map id fields).writable := by rw [writable]; exact List.mem_cons_self
  have once := h.once id here
  rw [idents, List.count_cons_self] at once
  exact ⟨h.apart id here, List.count_eq_zero.1 (by omega)⟩

theorem Unshared.root_node {label old new : Value} (h : Unshared others (node id label old new)) :
    id ∉ others ∧ id ∉ label.idents ++ old.idents ++ new.idents := by
  have here : id ∈ (node id label old new).writable := List.mem_singleton_self id
  have once := h.once id here
  rw [idents, List.count_cons_self] at once
  exact ⟨h.apart id here, List.count_eq_zero.1 (by omega)⟩

theorem Unshared.entry (h : Unshared others (map id fields)) (distinct : Fields.Distinct fields)
    (hk : Fields.get? k fields = some a) :
    Unshared (others ++ id :: identsIn (Fields.erase k fields)) a := by
  have inside : ∀ i ∈ a.writable, i ∈ (map id fields).writable := fun i hi => by
    obtain ⟨l, hl, -⟩ := Fields.exists_mem_of_get? hk
    rw [writable]
    exact List.mem_cons_of_mem _ (writable_of_mem hl hi)
  have split : ∀ i ∈ a.writable,
      a.idents.count i + (identsIn (Fields.erase k fields)).count i ≤ 1 ∧ i ≠ id := fun i hi => by
    have once := h.once i (inside i hi)
    have here := List.count_pos_iff.2 (idents_of_writable hi)
    rw [idents, List.count_cons, (identsIn_perm distinct hk).count_eq, List.count_append] at once
    refine ⟨by omega, fun e => ?_⟩
    rw [e] at once here
    simp only [beq_self_eq_true, if_true] at once
    omega
  refine ⟨fun i hi => by have := split i hi; omega, fun i hi hm => ?_⟩
  have here := List.count_pos_iff.2 (idents_of_writable hi)
  have ⟨count, ne⟩ := split i hi
  rcases List.mem_append.1 hm with hm | hm
  · exact h.apart i (inside i hi) hm
  · rcases List.mem_cons.1 hm with hm | hm
    · exact ne hm
    · have := List.count_pos_iff.2 hm
      omega

end Value

namespace Cells

open Value

variable {run bound : Nat} {others more : List Ident} {start before after later : Cells} {u v w : Value}
  {i id : Ident}

/-! ## Before and after -/

/-- A container that the run is not still to make. -/
def Given (run : Nat) (cells : Cells) (i : Ident) : Prop := ∀ n, cells.next ≤ n → i ≠ ⟨run, [.int n]⟩

theorem Given.mono (h : before.Given run i) (next : before.next ≤ after.next) : after.Given run i :=
  fun n hn => h n (by omega)

/-- A value that may be written into, beside others that are only looked at. -/
structure Ready (run : Nat) (others : List Ident) (cells : Cells) (u : Value) : Prop where
  tidy : cells.Tidy run
  keyed : u.keyed = true
  unshared : u.Unshared others
  untouched : cells.Untouched u
  aside : ∀ i ∈ others, cells.cells.lookup i = none
  given : ∀ i, i ∈ u.idents ∨ i ∈ others → cells.Given run i

/-- At the start of a run nothing has been written, and it has made none of the containers. -/
theorem Ready.initial (unshared : u.Unshared others) (keyed : u.keyed = true)
    (older : ∀ i, i ∈ u.idents ∨ i ∈ others → i.source ≠ run) : Ready run others {} u where
  tidy := ⟨nofun, fun _ _ => rfl⟩
  keyed := keyed
  unshared := unshared
  untouched _ _ := rfl
  aside _ _ := rfl
  given i hi n _ e := older i hi (by rw [e])

/-- `w` has come of `u` and the others: nothing else that was there has been written into, and `w` has no
containers but theirs and new ones. -/
structure Grown (run : Nat) (others : List Ident) (before after : Cells) (u w : Value) : Prop where
  tidy : after.Tidy run
  next : before.next ≤ after.next
  kept : ∀ i, before.Given run i → i ∉ u.writable → after.cells.lookup i = before.cells.lookup i
  drawn : ∀ i ∈ w.idents, before.Given run i → i ∈ u.idents ∨ i ∈ others
  given : ∀ i ∈ w.idents, after.Given run i
  keyed : w.keyed = true

theorem Grown.null (h : Grown run others before after u w) : Grown run others before after u .null :=
  { h with drawn := nofun, given := nofun, keyed := rfl }

/-- Nothing is written, and the outcome is made of what there is. -/
theorem Ready.grown (h : Ready run others before u) (drawn : ∀ i ∈ w.idents, i ∈ u.idents ∨ i ∈ others)
    (keyed : w.keyed = true) : Grown run others before before u w where
  tidy := h.tidy
  next := Nat.le_refl _
  kept _ _ _ := rfl
  drawn i hi _ := drawn i hi
  given i hi := h.given i (drawn i hi)
  keyed := keyed

theorem Ready.grown_null (h : Ready run others before u) : Grown run others before before u .null :=
  h.grown (by simp [idents]) rfl

theorem Ready.untouched_of (h : Ready run others before u) (drawn : ∀ i ∈ w.idents, i ∈ u.idents ∨ i ∈ others) :
    before.Untouched w := fun i hi => (drawn i hi).elim (h.untouched i) (h.aside i)

/-- Something new is made of what there is. -/
theorem Ready.grown_new (h : Ready run others before u)
    (drawn : ∀ i ∈ w.idents, i = before.coming run ∨ i ∈ u.idents ∨ i ∈ others) (keyed : w.keyed = true) :
    Grown run others before before.onward u w where
  tidy := ⟨h.tidy.own, fun n hn => h.tidy.past n (Nat.le_of_succ_le hn)⟩
  next := Nat.le_succ _
  kept _ _ _ := rfl
  drawn i hi known := (drawn i hi).resolve_left (known before.next (Nat.le_refl _))
  given i hi := by
    rcases drawn i hi with rfl | hi
    · intro n hn e
      simp only [coming, Ident.mk.injEq, List.cons.injEq, Key.int.injEq, Int.natCast_inj] at e
      rw [← e.2.1] at hn
      exact absurd hn (Nat.not_succ_le_self _)
    · exact (h.given i hi).mono (Nat.le_succ _)
  keyed := keyed

theorem Ready.untouched_new (h : Ready run others before u)
    (drawn : ∀ i ∈ w.idents, i = before.coming run ∨ i ∈ u.idents ∨ i ∈ others) :
    before.onward.Untouched w := fun i hi => by
  rcases drawn i hi with rfl | hi
  · exact h.tidy.past before.next (Nat.le_refl _)
  · exact hi.elim (h.untouched i) (h.aside i)

/-- Tidy still after something has been written into a container that is there. -/
theorem Tidy.write (h : before.Tidy run) (own : v.ident? = some id) (given : before.Given run id) :
    (before.write id v).Tidy run where
  own i u hu := by
    rw [lookup_write] at hu
    split at hu
    · rename_i e
      cases hu
      rw [own, e]
    · exact h.own i u hu
  past n hn := by
    rw [lookup_write, if_neg (given n hn).symm]
    exact h.past n hn

/-! ## One key after another -/

variable {first found fields found' fields' : List (Key × Value)} {k : Key} {a : Value} {ahead : List Key}

/-- What stands at a key whose turn is still to come, in the mapping `id` that held `first` and holds
`fields` now. -/
structure Pending (run bound : Nat) (others : List Ident) (start : Cells) (id : Ident)
    (first fields : List (Key × Value)) (cells : Cells) (k : Key) (a : Value) : Prop where
  small : a.size ≤ bound
  untouched : cells.Untouched a
  unshared : a.Unshared (others ++ id :: identsIn (Fields.erase k fields))
  inside : ∀ i ∈ a.writable, start.Given run i → i ∈ (map id first).writable

/-- In the midst of writing into the mapping: its entries `found` are `fields` when brought up to date. -/
structure Midway (run bound : Nat) (others : List Ident) (start : Cells) (id : Ident)
    (first found fields : List (Key × Value)) (ahead : List Key) (cells : Cells) : Prop where
  grown : Grown run others start cells (.map id first) (.map id fields)
  root : id ∉ identsIn fields
  current : cells.current (.map id first) = .map id found
  each : ∀ n, bound ≤ n → Fields.mapValues (cells.settled n) found = fields
  pending : ∀ k ∈ ahead, ∀ a, Fields.get? k found = some a →
    Pending run bound others start id first fields cells k a

theorem Ready.midway (h : Ready run others start (.map id first)) (small : sizesIn first ≤ bound)
    (ahead : List Key) :
    Midway run bound others start id first first first ahead start where
  grown := h.grown (fun _ => .inl) h.keyed
  root := h.unshared.root.2
  current := h.untouched.current
  each n _ := by
    have same : ∀ e ∈ first, (e.1, start.settled n e.2) = e := fun e he =>
      congrArg (Prod.mk e.1) ((h.untouched.of_mem (List.mem_map_of_mem he)).settled n)
    exact (List.map_congr_left same).trans (List.map_id _)
  pending l _ a hl := by
    obtain ⟨m, hm, -⟩ := Fields.exists_mem_of_get? hl
    exact
      { small := Nat.le_trans (size_le_sizesIn hm) small
        untouched := h.untouched.of_mem (List.mem_map_of_mem hm)
        unshared := h.unshared.entry (distinct_of_keyed h.keyed rfl) hl
        inside := fun i hi _ => by rw [writable]; exact List.mem_cons_of_mem _ (writable_of_mem hm hi) }

/-- What is only looked at has not been written into. -/
theorem Midway.aside (h : Midway run bound others start id first found fields ahead before)
    (whole : Ready run others start (.map id first)) (hi : i ∈ others) : before.cells.lookup i = none := by
  rw [h.grown.kept i (whole.given i (.inr hi)) fun hw => whole.unshared.apart i hw hi]
  exact whole.aside i hi

section Turn

variable (h : Midway run bound others start id first found fields (k :: ahead) before)
  (whole : Ready run others start (.map id first))
  (g : Grown run others before after ((Fields.get? k found).getD .null) w)

include h

theorem Midway.distinct : Fields.Distinct found := by
  have : Fields.Distinct fields := distinct_of_keyed h.grown.keyed rfl
  rwa [← h.each bound (Nat.le_refl _), Fields.distinct_mapValues] at this

theorem Midway.given_root : before.Given run id :=
  h.grown.given id (by rw [idents]; exact List.mem_cons_self)

theorem Midway.given (hi : i ∈ identsIn fields) : before.Given run i :=
  h.grown.given i (by rw [idents]; exact List.mem_cons_of_mem _ hi)

/-- What stands at a key that is still to come is up to date. -/
theorem Midway.get?_eq {l : Key} (hl : l ∈ k :: ahead) : Fields.get? l fields = Fields.get? l found := by
  rw [← h.each bound (Nat.le_refl _), Fields.get?_mapValues]
  cases ha : Fields.get? l found with
  | none => rfl
  | some a => rw [Option.map_some, (h.pending l hl a ha).untouched.settled]

theorem Midway.exists_mem {l : Key} (hl : l ∈ k :: ahead) (ha : Fields.get? l found = some a) :
    ∃ m, (m, a) ∈ fields ∧ l.same m = true :=
  Fields.exists_mem_of_get? ((h.get?_eq hl).trans ha)

theorem Midway.small (pos : 0 < bound) : ((Fields.get? k found).getD .null).size ≤ bound := by
  cases ha : Fields.get? k found with
  | none => exact pos
  | some a => exact (h.pending k List.mem_cons_self a ha).small

include whole in
/-- What stands at the next key can be written into in its turn. -/
theorem Midway.ready : Ready run others before ((Fields.get? k found).getD .null) := by
  have aside : ∀ i ∈ others, before.cells.lookup i = none := fun i => h.aside whole
  have others_given : ∀ i ∈ others, before.Given run i := fun i hi =>
    (whole.given i (.inr hi)).mono h.grown.next
  cases ha : Fields.get? k found with
  | none =>
    exact
      { tidy := h.grown.tidy, keyed := rfl, aside, untouched := nofun
        unshared := ⟨nofun, nofun⟩
        given := fun i hi => others_given i (hi.resolve_left fun hi => nomatch hi) }
  | some a =>
    have pending := h.pending k List.mem_cons_self a ha
    obtain ⟨l, hl, -⟩ := h.exists_mem List.mem_cons_self ha
    exact
      { tidy := h.grown.tidy, aside, untouched := pending.untouched
        keyed := (keyed_map.1 h.grown.keyed).2 l a hl
        unshared := pending.unshared.mono fun i hi _ => List.mem_append_left _ hi
        given := fun i hi =>
          hi.elim (fun hi => h.given (mem_identsIn.2 ⟨l, a, hl, hi⟩)) (others_given i) }

include g

/-- What a turn leaves comes from what stood at its key, from the others, or is new. -/
theorem Midway.drawn (hi : i ∈ w.idents) (given : before.Given run i) :
    (∃ l a, (l, a) ∈ fields ∧ k.same l = true ∧ i ∈ a.idents) ∨ i ∈ others := by
  refine (g.drawn i hi given).imp_left fun hu => ?_
  cases ha : Fields.get? k found with
  | none => rw [ha] at hu; cases hu
  | some a =>
    rw [ha] at hu
    obtain ⟨l, hl, hs⟩ := h.exists_mem List.mem_cons_self ha
    exact ⟨l, a, hl, hs, hu⟩

include whole in
/-- The mapping does not get into itself. -/
theorem Midway.root_not_mem : id ∉ w.idents := by
  intro hw
  rcases h.drawn g hw h.given_root with ⟨l, a, hl, -, hi⟩ | hi
  · exact h.root (mem_identsIn.2 ⟨l, a, hl, hi⟩)
  · exact whole.unshared.root.1 hi

/-- The turn of one key has not been noticed at the others. -/
theorem Midway.kept {l : Key} (ha : (l, a) ∈ fields) (other : k.same l = false) (hi : i ∈ a.idents) :
    after.cells.lookup i = before.cells.lookup i := by
  refine g.kept i (h.given (mem_identsIn.2 ⟨l, a, ha, hi⟩)) fun hw => ?_
  cases hb : Fields.get? k found with
  | none => rw [hb] at hw; cases hw
  | some b =>
    rw [hb] at hw
    refine (h.pending k List.mem_cons_self b hb).unshared.apart i hw
      (List.mem_append_right _ (List.mem_cons_of_mem _ (mem_identsIn.2 ⟨l, a, ?_, hi⟩)))
    exact List.mem_filter.2 ⟨ha, by simp [other]⟩

/-- A turn writes below its key, not into the mapping. -/
theorem Midway.current_eq : after.current (.map id first) = .map id found := by
  have here : after.cells.lookup id = before.cells.lookup id := g.kept id h.given_root fun hu => by
    cases ha : Fields.get? k found with
    | none => rw [ha] at hu; cases hu
    | some a =>
      rw [ha] at hu
      obtain ⟨l, hl, -⟩ := h.exists_mem List.mem_cons_self ha
      exact h.root (mem_identsIn.2 ⟨l, a, hl, idents_of_writable hu⟩)
  rw [← h.current, Cells.current, Cells.current, ident?, Option.bind_some, Option.bind_some, here]

/-- The others are brought up to date as before. -/
theorem Midway.settled_eq (elsewhere : ∀ i, i ≠ id → later.cells.lookup i = after.cells.lookup i) {n : Nat}
    (hn : bound ≤ n) {l : Key} {b : Value} (hb : (l, b) ∈ found) (other : k.same l = false) :
    later.settled n b = before.settled n b := by
  have there : (l, before.settled n b) ∈ fields := by
    rw [← h.each n hn]
    exact Fields.mem_mapValues.2 ⟨b, hb, rfl⟩
  refine h.grown.tidy.settled_eq fun i hi => ?_
  rw [elsewhere i fun e => h.root (e ▸ mem_identsIn.2 ⟨l, _, there, hi⟩)]
  exact h.kept g there other hi

/-- A turn leaves the mapping with what it made and with what was there. -/
theorem Midway.grown_after (tidy : later.Tidy run) (next : later.next = after.next)
    (elsewhere : ∀ i, i ≠ id → later.cells.lookup i = after.cells.lookup i)
    (inner : ∀ l b, (l, b) ∈ fields' → b = w ∨ (l, b) ∈ fields) (distinct : Fields.Distinct fields') :
    Grown run others start later (.map id first) (.map id fields') where
  tidy := tidy
  next := by rw [next]; exact Nat.le_trans h.grown.next g.next
  kept i known hi := by
    have ne : i ≠ id := fun e => hi (by rw [e, writable]; exact List.mem_cons_self)
    rw [elsewhere i ne, g.kept i (known.mono h.grown.next) fun hu => ?_, h.grown.kept i known hi]
    cases ha : Fields.get? k found with
    | none => rw [ha] at hu; cases hu
    | some a =>
      rw [ha] at hu
      exact hi ((h.pending k List.mem_cons_self a ha).inside i hu known)
  drawn i hi known := by
    have before : ∀ l b, (l, b) ∈ fields → i ∈ b.idents → i ∈ (map id first).idents ∨ i ∈ others :=
      fun l b hl hb => h.grown.drawn i
        (by rw [idents]; exact List.mem_cons_of_mem _ (mem_identsIn.2 ⟨l, b, hl, hb⟩)) known
    rw [idents, List.mem_cons, mem_identsIn] at hi
    rcases hi with rfl | ⟨l, b, hl, hb⟩
    · exact .inl (by rw [idents]; exact List.mem_cons_self)
    rcases inner l b hl with rfl | hl
    · rcases h.drawn g hb (known.mono h.grown.next) with ⟨m, a, hm, -, ha⟩ | hi
      · exact before m a hm ha
      · exact .inr hi
    · exact before l b hl hb
  given i hi := by
    have known : after.Given run i := by
      rw [idents, List.mem_cons, mem_identsIn] at hi
      rcases hi with rfl | ⟨l, b, hl, hb⟩
      · exact h.given_root.mono g.next
      rcases inner l b hl with rfl | hl
      · exact g.given i hb
      · exact (h.given (mem_identsIn.2 ⟨l, b, hl, hb⟩)).mono g.next
    exact known.mono (Nat.le_of_eq next.symm)
  keyed := keyed_map.2 ⟨distinct, fun l b hl => (inner l b hl).elim
    (fun e => e ▸ g.keyed) fun hl => (keyed_map.1 h.grown.keyed).2 l b hl⟩

/-- A turn is not noticed at the keys that are still to come. -/
theorem Midway.pending_after (apart : ∀ l ∈ ahead, k.same l = false)
    (elsewhere : ∀ i, i ≠ id → later.cells.lookup i = after.cells.lookup i)
    (inner : ∀ l b, (l, b) ∈ fields' → b = w ∨ (l, b) ∈ fields) {l : Key} (hl : l ∈ ahead)
    (ha : Fields.get? l found = some a) : Pending run bound others start id first fields' later l a := by
  have pending := h.pending l (List.mem_cons_of_mem _ hl) a ha
  obtain ⟨m, hm, hlm⟩ := h.exists_mem (List.mem_cons_of_mem _ hl) ha
  refine
    { small := pending.small
      untouched := fun i hi => ?_
      unshared := pending.unshared.mono fun i hi hw => ?_
      inside := pending.inside }
  · have inside : i ∈ identsIn fields := mem_identsIn.2 ⟨m, a, hm, hi⟩
    rw [elsewhere i fun e => h.root (e ▸ inside),
      h.kept g hm (by rw [← Key.same_right hlm]; exact apart l hl) hi]
    exact pending.untouched i hi
  · rcases List.mem_append.1 hi with hi | hi
    · exact List.mem_append_left _ hi
    rcases List.mem_cons.1 hi with rfl | hi
    · exact List.mem_append_right _ List.mem_cons_self
    -- what stands at the other keys now: what was there, or what the turn made
    obtain ⟨n, b, hn, hb⟩ := mem_identsIn.1 hi
    have other : l.same n = false := by simpa using List.of_mem_filter hn
    have stays : ∀ n b, (n, b) ∈ fields → l.same n = false → i ∈ b.idents →
        i ∈ others ++ id :: identsIn (Fields.erase l fields) := fun n b hn other hb =>
      List.mem_append_right _ (List.mem_cons_of_mem _
        (mem_identsIn.2 ⟨n, b, List.mem_filter.2 ⟨hn, by simp [other]⟩, hb⟩))
    rcases inner n b (List.mem_of_mem_filter hn) with rfl | hn
    · have given := h.given (mem_identsIn.2 ⟨m, a, hm, idents_of_writable hw⟩)
      rcases h.drawn g hb given with ⟨o, c, ho, hko, hc⟩ | hi
      · refine stays o c ho ?_ hc
        rw [← Key.same_right hko, Key.same_comm]
        exact apart l hl
      · exact List.mem_append_left _ hi
    · exact stays n b hn other hb

include whole

/-- From before a turn to after it, with whatever entries the mapping is left. -/
theorem Midway.step (apart : ∀ l ∈ ahead, k.same l = false)
    (tidy : later.Tidy run) (next : later.next = after.next)
    (elsewhere : ∀ i, i ≠ id → later.cells.lookup i = after.cells.lookup i)
    (current : later.current (.map id first) = .map id found')
    (each : ∀ n, bound ≤ n → Fields.mapValues (later.settled n) found' = fields')
    (same : ∀ l ∈ ahead, Fields.get? l found' = Fields.get? l found)
    (inner : ∀ l b, (l, b) ∈ fields' → b = w ∨ (l, b) ∈ fields) (distinct : Fields.Distinct fields') :
    Midway run bound others start id first found' fields' ahead later where
  grown := h.grown_after g tidy next elsewhere inner distinct
  root hi := by
    obtain ⟨l, b, hl, hb⟩ := mem_identsIn.1 hi
    rcases inner l b hl with rfl | hl
    · exact h.root_not_mem whole g hb
    · exact h.root (mem_identsIn.2 ⟨l, b, hl, hb⟩)
  current := current
  each := each
  pending l hl a ha := h.pending_after g apart elsewhere inner hl ((same l hl).symm.trans ha)

/-- A turn that ends with an entry being written. -/
theorem Midway.put (apart : ∀ l ∈ ahead, k.same l = false)
    (now : ∀ n, bound ≤ n → after.settled n v = w) :
    Midway run bound others start id first (Fields.put k v found) (Fields.put k w fields) ahead
      (after.write id (.map id (Fields.put k v found))) := by
  have elsewhere := lookup_write_ne after id (.map id (Fields.put k v found))
  refine h.step whole g apart (g.tidy.write rfl (h.given_root.mono g.next)) rfl elsewhere (current_write rfl _ _)
    (fun n hn => ?_) (fun l hl => ?_) (fun l b hb => (Fields.mem_put hb).imp_left And.right)
    (Fields.distinct_put (distinct_of_keyed h.grown.keyed rfl))
  · have here : (after.write id (.map id (Fields.put k v found))).settled n v = w := by
      rw [← now n hn]
      refine g.tidy.settled_eq fun i hi => elsewhere i fun e => ?_
      rw [now n hn] at hi
      exact h.root_not_mem whole g (e ▸ hi)
    rw [Fields.mapValues_put, here, ← h.each n hn]
    exact Fields.put_mapValues_congr h.distinct (fun l b hb other => h.settled_eq g elsewhere hn hb other) w
  · exact Fields.get?_put_other (by rw [Key.same_comm]; exact apart l hl) v found

/-- A turn that ends with the entry being taken out. -/
theorem Midway.erase (apart : ∀ l ∈ ahead, k.same l = false) :
    Midway run bound others start id first (Fields.erase k found) (Fields.erase k fields) ahead
      (after.write id (.map id (Fields.erase k found))) := by
  have elsewhere := lookup_write_ne after id (.map id (Fields.erase k found))
  refine h.step whole g apart (g.tidy.write rfl (h.given_root.mono g.next)) rfl elsewhere (current_write rfl _ _)
    (fun n hn => ?_) (fun l hl => ?_) (fun l b hb => .inr (List.mem_of_mem_filter hb))
    (Fields.distinct_erase (distinct_of_keyed h.grown.keyed rfl))
  · rw [Fields.mapValues_erase, ← h.each n hn]
    exact Fields.erase_mapValues_congr fun l b hb other => h.settled_eq g elsewhere hn hb other
  · exact Fields.get?_erase_other (by rw [Key.same_comm]; exact apart l hl) found

/-- A turn that writes below its key only. -/
theorem Midway.stay (apart : ∀ l ∈ ahead, k.same l = false) (ha : Fields.get? k found = some a)
    (now : ∀ n, bound ≤ n → after.settled n a = w) :
    Midway run bound others start id first found (Fields.put k w fields) ahead after := by
  refine h.step whole g apart g.tidy rfl (fun _ _ => rfl) (h.current_eq g) (fun n hn => ?_) (fun _ _ => rfl)
    (fun l b hb => (Fields.mem_put hb).imp_left And.right)
    (Fields.distinct_put (distinct_of_keyed h.grown.keyed rfl))
  have there : Fields.get? k (Fields.mapValues (after.settled n) found) = some w := by
    rw [Fields.get?_mapValues, ha, Option.map_some, now n hn]
  rw [← Fields.put_of_get? there, ← h.each n hn]
  exact Fields.put_mapValues_congr h.distinct
    (fun l b hb other => h.settled_eq g (fun _ _ => rfl) hn hb other) w

omit g in
/-- A new, empty mapping at a key that was not there, to be written into in the same turn. -/
theorem Midway.opened (apart : ∀ l ∈ ahead, k.same l = false) (pos : 0 < bound) :
    Midway run bound others start id first (Fields.put k (.map (before.coming run) []) found)
      (Fields.put k (.map (before.coming run) []) fields) (k :: ahead)
      (before.onward.write id (.map id (Fields.put k (.map (before.coming run) []) found))) := by
  have ready := h.ready whole
  have drawn : ∀ i ∈ (map (before.coming run) []).idents, i = before.coming run ∨
      i ∈ ((Fields.get? k found).getD .null).idents ∨ i ∈ others := fun i hi => .inl (List.mem_singleton.1 hi)
  have grown := ready.grown_new drawn rfl
  have untouched := ready.untouched_new drawn
  have now := h.put whole grown apart fun n _ => untouched.settled n
  -- the new mapping is none of those that are there
  have fresh : ∀ i, before.Given run i → before.coming run ≠ i := fun i known e =>
    known before.next (Nat.le_refl _) e.symm
  refine { now with pending := List.forall_mem_cons.2 ⟨fun a ha => ?_, now.pending⟩ }
  rw [Fields.get?_put_self] at ha
  cases ha
  have only : ∀ i ∈ (map (before.coming run) []).writable, i = before.coming run := fun i => List.mem_singleton.1
  exact
    { small := pos
      untouched := fun i hi => by
        rw [lookup_write_ne _ _ _ i fun e => fresh id h.given_root ((List.mem_singleton.1 hi).symm.trans e)]
        exact untouched i hi
      unshared :=
        { once := fun i hi => by simp [idents, identsIn, only i hi]
          apart := fun i hi hm => by
            have given : before.Given run i := by
              rcases List.mem_append.1 hm with hm | hm
              · exact (whole.given i (.inr hm)).mono h.grown.next
              rcases List.mem_cons.1 hm with rfl | hm
              · exact h.given_root
              · obtain ⟨l, b, hl, hb⟩ := mem_identsIn.1 hm
                obtain ⟨hl, other⟩ := List.mem_filter.1 hl
                rcases Fields.mem_put hl with ⟨same, -⟩ | hl
                · simp [same] at other
                · exact h.given (mem_identsIn.2 ⟨l, b, hl, hb⟩)
            exact fresh i given (only i hi).symm }
      inside := fun i hi known => absurd (only i hi).symm (fresh i (known.mono h.grown.next)) }

end Turn

end Cells

end TreeDelta
