import TreeDelta.Settings.Shared
import TreeDelta.Proofs.Cells.Entries
import TreeDelta.Proofs.Settings.Pruned
/-!
# Overlaying without shared parts

Where nothing that is written into stands at a second place, and sections are only written over sections,
writing one value over another comes to `Settings.overlay` (`Value.overlay_of_unshared`), but for which
mapping a new section is: `Value.unnamed` leaves that out.
-/

namespace TreeDelta

namespace Value

variable {v w : Value} {id : Ident} {fields : List (Key × Value)}

mutual
/-- The value, whichever mappings its sections are. -/
def unnamed : Value → Value
  | map _ fields => map default (unnamedIn fields)
  | v => v

def unnamedIn : List (Key × Value) → List (Key × Value)
  | [] => []
  | (k, v) :: rest => (k, v.unnamed) :: unnamedIn rest
end

theorem unnamedIn_eq (fields : List (Key × Value)) : unnamedIn fields = Fields.mapValues unnamed fields := by
  induction fields with
  | nil => rfl
  | cons entry rest ih => rw [unnamedIn, ih]; rfl

theorem get?_unnamed {fields' : List (Key × Value)} (h : unnamedIn fields = unnamedIn fields') (k : Key) :
    (Fields.get? k fields).map unnamed = (Fields.get? k fields').map unnamed := by
  rw [← Fields.get?_mapValues, ← unnamedIn_eq, h, unnamedIn_eq, Fields.get?_mapValues]

theorem exists_map_of_unnamed (h : v.unnamed = (map id fields).unnamed) :
    ∃ id' fields', v = map id' fields' ∧ unnamedIn fields' = unnamedIn fields := by
  cases v <;> simp [unnamed] at h ⊢
  exact h

theorem isTruthy_mapParts (f : Value → Value) (v : Value) : (v.mapParts f).isTruthy = v.isTruthy := by
  cases v <;> simp [mapParts, isTruthy, Fields.mapValues]

end Value

namespace Settings

open Cells Value Writing

variable {run bound fuel : Nat} {keepNull : Bool} {others : List Ident} {start cells : Cells} {id : Ident}
  {first found fields : List (Key × Value)} {k : Key} {v : Value} {ahead : List Key}

/-! ## Steps on a mapping -/

theorem holds_map (h : cells.current (.map id first) = .map id found) (k : Key) :
    (holds (.map id first) k).from_ cells = (.ok (Fields.has k found), cells) := by
  rw [holds, from_bind, from_current, h]; rfl

theorem itemOf_map (h : cells.current (.map id first) = .map id found) (hk : Fields.get? k found = some v) :
    (itemOf (.map id first) k).from_ cells = (.ok v, cells) := by
  rw [itemOf, from_bind, from_current, h, andThen_ok]
  simp only [hk, from_pure]

theorem put_map (h : cells.current (.map id first) = .map id found) (k : Key) (v : Value) :
    (put (.map id first) k v).from_ cells = (.ok (), cells.write id (.map id (Fields.put k v found))) := by
  rw [put, from_bind, from_current, h]; rfl

theorem remove_map (h : cells.current (.map id first) = .map id found) (k : Key) :
    (remove (.map id first) k).from_ cells = (.ok (), cells.write id (.map id (Fields.erase k found))) := by
  rw [remove, from_bind, from_current, h]; rfl

theorem discard_map (h : cells.current (.map id first) = .map id found) (k : Key) :
    (discard (.map id first) k).from_ cells = (.ok (), cells.write id (.map id (Fields.erase k found))) := by
  rw [discard, from_bind, from_current, h]; rfl

/-! ## One key -/

/-- What is written into the mapping `u` has made it `w`. -/
def Filled (run bound : Nat) (others : List Ident) (before : Cells) (u w : Value)
    (outcome : Except Fault Unit × Cells) : Prop :=
  ∃ after, outcome = (.ok (), after) ∧ Grown run others before after u w ∧
    ∀ n, bound ≤ n → after.settled n u = w

/-- A section is written into, and then taken out if it is left empty. -/
theorem section_turn {aid : Ident} {inner filled : List (Key × Value)}
    (h : Midway run bound others start id first found fields (k :: ahead) cells)
    (whole : Ready run others start (.map id first)) (apart : ∀ l ∈ ahead, k.same l = false)
    (pos : 0 < bound) (ha : Fields.get? k found = some (.map aid inner))
    (turn : Filled run bound others cells (.map aid inner) (.map aid filled)
      ((overlayValue run keepNull fuel (.map aid inner) v).from_ cells)) :
    ∃ after found', (do
        overlayValue run keepNull fuel (← itemOf (.map id first) k) v
        if !keepNull && !(← current (← itemOf (.map id first) k)).isTruthy then
          remove (.map id first) k : Writing Unit).from_ cells = (.ok (), after) ∧
      Midway run bound others start id first found' (settle keepNull k (.map aid filled) fields) ahead after ∧
      ∀ l, k.same l = false → Fields.get? l found' = Fields.get? l found := by
  obtain ⟨after, ran, grown, now⟩ := turn
  have g : Grown run others cells after ((Fields.get? k found).getD .null) (.map aid filled) := by rwa [ha]
  have there := h.current_eq g
  have truthy : (after.current (.map aid inner)).isTruthy = (Value.map aid filled).isTruthy := by
    obtain ⟨n, rfl⟩ : ∃ n, bound = n + 1 := ⟨bound - 1, by omega⟩
    rw [← now (n + 1) (Nat.le_refl _), settled_succ, isTruthy_mapParts]
  simp only [from_bind, itemOf_map h.current ha, ran, itemOf_map there ha, from_current, truthy, andThen_ok]
  cases stays : keepNull || (Value.map aid filled).isTruthy with
  | true =>
    have goes : (!keepNull && !(Value.map aid filled).isTruthy) = false := by rw [← Bool.not_or, stays]; rfl
    rw [settle, stays, goes]
    exact ⟨after, found, rfl, h.stay whole g apart ha now, fun _ _ => rfl⟩
  | false =>
    have goes : (!keepNull && !(Value.map aid filled).isTruthy) = true := by rw [← Bool.not_or, stays]; rfl
    rw [settle, stays, goes]
    exact ⟨_, _, remove_map there k, h.erase whole g apart, fun l hl =>
      Fields.get?_erase_other (by rwa [Key.same_comm]) found⟩

theorem settle_put (keepNull : Bool) (k : Key) (v w : Value) (target : List (Key × Value)) :
    settle keepNull k v (Fields.put k w target) = settle keepNull k v target := by
  unfold settle
  split
  · exact Fields.put_put k v w target
  · exact Fields.erase_put k w target

theorem unnamedIn_settle {target target' : List (Key × Value)} (same : unnamedIn target = unnamedIn target')
    {w : Value} (hv : v.unnamed = w.unnamed) (truthy : v.isTruthy = w.isTruthy) :
    unnamedIn (settle keepNull k v target) = unnamedIn (settle keepNull k w target') := by
  simp only [unnamedIn_eq] at same ⊢
  unfold settle
  rw [truthy]
  split
  · rw [Fields.mapValues_put, Fields.mapValues_put, same, hv]
  · rw [Fields.mapValues_erase, Fields.mapValues_erase, same]

theorem isTruthy_of_unnamed {id id' : Ident} {fields fields' : List (Key × Value)}
    (h : unnamedIn fields = unnamedIn fields') : (Value.map id fields).isTruthy = (Value.map id' fields').isTruthy := by
  cases fields <;> cases fields' <;> first | rfl | cases h

theorem fits_empty (id : Ident) (new : Value) : Fits (some (.map id [])) new := by
  intro p u w _ _ hw
  cases p with
  | nil => cases hw; simp [Value.fields?]
  | cons k p =>
    rw [Slot.at_cons, Slot.child_map, Fields.get?_nil, Slot.at_none] at hw
    cases hw

/-- A section is written into whether it is there or not. -/
theorem nested_turn {vid : Ident} {new plain : List (Key × Value)}
    (h : Midway run bound others start id first found fields (k :: ahead) cells)
    (whole : Ready run others start (.map id first)) (apart : ∀ l ∈ ahead, k.same l = false)
    (pos : 0 < bound) (same : unnamedIn fields = unnamedIn plain)
    (fits : Fits (Fields.get? k found) (.map vid new))
    (turn : ∀ {aid : Ident} {inner plain : List (Key × Value)} {cells : Cells},
      Ready run others cells (.map aid inner) → Fits (some (.map aid inner)) (.map vid new) →
      unnamedIn inner = unnamedIn plain → (Value.map aid inner).size ≤ bound →
      ∃ filled plain', Filled run bound others cells (.map aid inner) (.map aid filled)
          ((overlayValue run keepNull fuel (.map aid inner) (.map vid new)).from_ cells) ∧
        overlay keepNull plain new = .ok plain' ∧ unnamedIn filled = unnamedIn plain') :
    ∃ after found' fields' plain', (do
        if !(← holds (.map id first) k) then put (.map id first) k (.map (← fresh run) [])
        overlayValue run keepNull fuel (← itemOf (.map id first) k) (.map vid new)
        if !keepNull && !(← current (← itemOf (.map id first) k)).isTruthy then
          remove (.map id first) k : Writing Unit).from_ cells = (.ok (), after) ∧
      Midway run bound others start id first found' fields' ahead after ∧
      unnamedIn fields' = unnamedIn plain' ∧
      (∀ rest, overlay keepNull plain ((k, .map vid new) :: rest) = overlay keepNull plain' rest) ∧
      ∀ l, k.same l = false → Fields.get? l found' = Fields.get? l found := by
  rw [from_bind, holds_map h.current, andThen_ok, Fields.has]
  cases ha : Fields.get? k found with
  | some a =>
    obtain ⟨aid, inner, rfl⟩ : ∃ aid inner, a = .map aid inner := by
      have := fits [] _ a rfl (by simp [Value.fields?]) ha
      cases a <;> simp_all [Value.fields?]
    have like := get?_unnamed same k
    rw [h.get?_eq List.mem_cons_self, ha, eq_comm] at like
    obtain ⟨b, hb, like⟩ := Option.map_eq_some_iff.1 like
    obtain ⟨bid, inner', rfl, alike_inner⟩ := exists_map_of_unnamed like
    have ready := h.ready whole
    rw [ha] at ready fits
    obtain ⟨filled, plain', fill, ran, alike⟩ :=
      turn ready fits alike_inner.symm (h.pending k List.mem_cons_self _ ha).small
    obtain ⟨after, found', done, midway, others_kept⟩ := section_turn h whole apart pos ha fill
    refine ⟨after, found', _, settle keepNull k (.map bid plain') plain, done, midway, ?_, fun rest => ?_,
      others_kept⟩
    · exact unnamedIn_settle same (congrArg (Value.map default) alike) (isTruthy_of_unnamed alike)
    · rw [overlay, hb]
      simp only [Option.getD_some, ran, bind, Except.bind]
  | none =>
    have missing := get?_unnamed same k
    rw [h.get?_eq List.mem_cons_self, ha, eq_comm] at missing
    have missing := Option.map_eq_none_iff.1 missing
    have opened := h.opened whole apart pos
    have there := Fields.get?_put_self k (Value.map (cells.coming run) []) found
    have ready := opened.ready whole
    rw [there] at ready
    obtain ⟨filled, plain', fill, ran, alike⟩ := turn ready (fits_empty _ _) rfl pos
    obtain ⟨after, found', done, midway, others_kept⟩ := section_turn opened whole apart pos there fill
    refine ⟨after, found', _, settle keepNull k (.map vid plain') plain, ?_, midway, ?_, fun rest => ?_,
      fun l hl => ?_⟩
    · rw [← done]
      simp only [Option.isSome_none, Bool.not_false, if_true, from_bind, from_fresh, andThen_ok,
        put_map (show cells.onward.current _ = _ from h.current)]
    · rw [settle_put]
      exact unnamedIn_settle same (congrArg (Value.map default) alike) (isTruthy_of_unnamed alike)
    · rw [overlay, missing]
      simp only [Option.getD_none, ran, bind, Except.bind]
    · rw [others_kept l hl, Fields.get?_put_other (by rwa [Key.same_comm])]

/-- Anything else is written as it is. -/
theorem plain_turn (h : Midway run bound others start id first found fields (k :: ahead) cells)
    (whole : Ready run others start (.map id first)) (apart : ∀ l ∈ ahead, k.same l = false)
    (keyed : v.keyed = true) (aside : ∀ i ∈ v.idents, i ∈ others) :
    Midway run bound others start id first (Fields.put k v found) (Fields.put k v fields) ahead
      (cells.write id (.map id (Fields.put k v found))) := by
  have ready := h.ready whole
  have drawn : ∀ i ∈ v.idents, i ∈ ((Fields.get? k found).getD .null).idents ∨ i ∈ others :=
    fun i hi => .inr (aside i hi)
  exact h.put whole (ready.grown drawn keyed) apart fun n _ => (ready.untouched_of drawn).settled n

/-! ## All keys -/

/-- In the midst of writing `changes`: `rest` is still to come, and the entries of the mapping are those that
`overlay` has reached on its way to `goal`. -/
structure Overlaying (run bound : Nat) (keepNull : Bool) (others : List Ident) (start : Cells) (id : Ident)
    (first changes : List (Key × Value)) (goal : Except Fault (List (Key × Value)))
    (rest found fields reached : List (Key × Value)) (cells : Cells) : Prop where
  midway : Midway run bound others start id first found fields (Fields.keys rest) cells
  alike : unnamedIn fields = unnamedIn reached
  onward : overlay keepNull reached rest = goal
  inside : ∀ k v, (k, v) ∈ rest → (k, v) ∈ changes ∧ Fits (Fields.get? k found) v
  distinct : Fields.Distinct rest

variable {changes rest reached found' fields' reached' : List (Key × Value)} {after : Cells}
  {goal : Except Fault (List (Key × Value))}

/-- What is still to come finds its keys as they were. -/
theorem Overlaying.next
    (h : Overlaying run bound keepNull others start id first changes goal ((k, v) :: rest) found fields reached cells)
    (midway : Midway run bound others start id first found' fields' (Fields.keys rest) after)
    (alike : unnamedIn fields' = unnamedIn reached')
    (runs : overlay keepNull reached ((k, v) :: rest) = overlay keepNull reached' rest)
    (kept : ∀ l, k.same l = false → Fields.get? l found' = Fields.get? l found) :
    Overlaying run bound keepNull others start id first changes goal rest found' fields' reached' after where
  midway := midway
  alike := alike
  onward := runs.symm.trans h.onward
  inside l w hl := by
    rw [kept l ((Fields.distinct_cons.1 h.distinct).1 l w hl)]
    exact h.inside l w (List.mem_cons_of_mem _ hl)
  distinct := (Fields.distinct_cons.1 h.distinct).2

theorem overlay_agrees (keepNull : Bool) (fuel : Nat) : ∀ {id nid : Ident}
    {first changes plain : List (Key × Value)} {cells : Cells} (bound : Nat),
    (Value.map nid changes).size ≤ fuel → Ready run others cells (.map id first) →
    (Value.map nid changes).keyed = true → (∀ i ∈ (Value.map nid changes).idents, i ∈ others) →
    Fits (some (.map id first)) (.map nid changes) → unnamedIn first = unnamedIn plain →
    (Value.map id first).size ≤ bound → (Value.map nid changes).size ≤ bound →
    ∃ filled plain', Filled run bound others cells (.map id first) (.map id filled)
        ((overlayValue run keepNull fuel (.map id first) (.map nid changes)).from_ cells) ∧
      overlay keepNull plain changes = .ok plain' ∧ unnamedIn filled = unnamedIn plain' := by
  induction fuel with
  | zero =>
    intro _ nid _ changes _ _ _ small
    have := (Value.map nid changes).size_pos
    omega
  | succ fuel ih =>
    intro id nid first changes plain cells bound fits_fuel ready keyed aside fits same small small'
    rw [Value.size] at fits_fuel small small'
    obtain ⟨bound, rfl⟩ : ∃ b, bound = b + 1 := ⟨bound - 1, by omega⟩
    rw [overlayValue]
    have distinct : Fields.Distinct changes := distinct_of_keyed keyed rfl
    refine forEntries_rule (P := fun rest c => ∃ found fields reached,
        Overlaying run bound keepNull others cells id first changes (overlay keepNull plain changes)
          rest found fields reached c)
      (Q := fun outcome => ∃ filled plain',
        Filled run (bound + 1) others cells (.map id first) (.map id filled) outcome ∧
        overlay keepNull plain changes = .ok plain' ∧ unnamedIn filled = unnamedIn plain')
      ?still ?each ?last ?first
    case still =>
      rintro rest c ⟨found, fields, reached, h⟩
      exact Untouched.current fun i hi => h.midway.aside ready (aside i hi)
    case first =>
      exact ⟨first, first, plain,
        { midway := ready.midway (by omega) _, alike := same, onward := rfl, distinct
          inside := fun k v hm => ⟨hm, fits.child (Fields.get?_of_mem distinct hm)⟩ }⟩
    case last =>
      rintro c ⟨found, fields, reached, h⟩
      refine ⟨fields, reached, ⟨c, rfl, h.midway.grown, fun n hn => ?_⟩, ?_, h.alike⟩
      · obtain ⟨n, rfl⟩ : ∃ m, n = m + 1 := ⟨n - 1, by omega⟩
        rw [settled_succ, h.midway.current, mapParts, h.midway.each n (by omega)]
      · rw [← h.onward, overlay]
    case each =>
      rintro k v rest c ⟨found, fields, reached, h⟩
      obtain ⟨hm, fits⟩ := h.inside k v List.mem_cons_self
      have apart : ∀ l ∈ Fields.keys rest, k.same l = false := fun l => Fields.apart_of_distinct h.distinct
      have entry_keyed := (keyed_map.1 keyed).2 k v hm
      have entry_aside : ∀ i ∈ v.idents, i ∈ others := fun i hi =>
        aside i (by rw [idents]; exact List.mem_cons_of_mem _ (mem_identsIn.2 ⟨k, v, hm, hi⟩))
      have small := size_le_sizesIn hm
      have put_kept : ∀ l, k.same l = false → Fields.get? l (Fields.put k v found) = Fields.get? l found :=
        fun l hl => Fields.get?_put_other (by rwa [Key.same_comm]) v found
      have put_alike : unnamedIn (Fields.put k v fields) = unnamedIn (Fields.put k v reached) := by
        rw [unnamedIn_eq, unnamedIn_eq, Fields.mapValues_put, Fields.mapValues_put, ← unnamedIn_eq, h.alike,
          unnamedIn_eq]
      cases v with
      | map vid new =>
        obtain ⟨after, found', fields', reached', done, midway, alike, runs, kept⟩ :=
          nested_turn h.midway ready apart (by rw [Value.size] at small; omega) h.alike fits
            fun ready fits same small' =>
              ih bound (by omega) ready entry_keyed entry_aside fits same small' (by omega)
        dsimp only
        rw [done]
        exact ⟨_, _, _, h.next midway alike (runs rest) kept⟩
      | null =>
        dsimp only
        by_cases keeps : keepNull = true
        · rw [if_pos keeps, put_map h.midway.current]
          exact ⟨_, _, _, h.next (plain_turn h.midway ready apart rfl (by simp [idents])) put_alike
            (by rw [overlay, if_pos keeps]) put_kept⟩
        · rw [if_neg keeps, discard_map h.midway.current]
          refine ⟨_, _, _, h.next (h.midway.erase ready (h.midway.ready ready).grown_null apart) ?_
            (by rw [overlay, if_neg keeps]) fun l hl => Fields.get?_erase_other (by rwa [Key.same_comm]) found⟩
          rw [unnamedIn_eq, unnamedIn_eq, Fields.mapValues_erase, Fields.mapValues_erase, ← unnamedIn_eq, h.alike,
            unnamedIn_eq]
      | _ =>
        dsimp only
        rw [put_map h.midway.current]
        exact ⟨_, _, _, h.next (plain_turn h.midway ready apart entry_keyed entry_aside) put_alike
          (by rw [overlay] <;> simp) put_kept⟩

end Settings

/-- Where nothing that is written into has a second place, and sections meet sections or nothing, writing
one value over another comes to the same as overlaying settings, whichever mappings new sections are. -/
theorem Value.overlay_of_unshared {run : Nat} {keepNull : Bool} {id nid : Ident}
    {fields changes : List (Key × Value)} (unshared : (map id fields).Unshared (map nid changes).idents)
    (keyed : ∀ v ∈ [map id fields, map nid changes], v.keyed = true)
    (new_run : ∀ v ∈ [map id fields, map nid changes], ∀ i ∈ v.idents, i.source ≠ run)
    (fits : Settings.Fits (some (map id fields)) (map nid changes)) :
    ∃ entries entries', Value.overlay run keepNull (map id fields) (map nid changes) = .ok (map id entries) ∧
      Settings.overlay keepNull fields changes = .ok entries' ∧ unnamedIn entries = unnamedIn entries' := by
  simp only [List.forall_mem_cons] at keyed new_run
  obtain ⟨keyed, keyed_new, -⟩ := keyed
  obtain ⟨mine, theirs, -⟩ := new_run
  have ready : Cells.Ready run (map nid changes).idents {} (map id fields) :=
    .initial unshared keyed fun i hi => hi.elim (mine i) (theirs i)
  obtain ⟨size, total⟩ : ∃ n, n = (map id fields).size + (map nid changes).size := ⟨_, rfl⟩
  obtain ⟨entries, entries', ⟨after, ran, -, now⟩, overlaid, alike⟩ := Settings.overlay_agrees keepNull
    size size (by omega) ready keyed_new (fun _ h => h) fits rfl (by omega) (by omega)
  refine ⟨entries, entries', ?_, overlaid, alike⟩
  rw [Value.overlay, ← total, ← Writing.from_.eq_1, ran]
  exact congrArg Except.ok (now size (Nat.le_refl _))

/-- What is written into a section that stands at two keys shows at both. -/
example :
    let shared : Value := .map ⟨0, [.str "a"]⟩ []
    let written : Value := .map ⟨0, [.str "a"]⟩ [(.str "n", .int 1)]
    Value.overlay 1 false (.map ⟨0, []⟩ [(.str "a", shared), (.str "b", shared)])
        (.map ⟨2, []⟩ [(.str "a", .map ⟨2, [.str "a"]⟩ [(.str "n", .int 1)])]) =
      .ok (.map ⟨0, []⟩ [(.str "a", written), (.str "b", written)]) := by
  decide +kernel

end TreeDelta
