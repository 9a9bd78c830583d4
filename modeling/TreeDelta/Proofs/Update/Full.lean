import TreeDelta.Proofs.Update.Meaning
/-!
# Updates keep values full

An update of a full value by a command whose arguments are full, and whose functions make full
values of what they are called with, leaves a full value (`Command.applyRoot_full`). What the functions
are called with is known beforehand: by `Command.apply_below` each acts on what stood at its path.
-/

namespace TreeDelta

/-- What stands at the place, if anything, is full. -/
def Slot.Full (slot : Slot) : Prop := ∀ v, slot = some v → v.Full

theorem Slot.full_some {v : Value} (h : v.Full) : Slot.Full (some v) := by
  rintro _ ⟨⟩; exact h

theorem Slot.Full.child {slot : Slot} (h : slot.Full) (k : Key) : Slot.Full (slot.child k) := by
  intro w hw
  obtain ⟨id, fields, rfl⟩ := exists_map_of_child hw
  exact (Value.full_map.1 (h _ rfl)).2 k w hw

theorem Site.after_set_full {site : Site} {v : Value} (h : Slot.Full site.slot) (hv : v.Full) :
    Slot.Full ((site.set v).after site.slot) := by
  rw [after_set, settled]
  split
  · exact h
  · exact Slot.full_some hv

/-- A draft that was gone through with full outcomes is committed with a full value. -/
theorem Draft.commit_full {α : Type} {R : Key → α → Slot → Outcome → Prop} {before : Slot}
    {fields : List (Key × Value)} {entries : List (Key × α)} {last : Draft} {fresh : Ident}
    {source : Value} (hb : before.Full) (hopen : before.Opens fields) (hd : Fields.Distinct entries)
    (went : Draft.Went R (.start fields) entries last)
    (hR : ∀ k x o, (k, x) ∈ entries → R k x (before.child k) o →
      Slot.Full (o.after (before.child k))) :
    Slot.Full ((last.commit fresh source).after before) := by
  obtain ⟨took, kept⟩ := commit_at fresh source hopen hd went
  have each : ∀ k, Slot.Full (((last.commit fresh source).after before).child k) := by
    intro k
    cases hk : Fields.get? k entries with
    | none => rw [(kept k hk).1]; exact hb.child k
    | some x =>
      obtain ⟨l, hl, hs⟩ := Fields.exists_mem_of_get? hk
      obtain ⟨o, ho, e, -⟩ := took l x hl
      rw [Slot.child_congr hs, e]
      exact hR l x o hl ho
  have hfields : Fields.Distinct fields := by
    cases hopen with
    | absent => exact List.nodup_nil
    | mapping h =>
      cases before with
      | none => cases h
      | some v => exact Value.distinct_of_keyed (hb v rfl).1 h
  unfold commit at each ⊢
  split
  · exact hb
  · rename_i hne
    simp only [hne] at each
    exact Slot.full_some (Value.full_map.2 ⟨went.distinct_fields hfields, each⟩)

theorem Site.extend_full {site : Site} {fresh : Ident} {target : Option (List (Key × Value))}
    {extensions : List (Key × Value)} (h : Slot.Full site.slot)
    (he : (Value.map fresh extensions).Full) (ht : site.Targets target) :
    Slot.Full ((site.extend fresh target extensions).after site.slot) := by
  obtain ⟨hd, hv⟩ := Value.full_map.1 he
  cases target with
  | none => exact Slot.full_some he
  | some fields =>
    refine Draft.commit_full h (.mapping ht) hd (Draft.went_setAll _ extensions) ?_
    rintro k v o hm rfl
    have hk : Slot.Full (Site.mk k (Slot.child site.slot k)).slot := h.child k
    exact Site.after_set_full hk (hv k v (Fields.get?_of_mem hd hm))

/-- A sequence of full items is full: nothing is asked of what stands in a sequence. -/
theorem Value.Full.withItems {u : Value} {others : List Value} (fresh : Ident)
    (h : ∀ w ∈ others, w.keyed = true) : (u.withItems fresh others).Full := by
  have hk : keyedItems others = true := keyedItems_iff.2 h
  cases u <;> exact ⟨hk, rfl⟩

/-- What an operation makes of a full place with a full argument is full, if what a function makes
there is. -/
theorem Operation.apply_full {call : Functions} {fresh : Ident} {site : Site} {kind : Operation}
    {v : Value} {o : Outcome} (h : Slot.Full site.slot) (hv : v.Full)
    (hmade : ∀ id made, kind = .invoke → v = .fn id →
      call id fresh (site.slot.getD .absent) = .ok made → made.Full)
    (ho : kind.apply call fresh site v = .ok o) : Slot.Full (o.after site.slot) := by
  cases did_of_apply ho with
  | set => exact Site.after_set_full h hv
  | push found | unshift found =>
    obtain ⟨u, hu⟩ := Slot.of_sequence found
    have hc : site.current = u := by rw [Site.current, hu]; rfl
    rw [hc] at found
    have hitems := Value.keyed_of_sequence (h u hu).1 found
    refine Slot.full_some (Value.Full.withItems fresh fun w hw => ?_)
    simp only [List.mem_append, List.mem_cons, List.not_mem_nil, or_false] at hw
    rcases hw with hw | hw <;> first | exact hitems w hw | exact hw ▸ hv.1
  | merge he ht => exact Site.extend_full h (hv.copy he) ht
  | defaults he ht => exact Site.extend_full h ((hv.copy he).filter _) ht
  | invoke hc => exact Site.after_set_full h (hmade _ _ rfl rfl hc)

namespace Command

/-- The arguments of the command are full, and so is what its functions make of what stands at
their paths. -/
structure Admissible (call : Functions) (run : Nat) (place : List Key) (slot : Slot) (c : Command) :
    Prop where
  keyed : c.keyed = true
  whole : c.whole = true
  made : ∀ p id made, c.Holds p (.op .invoke (.fn id)) →
    call id ⟨run, p.reverse ++ place⟩ ((slot.at_ p).getD .absent) = .ok made → made.Full

variable {call : Functions} {run : Nat}

theorem Admissible.child {place : List Key} {slot : Slot} {children : List (Key × Command)}
    (h : (descend children).Admissible call run place slot) {k : Key} {c : Command}
    (hm : (k, c) ∈ children) : c.Admissible call run (k :: place) (slot.child k) where
  keyed := (keyed_descend.1 h.keyed).2 k c hm
  whole := whole_descend.1 h.whole k c hm
  made p id made hp hc := by
    refine h.made (k :: p) id made (.down hm hp) ?_
    simpa using hc

theorem apply_full {c : Command} :
    ∀ {place : List Key} {trail : Trail} {site : Site} {o : Outcome},
      c.Admissible call run place site.slot → Slot.Full site.slot →
      c.apply call run place trail site = .ok o → Slot.Full (o.after site.slot) := by
  induction c using Command.induction with
  | op kind argument =>
    intro place trail site o ha hs h
    refine Operation.apply_full hs ⟨ha.keyed, ha.whole⟩ (fun id made hk hv hc => ?_) h
    subst hk hv
    exact ha.made [] id made (.here _) (by simpa using hc)
  | unknown kind argument => intro place trail site o _ _ h; cases h
  | descend children ih =>
    intro place trail site o ha hs h
    obtain ⟨fields, last, source, hopen, hl, rfl⟩ := descend_ok h
    refine Draft.commit_full hs hopen (keyed_descend.1 ha.keyed).1 (went_applyAll hl) ?_
    intro k c p hm hp
    exact ih k c hm (ha.child hm) (hs.child k) hp

/-- An update of a full value by an admissible command leaves a full value. -/
theorem applyRoot_full {source : Value} {c : Command} {o : Outcome}
    (ha : c.Admissible call run [] (some source)) (hs : source.Full)
    (h : c.applyRoot call run source = .ok o) : o.value.Full := by
  have hfull := apply_full ha (Slot.full_some hs) (apply_of_applyRoot h)
  rw [applyRoot_after h] at hfull
  exact hfull _ rfl

end Command

end TreeDelta
