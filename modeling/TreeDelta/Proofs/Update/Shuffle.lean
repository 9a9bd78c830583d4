import TreeDelta.Proofs.Update.Meaning
/-!
# The order of children does not matter

`Command.Shuffled` relates commands that differ in the order of the children of descents.
`Shuffled.follows` shows that if one succeeds then so does the other, with the same result and the
same delta but for the order of keys. The induction goes over the swaps; one lemma about two
descents, `follows_descend`, serves both a swap of children and a swap further down.
-/

namespace TreeDelta

/-! ## The same but for the order of keys -/

/-- Places that hold the same, but for the order of keys in mappings. -/
inductive Slot.Rearranged : Slot → Slot → Prop where
  | refl (slot : Slot) : Rearranged slot slot
  | map {id : Ident} {fs gs : List (Key × Value)}
      (below : ∀ k, Rearranged (Fields.get? k fs) (Fields.get? k gs)) :
      Rearranged (some (.map id fs)) (some (.map id gs))

/-- Deltas that are the same, but for the order of keys in trees. -/
inductive Delta.Rearranged : Delta → Delta → Prop where
  | refl (d : Delta) : Rearranged d d
  | tree {ds es : List (Key × Delta)}
      (keys : ∀ k, (Fields.get? k ds).isSome = (Fields.get? k es).isSome)
      (below : ∀ k, Rearranged ((Fields.get? k ds).getD .nothing) ((Fields.get? k es).getD .nothing)) :
      Rearranged (.tree ds) (.tree es)

theorem Slot.Rearranged.trans {s t : Slot} (h : Rearranged s t) :
    ∀ {u : Slot}, Rearranged t u → Rearranged s u := by
  induction h with
  | refl => exact id
  | map below ih =>
    intro u hu
    cases hu with
    | refl => exact .map below
    | map below' => exact .map fun k => ih k (below' k)

theorem Delta.Rearranged.trans {d e : Delta} (h : Rearranged d e) :
    ∀ {f : Delta}, Rearranged e f → Rearranged d f := by
  induction h with
  | refl => exact id
  | tree keys below ih =>
    intro f hf
    cases hf with
    | refl => exact .tree keys below
    | tree keys' below' => exact .tree (fun k => (keys k).trans (keys' k)) fun k => ih k (below' k)

theorem Delta.Rearranged.nothing_iff {d e : Delta} (h : Rearranged d e) :
    d = .nothing ↔ e = .nothing := by
  cases h <;> simp

namespace Draft

theorem commit_of_told {last : Draft} {fresh : Ident} {source : Value}
    (h : (last.commit fresh source).delta ≠ .nothing) :
    last.commit fresh source = ⟨.map fresh last.fields, .tree last.changes⟩ := by
  unfold commit at h ⊢
  split
  · rename_i he; rw [if_pos he] at h; exact absurd rfl h
  · rfl

theorem Tidy.isSome_iff {draft : Draft} (h : draft.Tidy) (k : Key) :
    (Fields.get? k draft.changes).isSome = true ↔
      (Fields.get? k draft.changes).getD .nothing ≠ .nothing := by
  cases hk : Fields.get? k draft.changes with
  | none => simp
  | some d =>
    have : d ≠ .nothing := by rintro rfl; exact h.told k hk
    simpa using this

/-- What two drafts come to is the same but for the order of keys, if it is at every key. -/
theorem commit_rearranged {last last' : Draft} {fresh : Ident} {source source' : Value}
    {before : Slot} (ht : last.Tidy) (ht' : last'.Tidy)
    (slots : ∀ k, Slot.Rearranged (((last.commit fresh source).after before).child k)
      (((last'.commit fresh source').after before).child k))
    (deltas : ∀ k, Delta.Rearranged ((last.commit fresh source).delta.child k)
      ((last'.commit fresh source').delta.child k)) :
    Slot.Rearranged ((last.commit fresh source).after before)
        ((last'.commit fresh source').after before) ∧
      Delta.Rearranged (last.commit fresh source).delta (last'.commit fresh source').delta := by
  by_cases hn : (last.commit fresh source).delta = .nothing
  · have hn' : (last'.commit fresh source').delta = .nothing :=
      commit_told ht' fun k => (deltas k).nothing_iff.1 (by rw [hn]; rfl)
    simp only [Outcome.after, hn, hn']
    exact ⟨.refl _, .refl _⟩
  · have hn' : (last'.commit fresh source').delta ≠ .nothing := fun h =>
      hn (commit_told ht fun k => (deltas k).nothing_iff.2 (by rw [h]; rfl))
    rw [commit_of_told hn, commit_of_told hn'] at slots deltas ⊢
    refine ⟨.map slots, .tree (fun k => ?_) deltas⟩
    rw [Bool.eq_iff_iff, ht.isSome_iff, ht'.isSome_iff]
    exact not_congr (deltas k).nothing_iff

end Draft

/-! ## Shuffled commands -/

namespace Command

/-- The children of some descents in a command stand in another order. -/
inductive Shuffled : Command → Command → Prop where
  | refl (c : Command) : Shuffled c c
  | swap {children others : List (Key × Command)} (h : children.Perm others) :
      Shuffled (descend children) (descend others)
  | down {before after : List (Key × Command)} {k : Key} {c d : Command} (h : Shuffled c d) :
      Shuffled (descend (before ++ (k, c) :: after)) (descend (before ++ (k, d) :: after))
  | trans {c d e : Command} (h : Shuffled c d) (h' : Shuffled d e) : Shuffled c e

theorem Shuffled.symm {c d : Command} (h : Shuffled c d) : Shuffled d c := by
  induction h with
  | refl c => exact .refl c
  | swap h => exact .swap h.symm
  | down _ ih => exact .down ih
  | trans _ _ ih ih' => exact .trans ih' ih

theorem Shuffled.keyed {c d : Command} (h : Shuffled c d) (hc : c.keyed = true) : d.keyed = true := by
  induction h with
  | refl c => exact hc
  | @swap children others h =>
    obtain ⟨hd, hall⟩ := keyed_descend.1 hc
    refine keyed_descend.2 ⟨?_, fun k c hm => hall k c (h.mem_iff.2 hm)⟩
    exact ((h.map Prod.fst).map Key.canon).nodup_iff.1 hd
  | @down before after k c d h ih =>
    obtain ⟨hd, hall⟩ := keyed_descend.1 hc
    refine keyed_descend.2 ⟨?_, fun l e hm => ?_⟩
    · simpa [Fields.Distinct, Fields.keys] using hd
    · rcases List.mem_append.1 hm with hm | hm
      · exact hall l e (by simp [hm])
      · rcases List.mem_cons.1 hm with he | hm
        · cases he; exact ih (hall k c (by simp))
        · exact hall l e (by simp [hm])
  | trans _ _ ih ih' => exact ih' (ih hc)

variable {call : Functions} {run : Nat}

/-- Wherever the first command succeeds the second does too, and leaves the same but for the
order of keys. -/
def Follows (call : Functions) (run : Nat) (c d : Command) : Prop :=
  ∀ place trail site o, c.apply call run place trail site = .ok o →
    ∃ q, d.apply call run place trail site = .ok q ∧
      Slot.Rearranged (o.after site.slot) (q.after site.slot) ∧ Delta.Rearranged o.delta q.delta

theorem Follows.refl (c : Command) : Follows call run c c :=
  fun _ _ _ o h => ⟨o, h, .refl _, .refl _⟩

theorem Follows.trans {c d e : Command} (h : Follows call run c d) (h' : Follows call run d e) :
    Follows call run c e := by
  intro place trail site o ho
  obtain ⟨q, hq, hs, hd⟩ := h place trail site o ho
  obtain ⟨r, hr, hs', hd'⟩ := h' place trail site q hq
  exact ⟨r, hr, hs.trans hs', hd.trans hd'⟩

/-- Two descents whose children follow one another under every key. -/
theorem follows_descend {children others : List (Key × Command)} (hd : Fields.Distinct children)
    (hd' : Fields.Distinct others)
    (onto : ∀ k c, (k, c) ∈ children → ∃ d, (k, d) ∈ others)
    (back : ∀ k d, (k, d) ∈ others → ∃ c, (k, c) ∈ children ∧ Follows call run c d) :
    Follows call run (descend children) (descend others) := by
  intro place trail site o h
  obtain ⟨took, kept⟩ := descend_at hd h
  obtain ⟨fields, last, source, hopen, hl, rfl⟩ := descend_ok h
  -- every child of the second finds in its place what it is to follow
  have each : ∀ k d, (k, d) ∈ others →
      ∃ q, d.apply call run (k :: place) (trail ++ [k.plain]) ((Draft.start fields).site k) = .ok q := by
    intro k d hm
    obtain ⟨c, hc, hf⟩ := back k d hm
    obtain ⟨p, hp, -, -⟩ := took k c hc
    obtain ⟨q, hq, -, -⟩ := hf _ _ _ _ hp
    rw [hopen.child] at hq
    exact ⟨q, hq⟩
  obtain ⟨last', hl'⟩ := applyAll_ok hd' each
  obtain ⟨source', ha⟩ := apply_descend hopen hl'
  obtain ⟨took', kept'⟩ := descend_at hd' ha
  have ht := ((went_applyAll hl).spec hd).2.2 (Draft.tidy_start fields)
  have ht' := ((went_applyAll hl').spec hd').2.2 (Draft.tidy_start fields)
  have both : ∀ k, Slot.Rearranged
        (Slot.child ((last.commit ⟨run, place⟩ source).after site.slot) k)
        (Slot.child ((last'.commit ⟨run, place⟩ source').after site.slot) k) ∧
      Delta.Rearranged ((last.commit ⟨run, place⟩ source).delta.child k)
        ((last'.commit ⟨run, place⟩ source').delta.child k) := by
    intro k
    cases hk : Fields.get? k others with
    | none =>
      have hk' : Fields.get? k children = none := by
        cases hc : Fields.get? k children with
        | none => rfl
        | some c =>
          obtain ⟨l, hl, hs⟩ := Fields.exists_mem_of_get? hc
          obtain ⟨d, hm⟩ := onto l c hl
          rw [Fields.get?_congr hs, Fields.get?_of_mem hd' hm] at hk; cases hk
      obtain ⟨e1, e2⟩ := kept k hk'
      obtain ⟨f1, f2⟩ := kept' k hk
      rw [e1, e2, f1, f2]; exact ⟨.refl _, .refl _⟩
    | some d =>
      obtain ⟨l, hm, hs⟩ := Fields.exists_mem_of_get? hk
      obtain ⟨c, hc, hf⟩ := back l d hm
      obtain ⟨p, hp, e1, e2⟩ := took l c hc
      obtain ⟨q, hq, f1, f2⟩ := took' l d hm
      obtain ⟨q', hq', g1, g2⟩ := hf _ _ _ _ hp
      cases hq.symm.trans hq'
      rw [Slot.child_congr hs, Slot.child_congr hs, Delta.child_congr hs, Delta.child_congr hs, e1, e2,
        f1, f2]
      exact ⟨g1, g2⟩
  exact ⟨_, ha, Draft.commit_rearranged ht ht' (fun k => (both k).1) fun k => (both k).2⟩

theorem Shuffled.follows {c d : Command} (h : Shuffled c d) (hc : c.keyed = true) :
    Follows call run c d := by
  induction h with
  | refl c => exact .refl c
  | swap h =>
    have hc' := (Shuffled.swap h).keyed hc
    refine follows_descend (keyed_descend.1 hc).1 (keyed_descend.1 hc').1 ?_ ?_
    · exact fun k c hm => ⟨c, h.mem_iff.1 hm⟩
    · exact fun k d hm => ⟨d, h.mem_iff.2 hm, .refl d⟩
  | @down before after k c d h ih =>
    have hc' : (descend (before ++ (k, d) :: after)).keyed = true := (Shuffled.down h).keyed hc
    obtain ⟨hd, hall⟩ := keyed_descend.1 hc
    refine follows_descend hd (keyed_descend.1 hc').1 ?_ ?_
    · intro l e hm
      rcases List.mem_append.1 hm with hm | hm
      · exact ⟨e, by simp [hm]⟩
      · rcases List.mem_cons.1 hm with he | hm
        · cases he; exact ⟨d, by simp⟩
        · exact ⟨e, by simp [hm]⟩
    · intro l e hm
      rcases List.mem_append.1 hm with hm | hm
      · exact ⟨e, by simp [hm], .refl e⟩
      · rcases List.mem_cons.1 hm with he | hm
        · cases he; exact ⟨c, by simp, ih (hall k c (by simp))⟩
        · exact ⟨e, by simp [hm], .refl e⟩
  | trans h _ ih ih' => exact (ih hc).trans (ih' (h.keyed hc))

theorem Shuffled.leaf {c d : Command} (h : Shuffled c d) (hc : ∀ children, c ≠ descend children) :
    ∀ children, d ≠ descend children := by
  induction h with
  | refl c => exact hc
  | swap _ | down _ => exact absurd rfl (hc _)
  | trans _ _ ih ih' => exact ih' (ih hc)

end Command

/-- Two updates fail alike, or leave the same value and delta but for the order of keys. -/
inductive Outcome.Rearranged : Except Fault Outcome → Except Fault Outcome → Prop where
  | failed (f g : Fault) : Rearranged (.error f) (.error g)
  | done {o q : Outcome} (value : Slot.Rearranged (some o.value) (some q.value))
      (delta : Delta.Rearranged o.delta q.delta) : Rearranged (.ok o) (.ok q)

theorem Command.Shuffled.follows_root {call : Functions} {run : Nat} {source : Value}
    {c d : Command} {o : Outcome} (h : Shuffled c d) (hc : c.keyed = true)
    (ho : c.applyRoot call run source = .ok o) :
    ∃ q, d.applyRoot call run source = .ok q ∧
      Slot.Rearranged (some o.value) (some q.value) ∧ Delta.Rearranged o.delta q.delta := by
  obtain ⟨ha, hleaf⟩ := applyRoot_iff.1 ho
  obtain ⟨q, hq, hs, hd⟩ := h.follows hc _ _ _ _ ha
  have hr : d.applyRoot call run source = .ok q :=
    applyRoot_iff.2 ⟨hq, fun hn => h.leaf (hleaf hn)⟩
  rw [applyRoot_after ho, applyRoot_after hr] at hs
  exact ⟨q, hr, hs, hd⟩

theorem Command.Shuffled.rearranged {call : Functions} {run : Nat} {source : Value}
    {c d : Command} (h : Shuffled c d) (hc : c.keyed = true) :
    Outcome.Rearranged (c.applyRoot call run source) (d.applyRoot call run source) := by
  cases ho : c.applyRoot call run source with
  | ok o =>
    obtain ⟨q, hq, hs, hd⟩ := h.follows_root hc ho
    rw [hq]; exact .done hs hd
  | error f =>
    cases hq : d.applyRoot call run source with
    | error g => exact .failed f g
    | ok q =>
      obtain ⟨o, ho', -, -⟩ := h.symm.follows_root (h.keyed hc) hq
      cases ho.symm.trans ho'

/-- An update does what its command means, and the order in which the command names its keys does
not matter. -/
theorem Value.update_meaning {call : Functions} {run : Nat} {source commands : Value} {c : Command}
    (hc : commands.keyed = true) (hp : Command.parse [] commands = .ok c) :
    (∀ o, Value.update call run source commands = .ok o → c.Meant call run source o.value) ∧
    ∀ others d, Command.parse [] others = .ok d → c.Shuffled d →
      Outcome.Rearranged (Value.update call run source commands)
        (Value.update call run source others) := by
  have hk := Command.keyed_of_parse hc hp
  rw [update_of_parse hp]
  refine ⟨fun o ho => Command.meant_of_applyRoot hk ho, fun others d hd hs => ?_⟩
  rw [update_of_parse hd]
  exact hs.rearranged hk

/-- A mapping is merged in beside a descent through null, in both orders. -/
theorem Value.update_meaning_of_swap :
    let source : Value := .map ⟨0, []⟩
      [(.str "a", .map ⟨0, [.str "a"]⟩ [(.str "x", .int 1)]), (.str "b", .null)]
    let entries : Value := .map ⟨1, []⟩ [(.str "x", .int 1), (.str "y", .int 2)]
    let merge : Value := .op (.str "$merge") entries
    let inner : Value := .map ⟨1, [.int 0]⟩ [(.str "z", .op (.str "$set") (.int 3))]
    let commands : Value := .map ⟨1, [.int 1]⟩ [(.str "a", merge), (.str "b", inner)]
    let others : Value := .map ⟨1, [.int 2]⟩ [(.str "b", inner), (.str "a", merge)]
    let below : Command := .descend [(.str "z", .op .set (.int 3))]
    let c : Command := .descend [(.str "a", .op .merge entries), (.str "b", below)]
    let d : Command := .descend [(.str "b", below), (.str "a", .op .merge entries)]
    commands.keyed = true ∧ Command.parse [] commands = .ok c ∧
      Command.parse [] others = .ok d ∧ c.Shuffled d ∧
      (∃ o, Value.update (fun _ _ v => .ok v) 2 source commands = .ok o ∧
        c.Meant (fun _ _ v => .ok v) 2 source o.value) ∧
      Outcome.Rearranged (Value.update (fun _ _ v => .ok v) 2 source commands)
        (Value.update (fun _ _ v => .ok v) 2 source others) := by
  intro source entries merge inner commands others below c d
  have hk : commands.keyed = true := by decide
  have hc : Command.parse [] commands = .ok c := rfl
  have hd : Command.parse [] others = .ok d := rfl
  have hs : c.Shuffled d := .swap (List.Perm.swap _ _ _)
  obtain ⟨meant, rearranged⟩ :=
    @Value.update_meaning (fun _ _ v => .ok v) 2 source commands c hk hc
  obtain ⟨o, ho⟩ : ∃ o, Value.update (fun _ _ v => .ok v) 2 source commands = .ok o := ⟨_, rfl⟩
  exact ⟨hk, hc, hd, hs, ⟨o, ho, meant o ho⟩, rearranged others d hd hs⟩

end TreeDelta
