import TreeDelta.Proofs.Symmetry
import TreeDelta.Proofs.Update.Full
import TreeDelta.Proofs.Update.Shuffle
import TreeDelta.Proofs.Delta.Net
/-!
# The delta of an update is in normal form

An update tells nothing exactly if its result is the same as its source, and then the result is the
source itself. What it tells otherwise is well formed and `Delta.Tight`: no tree in it is empty, and
no change in it changes nothing. That a setting compares the new value with the old one, and a
purge the old one with the new, is where the symmetry of sameness comes in.
-/

namespace TreeDelta

/-- A delta that tells nothing in vain: no tree in it is empty, and purging takes no change out. -/
inductive Delta.Tight : Delta → Prop where
  | node {c : Change} (kept : Delta.purge (.node c) = .node c) : Tight (.node c)
  | tree {entries : List (Key × Delta)} (nonempty : entries ≠ [])
      (below : ∀ k d, (k, d) ∈ entries → Tight d) : Tight (.tree entries)

/-- Nothing is told, or nothing in vain. -/
def Delta.Neat (d : Delta) : Prop := d = .nothing ∨ d.Tight

/-- What stands at the place, if anything, is regular. -/
def Slot.Regular (slot : Slot) : Prop := ∀ v, slot = some v → v.regular = true

theorem Slot.Regular.child {slot : Slot} (h : slot.Regular) (k : Key) :
    Slot.Regular (slot.child k) := by
  intro w hw
  obtain ⟨id, fields, rfl⟩ := exists_map_of_child hw
  exact Value.regular_of_get? (h _ rfl) hw

/-! ## Single operations -/

theorem Outcome.neat_replaced {site : Site} {kind : ChangeKind} {v : Value}
    (hk : kind ≠ .remove) (hv : site.current.same v = false) :
    (replaced site kind v).delta.Neat := by
  refine Or.inr (.node ?_)
  have hvoid : (Change.of kind site.current v).isVoid = false := by
    cases kind with
    | add => exact Delta.isVoid_add _ _
    | change => rw [Delta.isVoid_change, hv]
    | remove => exact absurd rfl hk
  rw [Delta.purge, hvoid]; rfl

theorem Site.writeKind_ne (site : Site) : site.writeKind ≠ .remove := by
  unfold writeKind; split <;> simp

theorem Site.set_neat {site : Site} {v : Value} (h : Slot.Regular site.slot)
    (hv : v.regular = true) : (site.set v).delta.Neat := by
  unfold Site.set
  split
  · exact Or.inl rfl
  · rename_i hs
    refine Outcome.neat_replaced (writeKind_ne site) (Bool.eq_false_iff.2 fun he => hs ?_)
    have hc : site.current.regular = true := by
      cases hl : site.slot with
      | none => simp [Site.current, hl, Value.regular]
      | some u => simpa [Site.current, hl] using h u hl
    exact Value.same_symm hc hv he

/-- A draft that was gone through with neat outcomes is committed with a neat delta. -/
theorem Draft.commit_neat {α : Type} {R : Key → α → Slot → Outcome → Prop} {before : Slot}
    {fields : List (Key × Value)} {entries : List (Key × α)} {last : Draft} {fresh : Ident}
    {source : Value} (hopen : before.Opens fields) (hd : Fields.Distinct entries)
    (went : Draft.Went R (.start fields) entries last)
    (hR : ∀ k x o, (k, x) ∈ entries → R k x (before.child k) o → o.delta.Neat) :
    (last.commit fresh source).delta.Neat := by
  obtain ⟨took, kept⟩ := commit_at fresh source hopen hd went
  have ht := (went.spec hd).2.2 (Draft.tidy_start fields)
  unfold Draft.commit at took kept ⊢
  split
  · exact Or.inl rfl
  · rename_i hne
    simp only [hne, Bool.false_eq_true, if_false, Delta.child_tree] at took kept
    refine Or.inr (.tree (by simpa using hne) fun k d hm => ?_)
    have hk : Fields.get? k last.changes = some d := Fields.get?_of_mem ht.distinct hm
    have told : d ≠ .nothing := fun e => ht.told k (e ▸ hk)
    -- the key has an entry, since something is told of it
    cases he : Fields.get? k entries with
    | none =>
      have hn := (kept k he).2
      rw [hk] at hn
      exact absurd hn told
    | some x =>
      obtain ⟨l, hl, hs⟩ := Fields.exists_mem_of_get? he
      obtain ⟨o, ho, -, hq⟩ := took l x hl
      rw [← Fields.get?_congr hs, hk, Option.getD_some] at hq
      exact (hR l x o hl ho).resolve_left (hq ▸ told) |> (hq ▸ ·)

theorem Site.extend_neat {site : Site} {fresh : Ident} {target : Option (List (Key × Value))}
    {extensions : List (Key × Value)} (h : Slot.Regular site.slot) (hd : Fields.Distinct extensions)
    (he : ∀ k v, (k, v) ∈ extensions → v.regular = true) (ht : site.Targets target) :
    (site.extend fresh target extensions).delta.Neat := by
  cases target with
  | none =>
    have ht : site.current.isAbsent = true := ht
    refine Outcome.neat_replaced (writeKind_ne site) ?_
    cases hc : site.current <;> rw [hc] at ht <;> first | (cases ht; done) | rfl
  | some fields =>
    refine Draft.commit_neat (.mapping ht) hd (Draft.went_setAll _ extensions) ?_
    rintro k v o hm rfl
    exact Site.set_neat (h.child k) (he k v hm)

theorem Value.length_of_equalItems {as bs : List Value} (h : equalItems as bs = true) :
    as.length = bs.length := by
  induction as generalizing bs with
  | nil =>
    cases bs with
    | nil => rfl
    | cons => simp [equalItems] at h
  | cons a as ih =>
    cases bs with
    | nil => simp [equalItems] at h
    | cons b bs =>
      simp only [equalItems, Bool.and_eq_true] at h
      simp [ih h.2]

theorem Value.tuple_of_sequence {u : Value} {items : List Value} (h : u.sequence? = some items)
    (hc : u.isContainer = false) : u.tuple? = some items := by
  cases u <;> first | exact h | cases hc

/-- Sequences of different lengths are never the same. -/
theorem Value.same_of_length {u w : Value} {as bs : List Value} (hu : u.sequence? = some as)
    (hw : w.sequence? = some bs) (hl : as.length ≠ bs.length) : u.same w = false := by
  rw [Bool.eq_false_iff]
  intro h
  rcases same_iff.1 h with rfl | ⟨hcu, hcw, ⟨x, hx, -⟩ | ⟨-, -, -, he⟩⟩
  · rw [hu] at hw
    cases hw
    exact hl rfl
  · cases u <;> first | (cases hx; done) | cases hu
  · obtain ⟨cs, hc, he⟩ := (equal_of_tuple (tuple_of_sequence hu hcu) w).1 he
    rw [tuple_of_sequence hw hcw] at hc
    cases hc
    exact hl (length_of_equalItems he)

theorem Operation.apply_neat {call : Functions} {fresh : Ident} {site : Site} {kind : Operation}
    {v : Value} {o : Outcome} (h : Slot.Regular site.slot) (hv : v.regular = true)
    (hmade : ∀ id made, kind = .invoke → v = .fn id →
      call id fresh (site.slot.getD .absent) = .ok made → made.regular = true)
    (ho : kind.apply call fresh site v = .ok o) : o.delta.Neat := by
  have entries : ∀ extensions, v.fields? = some extensions →
      Fields.Distinct extensions ∧ ∀ k w, (k, w) ∈ extensions → w.regular = true := by
    intro extensions he
    cases v with
    | map id fields => cases he; exact Value.regular_map.1 hv
    | _ => cases he
  cases did_of_apply ho with
  | set => exact Site.set_neat h hv
  | push found =>
    exact Outcome.neat_replaced (by simp) (Value.same_of_length found (Value.sequence?_withItems ..) (by simp))
  | unshift found =>
    exact Outcome.neat_replaced (by simp) (Value.same_of_length found (Value.sequence?_withItems ..) (by simp))
  | merge he ht =>
    obtain ⟨hd, hr⟩ := entries _ he
    exact Site.extend_neat h hd hr ht
  | defaults he ht =>
    obtain ⟨hd, hr⟩ := entries _ he
    exact Site.extend_neat h (Fields.distinct_filter hd)
      (fun k w hm => hr k w (List.mem_filter.1 hm).1) ht
  | invoke hc => exact Site.set_neat h (hmade _ _ rfl rfl hc)

/-! ## Commands -/

namespace Command

/-- The arguments of the command satisfy `P`, and so does what its functions make of what stands
at their paths. -/
structure Supplies (P : Value → Prop) (call : Functions) (run : Nat) (place : List Key)
    (slot : Slot) (c : Command) : Prop where
  given : ∀ p kind argument, c.Holds p (.op kind argument) → P argument
  made : ∀ p id made, c.Holds p (.op .invoke (.fn id)) →
    call id ⟨run, p.reverse ++ place⟩ ((slot.at_ p).getD .absent) = .ok made → P made

variable {P : Value → Prop} {call : Functions} {run : Nat}

theorem Supplies.child {place : List Key} {slot : Slot} {children : List (Key × Command)}
    (h : (descend children).Supplies P call run place slot) {k : Key} {c : Command}
    (hm : (k, c) ∈ children) : c.Supplies P call run (k :: place) (slot.child k) where
  given p kind argument hp := h.given (k :: p) kind argument (.down hm hp)
  made p id made hp hc := by
    refine h.made (k :: p) id made (.down hm hp) ?_
    simpa using hc

theorem apply_neat {c : Command} :
    ∀ {place : List Key} {trail : Trail} {site : Site} {o : Outcome}, c.keyed = true →
      c.Supplies (fun v => v.regular = true) call run place site.slot → Slot.Regular site.slot →
      c.apply call run place trail site = .ok o → o.delta.Neat := by
  induction c using Command.induction with
  | op kind argument =>
    intro place trail site o _ hc hs h
    refine Operation.apply_neat hs (hc.given [] kind argument (.here _)) (fun id made hk hv hm => ?_) h
    subst hk hv
    exact hc.made [] id made (.here _) (by simpa using hm)
  | unknown kind argument => intro place trail site o _ _ _ h; cases h
  | descend children ih =>
    intro place trail site o hk hc hs h
    obtain ⟨hd, hall⟩ := keyed_descend.1 hk
    obtain ⟨fields, last, source, hopen, hl, rfl⟩ := descend_ok h
    refine Draft.commit_neat hopen hd (went_applyAll hl) fun k c p hm hp => ?_
    exact ih k c hm (hall k c hm) (hc.child hm) (hs.child k) hp

end Command

/-! ## Updates -/

/-- What is told of two places by a change that changes something tells them apart. -/
theorem Delta.Records.ne_of_tight {run : Nat} {before after : Slot} {d : Delta}
    (h : Records run before after d) (ht : d.Tight) : before ≠ after := by
  induction h with
  | unchanged slot => cases ht
  | added v => simp
  | changed u v =>
    cases ht with
    | node kept =>
      rintro ⟨⟩
      rw [purge, isVoid_change, Value.same_self] at kept
      cases kept
  | @tree before id fields entries _ _ nonempty distinct _ _ ih =>
    cases ht with
    | tree _ below =>
      obtain ⟨⟨k, d⟩, rest, rfl⟩ := List.exists_cons_of_ne_nil nonempty
      have hk : Fields.get? k ((k, d) :: rest) = some d := Fields.get?_of_mem distinct (by simp)
      rintro rfl
      exact ih k (by rw [hk]; exact below k d (by simp)) rfl

/-- What an operation tells at the root goes with a value that is not the same. -/
theorem Operation.apply_told {call : Functions} {fresh : Ident} {site : Site} {kind : Operation}
    {v : Value} {o : Outcome} (hne : o.value ≠ site.current) (h : kind.apply call fresh site v = .ok o)
    (ht : o.delta ≠ .nothing) : o.value.same site.current = false := by
  have setting : ∀ w, (site.set w).delta ≠ .nothing →
      (site.set w).value.same site.current = false := by
    intro w ht
    unfold Site.set at ht ⊢
    split
    · rename_i hs; rw [if_pos hs] at ht; exact absurd rfl ht
    · rename_i hs; simpa [Outcome.replaced] using hs
  have mapping : ∀ id fields, o.value = .map id fields → o.value.same site.current = false := by
    intro id fields hm
    rw [Bool.eq_false_iff]
    exact fun hs => hne ((Value.same_container (by rw [hm]; rfl)).1 hs)
  have extending : ∀ target extensions, o = site.extend fresh target extensions →
      o.value.same site.current = false := by
    rintro target extensions rfl
    cases target with
    | none => exact mapping fresh extensions rfl
    | some fields => exact mapping _ _ (by rw [Site.extend, Draft.commit_of_told ht])
  cases did_of_apply h with
  | set => exact setting v ht
  | push found =>
    exact Value.same_of_length (Value.sequence?_withItems ..) found (by simp)
  | unshift found =>
    exact Value.same_of_length (Value.sequence?_withItems ..) found (by simp)
  | merge => exact extending _ _ rfl
  | defaults => exact extending _ _ rfl
  | invoke => exact setting _ ht

theorem Command.applyRoot_told {call : Functions} {run : Nat} {source : Value} {c : Command}
    {o : Outcome} (hk : c.keyed = true) (h : c.applyRoot call run source = .ok o)
    (hn : o.delta.Neat) (ht : o.delta ≠ .nothing) : o.value.same source = false := by
  have hne : o.value ≠ source := fun e =>
    (applyRoot_records hk h).ne_of_tight (hn.resolve_left ht) (congrArg some e.symm)
  cases c with
  | op kind argument => exact Operation.apply_told hne (apply_of_applyRoot h) ht
  | unknown => cases h
  | descend children =>
    obtain ⟨fields, last, source', -, -, rfl⟩ := descend_ok (apply_of_applyRoot h)
    rw [Draft.commit_of_told ht] at hne ⊢
    rw [Bool.eq_false_iff]
    exact fun hs => hne ((Value.same_container rfl).1 hs)

/-- Deltas of updates are in normal form: nothing is told exactly if the result is the same as the
source, which it then is itself, and what is told is well formed and nothing of it in vain. -/
theorem Value.update_normal {call : Functions} {run : Nat} {source commands : Value} {c : Command}
    {o : Outcome} (hs : source.Full) (hr : source.regular = true)
    (hp : Command.parse [] commands = .ok c) (ha : c.Admissible call run [] (some source))
    (hc : c.Supplies (fun v => v.regular = true) call run [] (some source))
    (h : Value.update call run source commands = .ok o) :
    (o.delta = .nothing ↔ o.value.same source = true) ∧
      (o.delta = .nothing → o.value = source) ∧
      (o.delta ≠ .nothing → o.delta.isValid = true ∧ o.delta.Tight) := by
  rw [update_of_parse hp] at h
  have hsome : Slot.Regular (some source) := by rintro _ ⟨⟩; exact hr
  have hn : o.delta.Neat := Command.apply_neat ha.keyed hc hsome (Command.apply_of_applyRoot h)
  have still : o.delta = .nothing → o.value = source := Command.applyRoot_unchanged h
  have hfull := Command.applyRoot_full ha hs h
  have hexact : Delta.Leads .exact source o.value o.delta := by
    refine (Command.applyRoot_records ha.keyed h).leads ?_ ?_
    · rintro _ ⟨⟩; exact hs.2
    · rintro _ ⟨⟩; exact hfull.2
  refine ⟨⟨fun ht => by rw [still ht]; exact same_self source, fun hsame => ?_⟩, still, fun ht => ?_⟩
  · by_contra ht
    rw [Command.applyRoot_told ha.keyed h hn ht] at hsame
    cases hsame
  · have hvalid := hexact.valid likeness_eq fun {new v} (hnew : new = v) => by rw [hnew]
    exact ⟨hvalid.resolve_left ht, hn.resolve_left ht⟩

/-- A tuple grows and an empty mapping is merged into null; NaN set to itself, and an empty mapping
merged into a mapping, are not told. -/
theorem Value.update_normal_of_pushed :
    let nan : Value := .nan ⟨0, [.str "i"]⟩
    let source : Value := .map ⟨0, []⟩ [(.str "t", .tuple [.int 0]), (.str "i", nan),
      (.str "n", .null), (.str "m", .map ⟨0, [.str "m"]⟩ [])]
    let empty : Value := .map ⟨1, [.int 0]⟩ []
    let commands : Value := .map ⟨1, []⟩ [(.str "t", .op (.str "$push") (.int 1)),
      (.str "i", .op (.str "$set") nan), (.str "n", .op (.str "$merge") empty),
      (.str "m", .op (.str "$merge") empty)]
    let c : Command := .descend [(.str "t", .op .push (.int 1)), (.str "i", .op .set nan),
      (.str "n", .op .merge empty), (.str "m", .op .merge empty)]
    let call : Functions := fun _ _ v => .ok v
    source.Full ∧ source.regular = true ∧ Command.parse [] commands = .ok c ∧
      c.Admissible call 2 [] (some source) ∧
      c.Supplies (fun v => v.regular = true) call 2 [] (some source) ∧
      ∃ o, Value.update call 2 source commands = .ok o ∧ o.value.same source = false ∧
        o.delta.isValid = true ∧ o.delta.Tight := by
  intro nan source empty commands c call
  have hs : source.Full := ⟨by decide, by decide⟩
  have hr : source.regular = true := by decide
  have hp : Command.parse [] commands = .ok c := rfl
  have holds : ∀ p kind argument, c.Holds p (.op kind argument) →
      kind ≠ .invoke ∧ argument.regular = true := by
    intro p kind argument hm
    simp only [c] at hm
    cases hm with
    | down hm hp =>
      simp only [List.mem_cons, Prod.mk.injEq, List.not_mem_nil, or_false] at hm
      rcases hm with ⟨-, rfl⟩ | ⟨-, rfl⟩ | ⟨-, rfl⟩ | ⟨-, rfl⟩ <;> cases hp <;> decide
  have ha : c.Admissible call 2 [] (some source) :=
    ⟨by decide, by decide, fun p id made hm => absurd rfl (holds p _ _ hm).1⟩
  have hc : c.Supplies (fun v => v.regular = true) call 2 [] (some source) :=
    ⟨fun p kind argument hm => (holds p kind argument hm).2,
      fun p id made hm => absurd rfl (holds p _ _ hm).1⟩
  obtain ⟨o, ho, hv⟩ : ∃ o, Value.update call 2 source commands = .ok o ∧ o.delta.isValid = true :=
    ⟨_, rfl, rfl⟩
  have hd : o.delta ≠ .nothing := fun e => by rw [e] at hv; cases hv
  obtain ⟨still, -, told⟩ := Value.update_normal hs hr hp ha hc ho
  exact ⟨hs, hr, hp, ha, hc, o, ho, Bool.eq_false_iff.2 (mt still.2 hd), told hd⟩

end TreeDelta
