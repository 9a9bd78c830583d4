import TreeDelta.Proofs.Update.Shuffle
import TreeDelta.Proofs.Equality
/-!
# The same command in another update

The containers that an update makes are its own, and so are the trails in its messages and the
spelling of its keys; of what one place holds a command makes equal values in all updates, and it
tells the same of them (`Command.Does.can`, `Command.Does.agrees`). Functions have to be
`Functions.Pure` for that.
-/

namespace TreeDelta

/-! ## Equal values and deltas -/

/-- Equal whichever is asked, where one object is equal to itself. -/
def Value.Equals (u v : Value) : Prop := u.equalItem v = true ∧ v.equalItem u = true

/-- Deltas that tell the same in equal values, regardless of the order of keys. -/
inductive Delta.Agrees : Delta → Delta → Prop where
  | refl (d : Delta) : Agrees d d
  | node {c d : Change} (label : c.label = d.label) (old : c.old.Equals d.old)
      (new : c.new.Equals d.new) : Agrees (.node c) (.node d)
  | tree {ds es : List (Key × Delta)} (left : Fields.Distinct ds) (right : Fields.Distinct es)
      (keys : ∀ k, (Fields.get? k ds).isSome = (Fields.get? k es).isSome)
      (below : ∀ k, Agrees ((Fields.get? k ds).getD .nothing) ((Fields.get? k es).getD .nothing)) :
      Agrees (.tree ds) (.tree es)

namespace Value

@[simp] theorem Equals.refl (v : Value) : v.Equals v := by simp [Equals]

theorem Equals.symm {u v : Value} (h : u.Equals v) : v.Equals u := ⟨h.2, h.1⟩

theorem Equals.trans {u v w : Value} (h : u.Equals v) (h' : v.Equals w) : u.Equals w :=
  ⟨equalItem_trans h.1 h'.1, equalItem_trans h'.2 h.2⟩

theorem equals_withItems (fresh fresh' : Ident) (v : Value) (items : List Value) :
    (v.withItems fresh items).Equals (v.withItems fresh' items) := by
  cases v with
  | list =>
    have h : ∀ i j, equalItem (list i items) (list j items) = true := by
      intro i j
      exact equalItem_iff.2 (Or.inr (by simp [equal, equalItems_self]))
    exact ⟨h _ _, h _ _⟩
  | _ => exact .refl _

/-- Mappings are equal if they are key by key. -/
theorem equals_map {i j : Ident} {fs gs : List (Key × Value)} (hf : Fields.Distinct fs)
    (hg : Fields.Distinct gs)
    (h : ∀ k, Option.Rel Equals (Fields.get? k fs) (Fields.get? k gs)) :
    (map i fs).Equals (map j gs) := by
  have keys : ∀ k, (Fields.get? k fs).isSome = (Fields.get? k gs).isSome := by
    intro k
    have hk := h k
    generalize Fields.get? k fs = s at hk ⊢
    generalize Fields.get? k gs = t at hk ⊢
    cases hk <;> rfl
  constructor
  · refine equalItem_iff.2 (Or.inr ((equal_map hf hg).2 ⟨keys, fun k a b ha hb => ?_⟩))
    have := h k
    rw [ha, hb] at this
    cases this with
    | some he => exact he.1
  · refine equalItem_iff.2 (Or.inr ((equal_map hg hf).2 ⟨fun k => (keys k).symm, fun k b a hb ha => ?_⟩))
    have := h k
    rw [ha, hb] at this
    cases this with
    | some he => exact he.2

end Value

namespace Slot

/-- Places that hold equal values, or nothing. -/
abbrev Equals : Slot → Slot → Prop := Option.Rel Value.Equals

theorem Equals.refl (slot : Slot) : Equals slot slot := by
  cases slot <;> simp

end Slot

namespace Delta

theorem Agrees.symm {d e : Delta} (h : Agrees d e) : Agrees e d := by
  induction h with
  | refl d => exact .refl d
  | node label old new => exact .node label.symm old.symm new.symm
  | tree left right keys _ ih => exact .tree right left (fun k => (keys k).symm) ih

theorem Agrees.trans {d e : Delta} (h : Agrees d e) : ∀ {f : Delta}, Agrees e f → Agrees d f := by
  induction h with
  | refl d => exact id
  | node label old new =>
    intro f h
    cases h with
    | refl => exact .node label old new
    | node label' old' new' => exact .node (label.trans label') (old.trans old') (new.trans new')
  | tree left right keys below ih =>
    intro f h
    cases h with
    | refl => exact .tree left right keys below
    | tree _ right' keys' below' =>
      exact .tree left right' (fun k => (keys k).trans (keys' k)) fun k => ih k (below' k)

theorem Agrees.nothing_iff {d e : Delta} (h : Agrees d e) : d = .nothing ↔ e = .nothing := by
  cases h <;> simp

theorem equalEntries_iff {ds es : List (Key × Delta)} :
    equalEntries ds es = true ↔
      ∀ k d, (k, d) ∈ ds → ∃ e, Fields.get? k es = some e ∧ equal d e = true := by
  induction ds with
  | nil => simp [equalEntries]
  | cons entry rest ih =>
    rw [equalEntries, Bool.and_eq_true, ih, Fields.forall_cons]
    refine and_congr_left fun _ => ?_
    cases Fields.get? entry.1 es <;> simp

theorem equal_of_equals {u v : Value} (h : u.Equals v) (hu : u.equal u = true) : u.equal v = true := by
  rcases Value.equalItem_iff.1 h.1 with rfl | he
  · exact hu
  · exact he

/-- Deltas that agree are equal, unless one is not even equal to itself, as with NaN in it. -/
theorem Agrees.equal {d e : Delta} (h : Agrees d e) (hd : d.equal d = true) : d.equal e = true := by
  induction h with
  | refl d => exact hd
  | node label old new =>
    simp only [Delta.equal, Change.equal, Bool.and_eq_true] at hd ⊢
    exact ⟨⟨label ▸ hd.1.1, equal_of_equals old hd.1.2⟩, equal_of_equals new hd.2⟩
  | @tree ds es left right keys below ih =>
    simp only [Delta.equal, Bool.and_eq_true, decide_eq_true_eq, equalEntries_iff] at hd ⊢
    refine ⟨Nat.le_antisymm ?_ ?_, fun k d hm => ?_⟩
    · exact Fields.length_le_of_keys left fun k hk => keys k ▸ hk
    · exact Fields.length_le_of_keys right fun k hk => (keys k).symm ▸ hk
    · have hk := Fields.get?_of_mem left hm
      obtain ⟨e, he⟩ := Option.isSome_iff_exists.1 ((keys k).symm.trans (by rw [hk]; rfl))
      obtain ⟨d', hd', hself⟩ := hd.2 k d hm
      rw [hk] at hd'
      cases hd'
      have hb := ih k
      rw [hk, he] at hb
      exact ⟨e, he, hb hself⟩

/-- Nothing, or a tree that tells something of each of its keys and names none twice. -/
inductive Plain : Delta → Prop where
  | nothing : Plain .nothing
  | tree {entries : List (Key × Delta)} (nonempty : entries ≠ [])
      (distinct : Fields.Distinct entries) (told : ∀ k, Fields.get? k entries ≠ some .nothing) :
      Plain (.tree entries)

theorem isSome_iff_told {entries : List (Key × Delta)} (told : ∀ k, Fields.get? k entries ≠ some .nothing)
    (k : Key) : (Fields.get? k entries).isSome = true ↔ (tree entries).child k ≠ .nothing := by
  have := told k
  rw [child_tree]
  cases hk : Fields.get? k entries with
  | none => simp
  | some d => rw [hk] at this; simpa using this

theorem Plain.nothing_iff {d : Delta} (h : d.Plain) : d = .nothing ↔ ∀ k, d.child k = .nothing := by
  cases h with
  | nothing => simp
  | @tree entries nonempty distinct told =>
    refine iff_of_false (by simp) fun hn => nonempty (Fields.eq_nil_of_get? fun k => ?_)
    have := mt (isSome_iff_told told k).1 (not_not.2 (hn k))
    simpa using this

/-- Such deltas agree if they do below every key. -/
theorem Plain.agrees {d e : Delta} (hd : d.Plain) (he : e.Plain)
    (h : ∀ k, Agrees (d.child k) (e.child k)) : Agrees d e := by
  by_cases hn : d = .nothing
  · have hn' : e = .nothing := by
      rw [he.nothing_iff]
      intro k
      exact (h k).nothing_iff.1 (hd.nothing_iff.1 hn k)
    rw [hn, hn']; exact .refl _
  · have hn' : e ≠ .nothing := by
      intro h'
      refine hn (hd.nothing_iff.2 fun k => (h k).nothing_iff.2 ?_)
      exact he.nothing_iff.1 h' k
    cases hd with
    | nothing => exact absurd rfl hn
    | tree _ left told =>
      cases he with
      | nothing => exact absurd rfl hn'
      | tree _ right told' =>
        refine .tree left right (fun k => ?_) h
        rw [Bool.eq_iff_iff, isSome_iff_told told, isSome_iff_told told']
        exact not_congr (h k).nothing_iff

end Delta

/-! ## Functions and single operations -/

/-- Called again with the same object, functions fail or succeed as before and return an equal
value, which counts as unchanged from the object or not as before. -/
def Functions.Pure (call : Functions) : Prop :=
  ∀ id fresh fresh' v made, call id fresh v = .ok made →
    ∃ made', call id fresh' v = .ok made' ∧ made.Equals made' ∧ made.same v = made'.same v

/-- Outcomes at one place that leave equal values and tell the same. -/
structure Outcome.Agrees (slot : Slot) (o q : Outcome) : Prop where
  after : Slot.Equals (o.after slot) (q.after slot)
  delta : Delta.Agrees o.delta q.delta

/-- No key stands twice in what the place holds. -/
def Slot.Keyed (slot : Slot) : Prop := ∀ v, slot = some v → v.keyed = true

theorem Slot.Keyed.child {slot : Slot} (h : slot.Keyed) (k : Key) : Slot.Keyed (slot.child k) := by
  intro w hw
  obtain ⟨id, fields, rfl⟩ := exists_map_of_child hw
  exact Value.keyed_of_get? (h _ rfl) hw

/-- A descent into the place starts with no key twice. -/
def Slot.Distinct (slot : Slot) : Prop := ∀ fields, slot.Opens fields → Fields.Distinct fields

theorem Slot.Keyed.distinct {slot : Slot} (h : slot.Keyed) : slot.Distinct := by
  intro fields ho
  cases ho with
  | absent => exact List.nodup_nil
  | mapping hf =>
    cases slot with
    | none => cases hf
    | some v => exact Value.distinct_of_keyed (h v rfl) hf

theorem Outcome.agrees_replaced {slot : Slot} {k l : Key} {kind : ChangeKind} {v w : Value}
    (h : v.Equals w) :
    Agrees slot (replaced ⟨k, slot⟩ kind v) (replaced ⟨l, slot⟩ kind w) :=
  ⟨.some h, .node rfl (.refl _) h⟩

theorem Site.set_agrees {slot : Slot} {k l : Key} {v w : Value} (h : v.Equals w)
    (hs : v.same (slot.getD .absent) = w.same (slot.getD .absent)) :
    Outcome.Agrees slot ((Site.mk k slot).set v) ((Site.mk l slot).set w) := by
  by_cases hv : v.same (slot.getD .absent) = true
  · have e : (Site.mk k slot).set v = .unchanged (slot.getD .absent) := if_pos hv
    have e' : (Site.mk l slot).set w = .unchanged (slot.getD .absent) := if_pos (hs ▸ hv)
    rw [e, e']
    exact ⟨Slot.Equals.refl _, .refl _⟩
  · have e : (Site.mk k slot).set v = .replaced ⟨k, slot⟩ (Site.mk k slot).writeKind v := if_neg hv
    have e' : (Site.mk l slot).set w = .replaced ⟨l, slot⟩ (Site.mk l slot).writeKind w :=
      if_neg (hs ▸ hv)
    rw [e, e']
    exact Outcome.agrees_replaced h

theorem Draft.commit_agrees {last : Draft} (hd : Fields.Distinct last.fields) (slot : Slot)
    (fresh fresh' : Ident) (source : Value) :
    Outcome.Agrees slot (last.commit fresh source) (last.commit fresh' source) := by
  unfold commit
  split
  · exact ⟨Slot.Equals.refl _, .refl _⟩
  · exact ⟨.some (Value.equals_map hd hd fun k => Slot.Equals.refl _), .refl _⟩

theorem Site.extend_agrees {slot : Slot} {k l : Key} {fresh fresh' : Ident}
    {target : Option (List (Key × Value))} {extensions : List (Key × Value)} (hs : slot.Keyed)
    (hd : Fields.Distinct extensions) (ht : (Site.mk k slot).Targets target) :
    Outcome.Agrees slot ((Site.mk k slot).extend fresh target extensions)
      ((Site.mk l slot).extend fresh' target extensions) := by
  cases target with
  | none => exact Outcome.agrees_replaced (Value.equals_map hd hd fun k => Slot.Equals.refl _)
  | some fields =>
    have hf : Fields.Distinct fields := hs.distinct fields (.mapping ht)
    exact Draft.commit_agrees ((Draft.went_setAll (.start fields) extensions).distinct_fields hf) ..

theorem mappingOf_of_fields {kind : Operation} {role : Role} {key : Key} {v : Value}
    {fields : List (Key × Value)} (h : v.fields? = some fields) :
    mappingOf kind role key v = .ok fields := by
  simp [mappingOf, h]

theorem Site.targetOf_of_targets {site : Site} {kind : Operation}
    {target : Option (List (Key × Value))} (h : site.Targets target) :
    site.targetOf kind = .ok target := by
  cases target with
  | none =>
    have h : site.current.isAbsent = true := h
    simp [targetOf, h]
  | some fields =>
    have h : site.current.fields? = some fields := h
    have ha : site.current.isAbsent = false := by
      cases hc : site.current <;> rw [hc] at h <;> first | rfl | cases h
    simp [targetOf, ha, mappingOf_of_fields h, Except.map]

theorem Operation.apply_agrees {call : Functions} {fresh : Ident} {slot : Slot} {k : Key}
    {kind : Operation} {v : Value} {o : Outcome} (pure : call.Pure) (hs : slot.Keyed)
    (hv : v.keyed = true) (h : kind.apply call fresh ⟨k, slot⟩ v = .ok o) (fresh' : Ident) (l : Key) :
    ∃ q, kind.apply call fresh' ⟨l, slot⟩ v = .ok q ∧ Outcome.Agrees slot o q := by
  cases did_of_apply h with
  | set => exact ⟨_, rfl, Site.set_agrees (.refl v) rfl⟩
  | push found =>
    have found' : (Site.mk l slot).current.sequence? = some _ := found
    refine ⟨_, by simp only [Operation.apply, Site.push, Site.sequenceAt, found']; rfl, ?_⟩
    exact Outcome.agrees_replaced (Value.equals_withItems ..)
  | unshift found =>
    have found' : (Site.mk l slot).current.sequence? = some _ := found
    refine ⟨_, by simp only [Operation.apply, Site.unshift, Site.sequenceAt, found']; rfl, ?_⟩
    exact Outcome.agrees_replaced (Value.equals_withItems ..)
  | @merge _ extensions target given found =>
    have found' : (Site.mk l slot).Targets target := found
    refine ⟨(Site.mk l slot).extend fresh' target extensions, ?_,
      Site.extend_agrees hs (Value.distinct_of_keyed hv given) found⟩
    simp only [Operation.apply, Site.merge, mappingOf_of_fields given,
      Site.targetOf_of_targets found']
    rfl
  | @defaults _ extensions target given found =>
    have found' : (Site.mk l slot).Targets target := found
    refine ⟨(Site.mk l slot).extend fresh' target (lacking target extensions), ?_,
      Site.extend_agrees hs (Fields.distinct_filter (Value.distinct_of_keyed hv given)) found⟩
    simp only [Operation.apply, Site.defaults, mappingOf_of_fields given,
      Site.targetOf_of_targets found']
    rfl
  | @invoke id made called =>
    obtain ⟨made', hm, he, hsame⟩ := pure id fresh fresh' _ made called
    refine ⟨(Site.mk l slot).set made', ?_, Site.set_agrees he hsame⟩
    have hm' : call id fresh' (Site.mk l slot).current = .ok made' := hm
    simp only [Operation.apply, Site.invoke, hm']
    rfl

/-! ## Descents key by key -/

namespace Command

/-- In some update the command makes the outcome of what a place holds. -/
def Does (call : Functions) (c : Command) (slot : Slot) (o : Outcome) : Prop :=
  ∃ run place trail key, c.apply call run place trail ⟨key, slot⟩ = .ok o

/-- In every update the command succeeds on what a place holds. -/
def Can (call : Functions) (c : Command) (slot : Slot) : Prop :=
  ∀ run place trail key, ∃ o, c.apply call run place trail ⟨key, slot⟩ = .ok o

variable {call : Functions} {children : List (Key × Command)} {slot : Slot} {o : Outcome}

theorem Does.child (h : (descend children).Does call slot o) (hd : Fields.Distinct children) {k : Key}
    {c : Command} (hk : Fields.get? k children = some c) :
    ∃ p, c.Does call (slot.child k) p ∧ Slot.child (o.after slot) k = p.after (slot.child k) ∧
      o.delta.child k = p.delta := by
  obtain ⟨run, place, trail, key, h⟩ := h
  obtain ⟨l, hm, hs⟩ := Fields.exists_mem_of_get? hk
  obtain ⟨p, hp, e1, e2⟩ := (descend_at hd h).1 l c hm
  rw [Slot.child_congr hs, Slot.child_congr hs, Delta.child_congr hs]
  exact ⟨p, ⟨_, _, _, _, hp⟩, e1, e2⟩

theorem Does.other (h : (descend children).Does call slot o) (hd : Fields.Distinct children) {k : Key}
    (hk : Fields.get? k children = none) :
    Slot.child (o.after slot) k = slot.child k ∧ o.delta.child k = .nothing := by
  obtain ⟨run, place, trail, key, h⟩ := h
  exact (descend_at hd h).2 k hk

theorem Does.opens (h : (descend children).Does call slot o) : ∃ fields, slot.Opens fields := by
  obtain ⟨run, place, trail, key, h⟩ := h
  obtain ⟨fields, -, -, hopen, -⟩ := descend_ok h
  exact ⟨fields, hopen⟩

theorem can_descend {fields : List (Key × Value)} (hopen : slot.Opens fields)
    (hd : Fields.Distinct children)
    (h : ∀ k c, Fields.get? k children = some c → c.Can call (slot.child k)) :
    (descend children).Can call slot := by
  intro run place trail key
  have each : ∀ k c, (k, c) ∈ children → ∃ o, c.apply call run (k :: place) (trail ++ [k.plain])
      ((Draft.start fields).site k) = .ok o := by
    intro k c hm
    have := h k c (Fields.get?_of_mem hd hm) run (k :: place) (trail ++ [k.plain]) k
    rwa [hopen.child] at this
  obtain ⟨last, hl⟩ := applyAll_ok hd each
  obtain ⟨source, ha⟩ := @apply_descend call run place trail ⟨key, slot⟩ children fields last hopen hl
  exact ⟨_, ha⟩

/-- What a descent leaves and tells: the place as it was and nothing, or a new mapping and a tree. -/
theorem Does.plain (h : (descend children).Does call slot o) (hd : Fields.Distinct children)
    (hs : slot.Distinct) :
    o.delta.Plain ∧ (o.delta ≠ .nothing →
      ∃ id fields, o.after slot = some (.map id fields) ∧ Fields.Distinct fields) := by
  obtain ⟨run, place, trail, key, h⟩ := h
  obtain ⟨fields, last, source, hopen, hl, rfl⟩ := descend_ok h
  have went := went_applyAll hl
  have ht := (went.spec hd).2.2 (Draft.tidy_start fields)
  refine ⟨?_, fun hne => ?_⟩
  · unfold Draft.commit
    split
    · exact .nothing
    · rename_i he
      exact .tree (by simpa using he) ht.distinct ht.told
  · rw [Draft.commit_of_told hne]
    exact ⟨_, _, rfl, went.distinct_fields (hs fields hopen)⟩

theorem after_of_nothing (h : o.delta = .nothing) : o.after slot = slot := by
  simp [Outcome.after, Delta.isNothing_iff.2 h]

theorem Does.opens_after (h : (descend children).Does call slot o) (hd : Fields.Distinct children)
    (hs : slot.Distinct) :
    (∃ fields, Slot.Opens (o.after slot) fields) ∧ Slot.Distinct (o.after slot) := by
  by_cases hn : o.delta = .nothing
  · rw [after_of_nothing hn]
    exact ⟨h.opens, hs⟩
  · obtain ⟨id, fields, e, hf⟩ := (h.plain hd hs).2 hn
    rw [e]
    refine ⟨⟨fields, .mapping rfl⟩, fun others ho => ?_⟩
    cases ho with
    | absent ha => cases ha
    | mapping hm => cases hm; exact hf

/-- Two descents into one place agree if they do below every key. -/
theorem agrees_descend {others : List (Key × Command)} {q : Outcome}
    (ho : (descend children).Does call slot o) (hd : Fields.Distinct children)
    (hq : (descend others).Does call slot q) (hd' : Fields.Distinct others) (hs : slot.Distinct)
    (h : ∀ k, Slot.Equals (Slot.child (o.after slot) k) (Slot.child (q.after slot) k) ∧
      Delta.Agrees (o.delta.child k) (q.delta.child k)) : Outcome.Agrees slot o q := by
  obtain ⟨plain, mapping⟩ := ho.plain hd hs
  obtain ⟨plain', mapping'⟩ := hq.plain hd' hs
  have hdelta := plain.agrees plain' fun k => (h k).2
  refine ⟨?_, hdelta⟩
  by_cases hn : o.delta = .nothing
  · rw [after_of_nothing hn, after_of_nothing (hdelta.nothing_iff.1 hn)]
    exact Slot.Equals.refl slot
  · obtain ⟨i, fs, e, hf⟩ := mapping hn
    obtain ⟨j, gs, e', hg⟩ := mapping' (mt hdelta.nothing_iff.2 hn)
    rw [e, e'] at h ⊢
    exact .some (Value.equals_map hf hg fun k => (h k).1)

theorem Does.can_and_agrees {c : Command} (pure : call.Pure) :
    ∀ {slot : Slot} {o : Outcome}, c.keyed = true → slot.Keyed → c.Does call slot o →
      c.Can call slot ∧ ∀ q, c.Does call slot q → Outcome.Agrees slot o q := by
  induction c using Command.induction with
  | op kind argument =>
    rintro slot o hk hs ⟨run, place, trail, key, h⟩
    refine ⟨fun run' place' trail' key' => ?_, fun q => ?_⟩
    · obtain ⟨q, hq, -⟩ := Operation.apply_agrees pure hs hk h ⟨run', place'⟩ key'
      exact ⟨q, hq⟩
    · rintro ⟨run', place', trail', key', hq⟩
      obtain ⟨q', hq', ha⟩ := Operation.apply_agrees pure hs hk h ⟨run', place'⟩ key'
      cases hq'.symm.trans hq
      exact ha
  | unknown kind argument =>
    rintro slot o _ _ ⟨run, place, trail, key, h⟩
    cases h
  | descend children ih =>
    intro slot o hk hs h
    obtain ⟨hd, hall⟩ := keyed_descend.1 hk
    obtain ⟨fields, hopen⟩ := h.opens
    have ih : ∀ k c, Fields.get? k children = some c → ∀ p, c.Does call (slot.child k) p →
        c.Can call (slot.child k) ∧
          ∀ q, c.Does call (slot.child k) q → Outcome.Agrees (slot.child k) p q := by
      intro k c hc p hp
      obtain ⟨l, hm, -⟩ := Fields.exists_mem_of_get? hc
      exact ih l c hm (hall l c hm) (hs.child k) hp
    refine ⟨can_descend hopen hd fun k c hc => ?_, fun q hq => ?_⟩
    · obtain ⟨p, hp, -⟩ := h.child hd hc
      exact (ih k c hc p hp).1
    · refine agrees_descend h hd hq hd hs.distinct fun k => ?_
      cases hc : Fields.get? k children with
      | none =>
        obtain ⟨e1, e2⟩ := h.other hd hc
        obtain ⟨f1, f2⟩ := hq.other hd hc
        rw [e1, e2, f1, f2]
        exact ⟨Slot.Equals.refl _, .refl _⟩
      | some c =>
        obtain ⟨p, hp, e1, e2⟩ := h.child hd hc
        obtain ⟨p', hp', f1, f2⟩ := hq.child hd hc
        have ha := (ih k c hc p hp).2 p' hp'
        rw [e1, e2, f1, f2]
        exact ⟨ha.after, ha.delta⟩

/-- A command that succeeds in one update does so in every other. -/
theorem Does.can {c : Command} (h : c.Does call slot o) (pure : call.Pure) (hc : c.keyed = true)
    (hs : slot.Keyed) : c.Can call slot := (h.can_and_agrees pure hc hs).1

/-- A command leaves equal values in all updates and tells the same of them. -/
theorem Does.agrees {c : Command} {q : Outcome} (h : c.Does call slot o) (h' : c.Does call slot q)
    (pure : call.Pure) (hc : c.keyed = true) (hs : slot.Keyed) : Outcome.Agrees slot o q :=
  (h.can_and_agrees pure hc hs).2 q h'

end Command

end TreeDelta
