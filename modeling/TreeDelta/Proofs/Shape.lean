import TreeDelta.Command.Parse
import TreeDelta.Proofs.Fields
/-!
# Well-formed data

`Value.keyed` is what every mapping keeps of its own accord: no key stands twice. It passes from a raw
command to the parsed one (`keyed_of_parse`). `Value.whole` says that nothing `absent` stands in a
value, as far as mappings and parsed commands lead. `Command.induction` is the induction over command
trees that all later proofs use.
-/

namespace TreeDelta

namespace Value

mutual
/-- Every mapping in the value holds each key once. -/
def keyed : Value → Bool
  | list _ items | tuple items => keyedItems items
  | map _ fields => decide (Fields.Distinct fields) && keyedFields fields
  | node _ label old new => label.keyed && old.keyed && new.keyed
  | op kind argument => kind.keyed && argument.keyed
  | descend children => children.keyed
  | _ => true

def keyedItems : List Value → Bool
  | [] => true
  | v :: rest => v.keyed && keyedItems rest

def keyedFields : List (Key × Value) → Bool
  | [] => true
  | (_, v) :: rest => v.keyed && keyedFields rest
end

mutual
/-- Nothing absent stands in the value, as far as mappings and parsed commands lead. -/
def whole : Value → Bool
  | absent => false
  | map _ fields => wholeFields fields
  | op kind argument => kind.whole && argument.whole
  | descend children => children.whole
  | _ => true

def wholeFields : List (Key × Value) → Bool
  | [] => true
  | (_, v) :: rest => v.whole && wholeFields rest
end

theorem keyedFields_iff {fields : List (Key × Value)} :
    keyedFields fields = true ↔ ∀ k v, (k, v) ∈ fields → v.keyed = true := by
  induction fields with
  | nil => simp [keyedFields]
  | cons entry rest ih =>
    rw [keyedFields, Bool.and_eq_true, ih, Fields.forall_cons]

theorem keyedItems_iff {items : List Value} :
    keyedItems items = true ↔ ∀ v ∈ items, v.keyed = true := by
  induction items with
  | nil => simp [keyedItems]
  | cons v rest ih => rw [keyedItems, Bool.and_eq_true, ih, List.forall_mem_cons]

theorem wholeFields_iff {fields : List (Key × Value)} :
    wholeFields fields = true ↔ ∀ k v, (k, v) ∈ fields → v.whole = true := by
  induction fields with
  | nil => simp [wholeFields]
  | cons entry rest ih =>
    rw [wholeFields, Bool.and_eq_true, ih, Fields.forall_cons]

theorem keyed_map {id : Ident} {fields : List (Key × Value)} :
    (map id fields).keyed = true ↔
      Fields.Distinct fields ∧ ∀ k v, (k, v) ∈ fields → v.keyed = true := by
  simp [keyed, keyedFields_iff]

theorem whole_map {id : Ident} {fields : List (Key × Value)} :
    (map id fields).whole = true ↔ ∀ k v, (k, v) ∈ fields → v.whole = true := by
  simp [whole, wholeFields_iff]

theorem distinct_of_keyed {v : Value} {fields : List (Key × Value)} (h : v.keyed = true)
    (hf : v.fields? = some fields) : Fields.Distinct fields := by
  cases v with
  | map id entries =>
    cases hf; exact (keyed_map.1 h).1
  | _ => cases hf

theorem ne_absent_of_whole {v : Value} (h : v.whole = true) : v ≠ absent := by
  rintro rfl; simp [whole] at h

theorem keyed_of_get? {id : Ident} {fields : List (Key × Value)} {k : Key} {v : Value}
    (h : (map id fields).keyed = true) (hk : Fields.get? k fields = some v) : v.keyed = true := by
  obtain ⟨l, hl, _⟩ := Fields.exists_mem_of_get? hk
  exact (keyed_map.1 h).2 l v hl

theorem whole_of_get? {id : Ident} {fields : List (Key × Value)} {k : Key} {v : Value}
    (h : (map id fields).whole = true) (hk : Fields.get? k fields = some v) : v.whole = true := by
  obtain ⟨l, hl, _⟩ := Fields.exists_mem_of_get? hk
  exact whole_map.1 h l v hl

/-- Each mapping in the value holds a key once, and nothing absent. -/
def Full (v : Value) : Prop := v.keyed = true ∧ v.whole = true

theorem full_map {id : Ident} {fields : List (Key × Value)} :
    (map id fields).Full ↔ Fields.Distinct fields ∧
      ∀ k v, Fields.get? k fields = some v → v.Full := by
  constructor
  · intro h
    exact ⟨(keyed_map.1 h.1).1, fun k v hk => ⟨keyed_of_get? h.1 hk, whole_of_get? h.2 hk⟩⟩
  · rintro ⟨hd, h⟩
    have each : ∀ k v, (k, v) ∈ fields → v.Full := fun k v hm => h k v (Fields.get?_of_mem hd hm)
    exact ⟨keyed_map.2 ⟨hd, fun k v hm => (each k v hm).1⟩, whole_map.2 fun k v hm => (each k v hm).2⟩

/-- What of a value is full does not depend on which object it is. -/
theorem Full.copy {id : Ident} {v : Value} {fields : List (Key × Value)} (h : v.Full)
    (hf : v.fields? = some fields) : (map id fields).Full := by
  cases v with
  | map _ _ => cases hf; exact full_map.2 (full_map.1 h)
  | _ => cases hf

theorem Full.filter {id : Ident} {fields : List (Key × Value)} (h : (map id fields).Full)
    (p : Key × Value → Bool) : (map id (fields.filter p)).Full := by
  refine ⟨keyed_map.2 ⟨Fields.distinct_filter (keyed_map.1 h.1).1, fun k v hm => ?_⟩,
    whole_map.2 fun k v hm => ?_⟩
  · exact (keyed_map.1 h.1).2 k v (List.mem_filter.1 hm).1
  · exact whole_map.1 h.2 k v (List.mem_filter.1 hm).1

/-- Items of a sequence hold each key once if the sequence does. -/
theorem keyed_of_sequence {v : Value} {items : List Value} (h : v.keyed = true)
    (hs : v.sequence? = some items) : ∀ w ∈ items, w.keyed = true := by
  cases v with
  | list id _ | tuple _ => cases hs; exact keyedItems_iff.1 h
  | op kind argument =>
    cases hs
    simp only [keyed, Bool.and_eq_true] at h
    simpa using h
  | descend children => cases hs; simpa [keyed] using h
  | _ => cases hs

end Value

namespace Command

/-- Induction over a command tree, with the claim at hand for every child of a descent. -/
@[elab_as_elim]
theorem induction {motive : Command → Prop} (op : ∀ kind argument, motive (.op kind argument))
    (unknown : ∀ kind argument, motive (.unknown kind argument))
    (descend : ∀ children, (∀ k c, (k, c) ∈ children → motive c) → motive (.descend children))
    (c : Command) : motive c :=
  @Command.rec motive (fun children => ∀ k c, (k, c) ∈ children → motive c)
    (fun entry => motive entry.2) op unknown descend (by simp)
    (fun _ _ he hrest => Fields.forall_cons.2 ⟨he, hrest⟩) (fun _ _ h => h) c

mutual
/-- Every descent names each key once, and so do the mappings among the arguments. -/
def keyed : Command → Bool
  | op _ argument | unknown _ argument => argument.keyed
  | descend children => decide (Fields.Distinct children) && keyedAll children

def keyedAll : List (Key × Command) → Bool
  | [] => true
  | (_, c) :: rest => c.keyed && keyedAll rest
end

mutual
/-- No argument holds anything absent. -/
def whole : Command → Bool
  | op _ argument | unknown _ argument => argument.whole
  | descend children => wholeAll children

def wholeAll : List (Key × Command) → Bool
  | [] => true
  | (_, c) :: rest => c.whole && wholeAll rest
end

theorem keyedAll_iff {children : List (Key × Command)} :
    keyedAll children = true ↔ ∀ k c, (k, c) ∈ children → c.keyed = true := by
  induction children with
  | nil => simp [keyedAll]
  | cons entry rest ih =>
    rw [keyedAll, Bool.and_eq_true, ih, Fields.forall_cons]

theorem wholeAll_iff {children : List (Key × Command)} :
    wholeAll children = true ↔ ∀ k c, (k, c) ∈ children → c.whole = true := by
  induction children with
  | nil => simp [wholeAll]
  | cons entry rest ih =>
    rw [wholeAll, Bool.and_eq_true, ih, Fields.forall_cons]

theorem keyed_descend {children : List (Key × Command)} :
    (descend children).keyed = true ↔
      Fields.Distinct children ∧ ∀ k c, (k, c) ∈ children → c.keyed = true := by
  simp [keyed, keyedAll_iff]

theorem whole_descend {children : List (Key × Command)} :
    (descend children).whole = true ↔ ∀ k c, (k, c) ∈ children → c.whole = true := by
  simp [whole, wholeAll_iff]

/-! ## From raw commands to parsed ones -/

theorem mem_namedIn {α : Type} {o : Operation} {fields : List (Key × α)} :
    o ∈ Operation.namedIn fields ↔ Fields.has o.key fields = true := by
  simp [Operation.namedIn, Operation.mem_all]

/-- What a value that parses can be. -/
theorem parse_cases {trail : Trail} {v : Value} {c : Command} (h : parse trail v = .ok c) :
    (∃ kind argument, v = .op kind argument ∧ c = ofOp kind argument) ∨
    (∃ id fields o argument, v = .map id fields ∧ Fields.get? o.key fields = some argument ∧
      c = .op o argument) ∨
    (∃ id fields children, (v = .map id fields ∨ v = .descend (.map id fields)) ∧
      parseChildren trail fields = .ok children ∧ c = .descend children) := by
  cases v with
  | op kind argument => cases h; exact Or.inl ⟨kind, argument, rfl, rfl⟩
  | map id fields =>
    simp only [parse] at h
    split at h
    · cases hc : parseChildren trail fields with
      | error f => rw [hc] at h; cases h
      | ok children =>
        rw [hc] at h; cases h
        exact Or.inr (Or.inr ⟨id, fields, children, Or.inl rfl, hc, rfl⟩)
    · rename_i o ho
      have hhas : Fields.has o.key fields = true := mem_namedIn.1 (by simp [ho])
      obtain ⟨argument, ha⟩ := Option.isSome_iff_exists.1 hhas
      cases h
      exact Or.inr (Or.inl ⟨id, fields, o, argument, rfl, ha, by simp [ha]⟩)
    · cases h
  | descend children =>
    cases children with
    | map id fields =>
      simp only [parse] at h
      cases hc : parseChildren trail fields with
      | error f => rw [hc] at h; cases h
      | ok children =>
        rw [hc] at h; cases h
        exact Or.inr (Or.inr ⟨id, fields, children, Or.inr rfl, hc, rfl⟩)
    | _ => simp [parse] at h
  | _ => simp [parse] at h

/-- Parsed children stand under the keys of the raw ones, in their order. -/
theorem parseChildren_ok {trail : Trail} {fields : List (Key × Value)}
    {children : List (Key × Command)} (h : parseChildren trail fields = .ok children) :
    Fields.keys children = Fields.keys fields ∧
    ∀ k c, (k, c) ∈ children → ∃ v, (k, v) ∈ fields ∧ parse (trail ++ [k.plain]) v = .ok c := by
  induction fields generalizing children with
  | nil => cases h; simp [Fields.keys]
  | cons entry rest ih =>
    obtain ⟨k, v⟩ := entry
    simp only [parseChildren] at h
    cases hc : parse (trail ++ [k.plain]) v with
    | error f => rw [hc] at h; cases h
    | ok c =>
      cases hr : parseChildren trail rest with
      | error f => rw [hc, hr] at h; cases h
      | ok cs =>
        rw [hc, hr] at h; cases h
        obtain ⟨hk, hm⟩ := ih hr
        refine ⟨by simpa [Fields.keys] using hk, Fields.forall_cons.2 ⟨⟨v, by simp, hc⟩, ?_⟩⟩
        intro l d hd
        obtain ⟨w, hw, hp⟩ := hm l d hd
        exact ⟨w, by simp [hw], hp⟩

/-- What passes from raw commands to leaves, and from the children of a descent to the descent,
passes from every raw command to the parsed one. -/
theorem of_parse {P : Value → Prop} {Q : Command → Prop}
    (unwrap : ∀ v, P (.descend v) → P v)
    (entry : ∀ id fields k v, P (.map id fields) → (k, v) ∈ fields → P v)
    (leaf : ∀ kind argument, P (.op kind argument) → Q (ofOp kind argument))
    (named : ∀ o argument, P argument → Q (.op o argument))
    (descent : ∀ id fields children, P (.map id fields) → Fields.keys children = Fields.keys fields →
      (∀ k c, (k, c) ∈ children → Q c) → Q (.descend children))
    {c : Command} : ∀ {trail : Trail} {v : Value}, P v → parse trail v = .ok c → Q c := by
  induction c using Command.induction with
  | op | unknown =>
    intro trail v hv h
    rcases parse_cases h with ⟨kind, argument, rfl, hc⟩ | ⟨id, fields, o, argument, rfl, hg, hc⟩ |
      ⟨_, _, _, _, _, hc⟩
    · exact hc ▸ leaf kind argument hv
    · obtain ⟨l, hl, _⟩ := Fields.exists_mem_of_get? hg
      exact hc ▸ named o argument (entry id fields l argument hv hl)
    · cases hc
  | descend children ih =>
    intro trail v hv h
    rcases parse_cases h with ⟨kind, argument, rfl, hc⟩ | ⟨id, fields, o, argument, rfl, hg, hc⟩ |
      ⟨id, fields, cs, hf, hp, hc⟩
    · exact hc ▸ leaf kind argument hv
    · cases hc
    · cases hc
      have hfields : P (.map id fields) := by
        rcases hf with rfl | rfl
        · exact hv
        · exact unwrap _ hv
      obtain ⟨hk, hm⟩ := parseChildren_ok hp
      refine descent id fields children hfields hk fun k c hc => ?_
      obtain ⟨w, hw, hpw⟩ := hm k c hc
      exact ih k c hc (entry id fields k w hfields hw) hpw

theorem keyed_of_parse {trail : Trail} {v : Value} {c : Command} (hv : v.keyed = true)
    (h : parse trail v = .ok c) : c.keyed = true := by
  refine of_parse (P := fun v => v.keyed = true) (Q := fun c => c.keyed = true) ?_ ?_ ?_ ?_ ?_ hv h
  · intro v hv; simpa [Value.keyed] using hv
  · intro id fields k w hf hw; exact (Value.keyed_map.1 hf).2 k w hw
  · intro kind argument ho
    have : argument.keyed = true := by simp only [Value.keyed, Bool.and_eq_true] at ho; exact ho.2
    unfold ofOp; split <;> exact this
  · intro o argument ha; exact ha
  · intro id fields children hf hk hc
    exact keyed_descend.2 ⟨by rw [Fields.Distinct, hk]; exact (Value.keyed_map.1 hf).1, hc⟩

end Command

end TreeDelta
