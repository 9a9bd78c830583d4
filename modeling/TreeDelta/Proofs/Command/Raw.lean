import TreeDelta.Proofs.Except
import TreeDelta.Proofs.Update.Shuffle
/-!
# Raw commands

How far parsing comes in a raw command, what it can fail with, and in which order its entries may
stand: `Value.Branches` are the entries to which parsing goes on, `Command.parse_error` shows that
a command that does not parse is at fault itself, and `Value.Reordered.parse` that raw commands with
their branches in different orders parse to commands that are shuffled.
-/

namespace TreeDelta

namespace Value

/-- The raw command descends: these are its keys with the commands below them. -/
inductive Branches : Value → List (Key × Value) → Prop where
  | map {id : Ident} {fields : List (Key × Value)} (free : Operation.namedIn fields = []) :
      Branches (.map id fields) fields
  | descend {id : Ident} {fields : List (Key × Value)} : Branches (.descend (.map id fields)) fields

mutual
/-- Every descent that parsing comes to holds a mapping. -/
def branching : Value → Bool
  | .descend (.map _ fields) => branchingAll fields
  | .descend _ => false
  | .map _ fields => !(Operation.namedIn fields).isEmpty || branchingAll fields
  | _ => true

def branchingAll : List (Key × Value) → Bool
  | [] => true
  | (_, v) :: rest => v.branching && branchingAll rest
end

theorem branchingAll_iff {fields : List (Key × Value)} :
    branchingAll fields = true ↔ ∀ k v, (k, v) ∈ fields → v.branching = true := by
  induction fields with
  | nil => simp [branchingAll]
  | cons entry rest ih =>
    rw [branchingAll, Bool.and_eq_true, ih, Fields.forall_cons]

theorem Branches.branching {v w : Value} {fields : List (Key × Value)} {k : Key}
    (h : v.Branches fields) (hv : v.branching = true) (hm : (k, w) ∈ fields) : w.branching = true := by
  cases h with
  | map free =>
    rw [Value.branching, free] at hv
    exact branchingAll_iff.1 hv k w hm
  | descend =>
    rw [Value.branching] at hv
    exact branchingAll_iff.1 hv k w hm

/-- The branches of a raw command stand in another order, at the root or further down. -/
inductive Reordered : Value → Value → Prop where
  | refl (v : Value) : Reordered v v
  | swap {v w : Value} {fs gs : List (Key × Value)} (left : v.Branches fs) (right : w.Branches gs)
      (h : fs.Perm gs) : Reordered v w
  | down {v w a b : Value} {before after : List (Key × Value)} {k : Key}
      (left : v.Branches (before ++ (k, a) :: after))
      (right : w.Branches (before ++ (k, b) :: after)) (h : Reordered a b) : Reordered v w
  | trans {v w x : Value} (h : Reordered v w) (h' : Reordered w x) : Reordered v x

theorem Reordered.symm {v w : Value} (h : Reordered v w) : Reordered w v := by
  induction h with
  | refl v => exact .refl v
  | swap left right h => exact .swap right left h.symm
  | down left right _ ih => exact .down right left ih
  | trans _ _ ih ih' => exact .trans ih' ih

theorem Branches.sizeOf_lt {v w : Value} {fields : List (Key × Value)} {k : Key}
    (h : v.Branches fields) (hm : (k, w) ∈ fields) : sizeOf w < sizeOf v := by
  have hlt := List.sizeOf_lt_of_mem hm
  cases h with
  | map => simp at hlt ⊢; omega
  | descend => simp at hlt ⊢; omega

/-- What holds of a value as soon as it holds of its branches holds of all values. -/
theorem branch_induction {P : Value → Prop}
    (step : ∀ v, (∀ fields k w, v.Branches fields → (k, w) ∈ fields → P w) → P v) (v : Value) : P v :=
  step v fun _ _ w hb hm =>
    have : sizeOf w < sizeOf v := hb.sizeOf_lt hm
    branch_induction step w
termination_by v

end Value

namespace Command

variable {trail : Trail}

/-! ## Branches and what they parse to -/

theorem parse_of_branches {v : Value} {fields : List (Key × Value)} (h : v.Branches fields) :
    parse trail v = (parseChildren trail fields).map descend := by
  cases h with
  | map free => rw [parse, free]
  | descend => rw [parse]

/-- An entry of a raw command and the child that it parses to. -/
def Parses (trail : Trail) (entry : Key × Value) (child : Key × Command) : Prop :=
  entry.1 = child.1 ∧ parse (trail ++ [entry.1.plain]) entry.2 = .ok child.2

theorem parseChildren_iff {fields : List (Key × Value)} {children : List (Key × Command)} :
    parseChildren trail fields = .ok children ↔ List.Forall₂ (Parses trail) fields children := by
  induction fields generalizing children with
  | nil => simp [parseChildren, eq_comm]
  | cons entry rest ih =>
    obtain ⟨k, v⟩ := entry
    simp only [parseChildren, bind_eq_ok, List.forall₂_cons_left_iff, ih]
    constructor
    · rintro ⟨c, hc, cs, hcs, e⟩
      cases e
      exact ⟨(k, c), cs, ⟨rfl, hc⟩, hcs, rfl⟩
    · rintro ⟨⟨l, c⟩, cs, ⟨e, hc⟩, hcs, rfl⟩
      cases e
      exact ⟨c, hc, cs, hcs, rfl⟩

theorem parse_branches {v : Value} {fields : List (Key × Value)} {c : Command}
    (h : v.Branches fields) :
    parse trail v = .ok c ↔
      ∃ children, List.Forall₂ (Parses trail) fields children ∧ c = descend children := by
  rw [parse_of_branches h]
  simp only [← parseChildren_iff]
  cases parseChildren trail fields <;> simp [Except.map, eq_comm]

/-! ## Commands that do not parse -/

theorem parseChildren_error {fields : List (Key × Value)} {f : Fault}
    (h : parseChildren trail fields = .error f) :
    ∃ k v, (k, v) ∈ fields ∧ parse (trail ++ [k.plain]) v = .error f := by
  induction fields with
  | nil => cases h
  | cons entry rest ih =>
    obtain ⟨k, v⟩ := entry
    rw [parseChildren, bind_eq_error] at h
    rcases h with hv | ⟨c, -, h⟩
    · exact ⟨k, v, List.mem_cons_self, hv⟩
    · rcases bind_eq_error.1 h with hr | ⟨cs, -, h⟩
      · obtain ⟨l, w, hm, hw⟩ := ih hr
        exact ⟨l, w, List.mem_cons_of_mem _ hm, hw⟩
      · cases h

/-- A command that does not parse is at fault itself, or one of its branches does not parse. -/
theorem parse_error_cases {v : Value} {f : Fault} (hv : v.branching = true)
    (h : parse trail v = .error f) :
    (∃ problem, f = .command problem) ∨
      ∃ fields k w, v.Branches fields ∧ (k, w) ∈ fields ∧ parse (trail ++ [k.plain]) w = .error f := by
  have through : ∀ fields, v.Branches fields →
      ∃ k w, (k, w) ∈ fields ∧ parse (trail ++ [k.plain]) w = .error f := by
    intro fields hb
    rw [parse_of_branches hb, map_eq_error] at h
    exact parseChildren_error h
  cases v with
  | op kind argument => cases h
  | descend w =>
    cases w with
    | map id entries =>
      obtain ⟨k, x, hm, hx⟩ := through entries .descend
      exact Or.inr ⟨entries, k, x, .descend, hm, hx⟩
    | _ => cases hv
  | map id fields =>
    rw [parse] at h
    split at h
    · rename_i free
      obtain ⟨k, x, hm, hx⟩ := through fields (.map free)
      exact Or.inr ⟨fields, k, x, .map free, hm, hx⟩
    · cases h
    · cases h; exact Or.inl ⟨_, rfl⟩
  | _ => cases h; exact Or.inl ⟨_, rfl⟩

/-- Where every descent that parsing comes to holds a mapping, the only faults of parsing are those of
a command. -/
theorem parse_error {v : Value} {f : Fault} (hv : v.branching = true)
    (h : parse trail v = .error f) : ∃ problem, f = .command problem := by
  induction v using Value.branch_induction generalizing trail with
  | step v ih =>
    rcases parse_error_cases hv h with hf | ⟨fields, k, w, hb, hm, hw⟩
    · exact hf
    · exact ih fields k w hb hm (hb.branching hv hm) hw

/-! ## Commands in another order -/

theorem exists_parses_around {before after : List (Key × Value)} {k : Key} {v : Value}
    {children : List (Key × Command)}
    (h : List.Forall₂ (Parses trail) (before ++ (k, v) :: after) children) :
    ∃ front c back, children = front ++ (k, c) :: back ∧ List.Forall₂ (Parses trail) before front ∧
      parse (trail ++ [k.plain]) v = .ok c ∧ List.Forall₂ (Parses trail) after back := by
  induction before generalizing children with
  | nil =>
    obtain ⟨⟨l, c⟩, back, ⟨e, hc⟩, hb, rfl⟩ := List.forall₂_cons_left_iff.1 h
    cases e
    exact ⟨[], c, back, rfl, .nil, hc, hb⟩
  | cons entry rest ih =>
    obtain ⟨child, others, hp, hr, rfl⟩ := List.forall₂_cons_left_iff.1 h
    obtain ⟨front, c, back, rfl, hf, hc, hb⟩ := ih hr
    exact ⟨child :: front, c, back, rfl, .cons hp hf, hc, hb⟩

end Command

/-- Raw commands with their branches in different orders parse alike, to commands that differ in the
order of children. -/
theorem Value.Reordered.parse {v w : Value} (h : v.Reordered w) :
    ∀ {trail : Trail} {c : Command}, Command.parse trail v = .ok c →
      ∃ d, Command.parse trail w = .ok d ∧ c.Shuffled d := by
  induction h with
  | refl v => intro trail c hc; exact ⟨c, hc, .refl c⟩
  | swap left right h =>
    intro trail c hc
    obtain ⟨children, hp, rfl⟩ := (Command.parse_branches left).1 hc
    obtain ⟨others, hp', hperm⟩ := List.perm_comp_forall₂ h.symm hp
    exact ⟨.descend others, (Command.parse_branches right).2 ⟨others, hp', rfl⟩, .swap hperm.symm⟩
  | @down v w a b before after k left right _ ih =>
    intro trail c hc
    obtain ⟨children, hp, rfl⟩ := (Command.parse_branches left).1 hc
    obtain ⟨front, c, back, rfl, hf, hc, hb⟩ := Command.exists_parses_around hp
    obtain ⟨d, hd, hs⟩ := ih hc
    have hp' : List.Forall₂ (Command.Parses trail) (before ++ (k, b) :: after)
        (front ++ (k, d) :: back) := List.rel_append hf (.cons ⟨rfl, hd⟩ hb)
    exact ⟨_, (Command.parse_branches right).2 ⟨_, hp', rfl⟩, .down hs⟩
  | trans _ _ ih ih' =>
    intro trail c hc
    obtain ⟨d, hd, hs⟩ := ih hc
    obtain ⟨e, he, hs'⟩ := ih' hd
    exact ⟨e, he, hs.trans hs'⟩

end TreeDelta
