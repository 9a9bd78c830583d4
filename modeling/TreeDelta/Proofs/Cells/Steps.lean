import TreeDelta.Value.Cells
/-!
# Steps that write

What each step of `Writing` comes to, and the one rule for going through a mapping: a statement that
every turn passes on from the entries that are left to those that are left then holds in the end
(`forEntries_rule`). The mapping itself must not be written into on the way.
-/

namespace TreeDelta

def Cells.write (cells : Cells) (id : Ident) (v : Value) : Cells :=
  { cells with cells := (id, v) :: cells.cells }

/-- The identity that comes next. -/
def Cells.coming (run : Nat) (cells : Cells) : Ident := ⟨run, [.int cells.next]⟩

/-- The cells after an identity has been made. -/
def Cells.onward (cells : Cells) : Cells := { cells with next := cells.next + 1 }

namespace Writing

variable {α β : Type}

/-- What the steps come to, and the cells they leave. -/
def from_ (x : Writing α) (cells : Cells) : Except Fault α × Cells := x.run cells

/-- Goes on from what earlier steps have come to. -/
def andThen (f : α → Writing β) : Except Fault α × Cells → Except Fault β × Cells
  | (.ok a, cells) => (f a).from_ cells
  | (.error fault, cells) => (.error fault, cells)

@[simp] theorem andThen_ok (f : α → Writing β) (a : α) (cells : Cells) :
    andThen f (.ok a, cells) = (f a).from_ cells := rfl

@[simp] theorem andThen_error (f : α → Writing β) (fault : Fault) (cells : Cells) :
    andThen f (.error fault, cells) = (.error fault, cells) := rfl

theorem from_bind (x : Writing α) (f : α → Writing β) (cells : Cells) :
    (x >>= f).from_ cells = andThen f (x.from_ cells) := by
  have h : (x >>= f).from_ cells = (ExceptT.bindCont f (x.from_ cells).1).run (x.from_ cells).2 := rfl
  rw [h]
  rcases x.from_ cells with ⟨_ | _, _⟩ <;> rfl

@[simp] theorem from_pure (a : α) (cells : Cells) : (pure a : Writing α).from_ cells = (.ok a, cells) := rfl

@[simp] theorem from_throw (fault : Fault) (cells : Cells) :
    (throw fault : Writing α).from_ cells = (.error fault, cells) := rfl

@[simp] theorem from_current (v : Value) (cells : Cells) :
    (current v).from_ cells = (.ok (cells.current v), cells) := rfl

@[simp] theorem from_write (id : Ident) (v : Value) (cells : Cells) :
    (write id v).from_ cells = (.ok (), cells.write id v) := rfl

@[simp] theorem from_fresh (run : Nat) (cells : Cells) :
    (fresh run).from_ cells = (.ok (cells.coming run), cells.onward) := rfl

/-! ## Going through a mapping -/

variable {id : Ident} {fields : List (Key × Value)} {cells : Cells}

theorem from_checkSize (h : cells.current (.map id fields) = .map id fields) :
    (checkSize (.map id fields) fields.length).from_ cells = (.ok (), cells) := by
  rw [checkSize, from_bind, from_current, h]
  simp [Value.fields?]

theorem forEntries_none {v : Value} (h : cells.current v = v) (plain : v.fields? = none)
    (step : Key → Value → Writing Unit) :
    (forEntries v step).from_ cells = (.error (.unsupported v.type), cells) := by
  rw [forEntries, from_bind, from_current, h, andThen_ok, plain, from_throw]

/-- A turn leaves what satisfies `P`, or fails with what satisfies `Q`. -/
abbrev Passes (P : Cells → Prop) (Q : Except Fault Unit × Cells → Prop) :
    Except Fault Unit × Cells → Prop
  | (.ok _, after) => P after
  | (.error fault, after) => Q (.error fault, after)

/-- The entries of a mapping at some places, each as it is when its turn comes. -/
def entriesAt (v : Value) (step : Key → Value → Writing Unit) (n : Nat) (places : List Nat) : Writing Unit := do
  for i in places do
    checkSize v n
    if let some (k, entry) := ((← current v).fields?.getD [])[i]? then step k entry
  checkSize v n

section

variable {step : Key → Value → Writing Unit} {P : List (Key × Value) → Cells → Prop}
  {Q : Except Fault Unit × Cells → Prop}
  (still : ∀ rest cells, P rest cells → cells.current (.map id fields) = .map id fields)
  (each : ∀ k v rest cells, P ((k, v) :: rest) cells → Passes (P rest) Q ((step k v).from_ cells))
  (last : ∀ cells, P [] cells → Q (.ok (), cells))

include still each last

/-- By induction on the number of entries that are left. -/
theorem entriesAt_rule (count done : Nat) (all : done + count = fields.length)
    (holds : P (fields.drop done) cells) :
    Q ((entriesAt (.map id fields) step fields.length (List.range' done count)).from_ cells) := by
  induction count generalizing done cells with
  | zero =>
    rw [List.drop_of_length_le (by omega)] at holds
    simp only [entriesAt, List.range'_zero, List.forIn_nil, from_bind, from_pure,
      from_checkSize (still _ _ holds), andThen_ok]
    exact last cells holds
  | succ count ih =>
    have turn : done < fields.length := by omega
    have now := still _ _ holds
    obtain ⟨⟨k, v⟩, entry⟩ : ∃ e, fields[done]? = some e := ⟨_, List.getElem?_eq_getElem turn⟩
    rw [List.drop_eq_getElem_cons turn, (List.getElem?_eq_some_iff.1 entry).2] at holds
    have turned := each k v _ cells holds
    have found : (Value.map id fields).fields?.getD [] = fields := rfl
    simp only [entriesAt, List.range'_succ, List.forIn_cons, from_bind, from_checkSize now, from_current, now,
      found, entry, andThen_ok]
    generalize (step k v).from_ cells = result at turned ⊢
    rcases result with ⟨fault | _, after⟩
    · exact turned
    · have rest := ih (done + 1) (by omega) turned
      rwa [entriesAt, from_bind] at rest

/-- What holds with all entries to come, and is passed on by every turn, holds in the end: `Q` of what the
steps come to. -/
theorem forEntries_rule (first : P fields cells) : Q ((forEntries (.map id fields) step).from_ cells) := by
  have whole := entriesAt_rule still each last fields.length 0 (by omega) first
  rw [← List.range_eq_range'] at whole
  rw [forEntries, from_bind, from_current, still _ _ first]
  exact whole

end

end Writing

end TreeDelta
