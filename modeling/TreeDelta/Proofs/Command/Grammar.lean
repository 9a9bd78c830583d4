import TreeDelta.Proofs.Command.Raw
import TreeDelta.Update.Apply
/-!
# The grammar of commands

Which values are commands, and what parsing makes of them. Parsing reaches a value at the end of a path
of keys if only descents lie before it, parsed or raw (`Value.Reaches`), and it fails exactly if one of
the values that it reaches is no command (`Value.Illegal`). Otherwise the parsed command reaches the
same paths, with an operation where the value stands for one (`Value.StandsFor`) and a descent with the
same keys elsewhere.

One step of parsing is taken apart by `Command.parsed_cases`, and every statement about a whole tree
follows from it by `Value.branch_induction`, since parsing goes on in the branches only.
-/

namespace TreeDelta

namespace Value

variable {v w x : Value} {fields : List (Key × Value)}

/-- From `v` parsing comes by a path of keys to `w`. -/
inductive Reaches : Value → List Key → Value → Prop where
  | here (v : Value) : Reaches v [] v
  | down {v w x : Value} {fields : List (Key × Value)} {k : Key} {p : List Key}
      (branches : v.Branches fields) (entry : (k, w) ∈ fields) (rest : Reaches w p x) :
      Reaches v (k :: p) x

/-- The value is no command: a mapping with several operations, or nothing that a command can be. -/
inductive Illegal : Value → Prop where
  | ambiguous {id : Ident} {fields : List (Key × Value)}
      (several : 2 ≤ (Operation.namedIn fields).length) : Illegal (.map id fields)
  | other {v : Value} (map : v.type ≠ .map) (op : v.type ≠ .op) (descend : v.type ≠ .descend) :
      Illegal v

/-- The value is one operation, parsed or as a mapping in which just its key is that of an operation. -/
inductive StandsFor : Value → Value → Value → Prop where
  | op (kind argument : Value) : StandsFor (.op kind argument) kind argument
  | raw {id : Ident} {fields : List (Key × Value)} {o : Operation} {argument : Value}
      (only : Operation.namedIn fields = [o]) (held : Fields.get? o.key fields = some argument) :
      StandsFor (.map id fields) (.str o.name) argument

theorem Branches.unique {gs : List (Key × Value)} (h : v.Branches fields) (h' : v.Branches gs) :
    fields = gs := by
  cases h <;> cases h' <;> rfl

theorem Branches.not_standsFor {kind argument : Value} (h : v.Branches fields) :
    ¬ v.StandsFor kind argument := by
  intro hs
  cases h with
  | map free =>
    cases hs with
    | raw only => rw [free] at only; cases only
  | descend => cases hs

theorem Branches.not_illegal (h : v.Branches fields) : ¬ v.Illegal := by
  intro hi
  cases h with
  | map free =>
    cases hi with
    | ambiguous several => simp [free] at several
    | other map => exact map rfl
  | descend =>
    cases hi with
    | other _ _ descend => exact descend rfl

theorem StandsFor.not_illegal {kind argument : Value} (h : v.StandsFor kind argument) :
    ¬ v.Illegal := by
  intro hi
  cases h with
  | op =>
    cases hi with
    | other _ op => exact op rfl
  | raw only =>
    cases hi with
    | ambiguous several => simp [only] at several
    | other map => exact map rfl

end Value

theorem Operation.held_of_namedIn {fields : List (Key × Value)} {o : Operation}
    (h : Operation.namedIn fields = [o]) : ∃ a, Fields.get? o.key fields = some a := by
  have hm : o ∈ Operation.namedIn fields := by rw [h]; exact List.mem_singleton_self o
  rw [namedIn, List.mem_filter, Fields.has] at hm
  exact Option.isSome_iff_exists.1 hm.2

namespace Command

variable {run : Nat} {place : List Key} {trail : Trail} {v w : Value}

/-! ## One step of parsing -/

/-- An entry of a raw command and the entry that it becomes. -/
def Becomes (run : Nat) (place : List Key) (trail : Trail) (entry part : Key × Value) : Prop :=
  entry.1 = part.1 ∧ parsed run (entry.1 :: place) (trail ++ [entry.1.plain]) entry.2 = .ok part.2

theorem parsedAll_iff {fields parts : List (Key × Value)} :
    parsedAll run place trail fields = .ok parts ↔
      List.Forall₂ (Becomes run place trail) fields parts := by
  induction fields generalizing parts with
  | nil => simp [parsedAll, eq_comm]
  | cons entry rest ih =>
    obtain ⟨k, v⟩ := entry
    simp only [parsedAll, bind_eq_ok, List.forall₂_cons_left_iff, ih]
    constructor
    · rintro ⟨w, hw, ws, hws, e⟩
      cases e
      exact ⟨(k, w), ws, ⟨rfl, hw⟩, hws, rfl⟩
    · rintro ⟨⟨l, w⟩, ws, ⟨e, hw⟩, hws, rfl⟩
      cases e
      exact ⟨w, hw, ws, hws, rfl⟩

theorem parsedAll_error {fields : List (Key × Value)} {f : Fault}
    (h : parsedAll run place trail fields = .error f) :
    ∃ k v, (k, v) ∈ fields ∧ parsed run (k :: place) (trail ++ [k.plain]) v = .error f := by
  induction fields with
  | nil => cases h
  | cons entry rest ih =>
    obtain ⟨k, v⟩ := entry
    rw [parsedAll, bind_eq_error] at h
    rcases h with hv | ⟨w, -, h⟩
    · exact ⟨k, v, List.mem_cons_self, hv⟩
    · rcases bind_eq_error.1 h with hr | ⟨ws, -, h⟩
      · obtain ⟨l, x, hm, hx⟩ := ih hr
        exact ⟨l, x, List.mem_cons_of_mem _ hm, hx⟩
      · cases h

theorem Becomes.of_mem {fields parts : List (Key × Value)} {k : Key} {w : Value}
    (h : List.Forall₂ (Becomes run place trail) fields parts) (hm : (k, w) ∈ fields) :
    ∃ x, (k, x) ∈ parts ∧ parsed run (k :: place) (trail ++ [k.plain]) w = .ok x := by
  obtain ⟨⟨l, x⟩, hx, e, hw⟩ := exists_of_forall₂ h hm
  cases e
  exact ⟨x, hx, hw⟩

theorem Becomes.mem_of {fields parts : List (Key × Value)} {k : Key} {x : Value}
    (h : List.Forall₂ (Becomes run place trail) fields parts) (hm : (k, x) ∈ parts) :
    ∃ w, (k, w) ∈ fields ∧ parsed run (k :: place) (trail ++ [k.plain]) w = .ok x := by
  obtain ⟨⟨l, w⟩, hw, e, hx⟩ := exists_of_forall₂ h.flip hm
  cases e
  exact ⟨w, hw, hx⟩

theorem Becomes.keys {fields parts : List (Key × Value)}
    (h : List.Forall₂ (Becomes run place trail) fields parts) :
    Fields.keys parts = Fields.keys fields := by
  refine (Fields.keys_rel (R := fun _ _ => True) (h.imp fun _ _ hb => ?_)).symm
  exact ⟨hb.1, trivial⟩

/-- Branches are parsed one after the other, into the mapping of a descent. -/
theorem parsed_of_branches {fields : List (Key × Value)} (h : v.Branches fields) :
    ∃ id : List (Key × Value) → Ident, parsed run place trail v =
      (parsedAll run place trail fields).map fun parts => .descend (.map (id parts) parts) := by
  cases h with
  | map free => exact ⟨fun _ => ⟨run, place⟩, by rw [parsed, free]; rfl⟩
  | @descend id => exact ⟨fun parts => if parts = fields then id else ⟨run, place⟩, by rw [parsed]; rfl⟩

/-- What is parsed stands for an operation, and is that one, or it descends, with branches that are
parsed. -/
theorem parsed_cases (h : parsed run place trail v = .ok w) :
    (∃ kind argument, v.StandsFor kind argument ∧ w = .op kind argument) ∨
      ∃ fields id parts, v.Branches fields ∧ List.Forall₂ (Becomes run place trail) fields parts ∧
        w = .descend (.map id parts) := by
  have through : ∀ fields, v.Branches fields → ∃ fields id parts, v.Branches fields ∧
      List.Forall₂ (Becomes run place trail) fields parts ∧ w = .descend (.map id parts) := by
    intro fields hb
    obtain ⟨id, e⟩ := @parsed_of_branches run place trail _ _ hb
    rw [e] at h
    cases hp : parsedAll run place trail fields with
    | error f => rw [hp] at h; cases h
    | ok parts =>
      rw [hp] at h
      cases h
      exact ⟨fields, id parts, parts, hb, parsedAll_iff.1 hp, rfl⟩
  cases v with
  | op kind argument =>
    rw [parsed] at h
    cases h
    exact Or.inl ⟨kind, argument, .op _ _, rfl⟩
  | descend children =>
    cases children with
    | map id fields => exact Or.inr (through fields .descend)
    | _ => cases h
  | map id fields =>
    cases hn : Operation.namedIn fields with
    | nil => exact Or.inr (through fields (.map hn))
    | cons o others =>
      rw [parsed, hn] at h
      cases others with
      | cons => cases h
      | nil =>
        obtain ⟨a, ha⟩ := Operation.held_of_namedIn hn
        simp only [ha, Option.getD_some] at h
        cases h
        exact Or.inl ⟨.str o.name, a, .raw hn ha, rfl⟩
  | _ => cases h

/-- What is not parsed is no command, or a branch of it is not parsed. -/
theorem parsed_error_cases {f : Fault} (hv : v.branching = true)
    (h : parsed run place trail v = .error f) :
    ((∃ problem, f = .command problem) ∧ v.Illegal) ∨
      ∃ fields k w, v.Branches fields ∧ (k, w) ∈ fields ∧
        parsed run (k :: place) (trail ++ [k.plain]) w = .error f := by
  have through : ∀ fields, v.Branches fields → ∃ fields k w, v.Branches fields ∧ (k, w) ∈ fields ∧
      parsed run (k :: place) (trail ++ [k.plain]) w = .error f := by
    intro fields hb
    obtain ⟨id, e⟩ := @parsed_of_branches run place trail _ _ hb
    rw [e, map_eq_error] at h
    obtain ⟨k, w, hm, hw⟩ := parsedAll_error h
    exact ⟨fields, k, w, hb, hm, hw⟩
  cases v with
  | op kind argument => cases h
  | descend children =>
    cases children with
    | map id fields => exact Or.inr (through fields .descend)
    | _ => cases hv
  | map id fields =>
    cases hn : Operation.namedIn fields with
    | nil => exact Or.inr (through fields (.map hn))
    | cons o others =>
      rw [parsed, hn] at h
      cases others with
      | nil => cases h
      | cons =>
        cases h
        exact Or.inl ⟨⟨_, rfl⟩, .ambiguous (by simp [hn])⟩
  | _ => cases h; exact Or.inl ⟨⟨_, rfl⟩, .other (by simp [Value.type]) (by simp [Value.type])
    (by simp [Value.type])⟩

/-! ## What is refused -/

theorem reaches_illegal {f : Fault} (hv : v.branching = true)
    (h : parsed run place trail v = .error f) :
    (∃ problem, f = .command problem) ∧ ∃ p w, v.Reaches p w ∧ w.Illegal := by
  induction v using Value.branch_induction generalizing place trail with
  | step v ih =>
    rcases parsed_error_cases hv h with ⟨hf, hi⟩ | ⟨fields, k, w, hb, hm, hw⟩
    · exact ⟨hf, [], v, .here v, hi⟩
    · obtain ⟨hf, p, x, hp, hi⟩ := ih fields k w hb hm (hb.branching hv hm) hw
      exact ⟨hf, k :: p, x, .down hb hm hp, hi⟩

/-! ## What is made -/

/-- The value and what stands in its place are an operation, or descents with the same keys. -/
inductive Renders : Value → Value → Prop where
  | op {v kind argument : Value} (h : v.StandsFor kind argument) : Renders v (.op kind argument)
  | descend {v : Value} {fields parts : List (Key × Value)} {id : Ident} (h : v.Branches fields)
      (keys : Fields.keys parts = Fields.keys fields) : Renders v (.descend (.map id parts))

theorem Renders.not_illegal (h : Renders v w) : ¬ v.Illegal := by
  cases h with
  | op h => exact h.not_illegal
  | descend h => exact h.not_illegal

theorem Renders.standsFor {kind argument : Value} (h : Renders v (.op kind argument)) :
    v.StandsFor kind argument := by
  cases h with
  | op h => exact h

/-- A value that is one operation becomes that one. -/
theorem Renders.eq_op {kind argument : Value} (h : Renders v w) (hs : v.StandsFor kind argument) :
    w = .op kind argument := by
  cases h with
  | op h =>
    cases hs with
    | op => cases h; rfl
    | raw only held =>
      cases h with
      | raw only' held' =>
        rw [only] at only'
        cases only'
        rw [held] at held'
        cases held'
        rfl
  | descend h => exact absurd hs h.not_standsFor

/-- What stands for a descent is one, and the other way round, with the same keys. -/
theorem Renders.keys_of {parts : List (Key × Value)} (h : Renders v w) (hw : w.Branches parts) :
    ∃ fields, v.Branches fields ∧ Fields.keys fields = Fields.keys parts := by
  cases h with
  | op => cases hw
  | descend h keys => cases hw; exact ⟨_, h, keys.symm⟩

theorem Renders.of_keys {fields : List (Key × Value)} (h : Renders v w) (hv : v.Branches fields) :
    ∃ parts, w.Branches parts ∧ Fields.keys parts = Fields.keys fields := by
  cases h with
  | op h => exact absurd h hv.not_standsFor
  | descend h keys =>
    cases h.unique hv
    exact ⟨_, .descend, keys⟩

theorem renders_of_parsed (h : parsed run place trail v = .ok w) : Renders v w := by
  rcases parsed_cases h with ⟨kind, argument, hs, rfl⟩ | ⟨fields, id, parts, hb, hp, rfl⟩
  · exact .op hs
  · exact .descend hb (Becomes.keys hp)

/-- Wherever parsing comes in the value, there is what the value there becomes. -/
theorem Renders.of_reaches {p : List Key} {x : Value} (hx : v.Reaches p x) :
    ∀ {place : List Key} {trail : Trail} {w : Value}, parsed run place trail v = .ok w →
      ∃ y, w.Reaches p y ∧ Renders x y := by
  induction hx with
  | here v => exact fun h => ⟨_, .here _, renders_of_parsed h⟩
  | @down v u x fields k p hb hm _ ih =>
    intro place trail w h
    rcases parsed_cases h with ⟨kind, argument, hs, -⟩ | ⟨fields', id, parts, hb', hp, rfl⟩
    · exact absurd hs hb.not_standsFor
    · cases hb.unique hb'
      obtain ⟨y, hy, hu⟩ := Becomes.of_mem hp hm
      obtain ⟨z, hz, hr⟩ := ih hu
      exact ⟨z, .down .descend hy hz, hr⟩

/-- The parsed command reaches no other places than the value does. -/
theorem Renders.reaches_of {p : List Key} {y : Value} (hy : w.Reaches p y) :
    ∀ {place : List Key} {trail : Trail} {v : Value}, parsed run place trail v = .ok w →
      ∃ x, v.Reaches p x ∧ Renders x y := by
  induction hy with
  | here w => exact fun h => ⟨_, .here _, renders_of_parsed h⟩
  | @down w u y fields k p hb hm _ ih =>
    intro place trail v h
    rcases parsed_cases h with ⟨kind, argument, -, rfl⟩ | ⟨fields', id, parts, hb', hp, rfl⟩
    · cases hb
    · cases hb
      obtain ⟨x, hx, hu⟩ := Becomes.mem_of hp hm
      obtain ⟨z, hz, hr⟩ := ih hu
      exact ⟨z, .down hb' hx hz, hr⟩

mutual
/-- The value is a parsed command throughout. -/
def isParsed : Value → Bool
  | .op _ _ => true
  | .descend (.map _ children) => areParsed children
  | _ => false

def areParsed : List (Key × Value) → Bool
  | [] => true
  | (_, v) :: rest => isParsed v && areParsed rest
end

theorem areParsed_iff {fields : List (Key × Value)} :
    areParsed fields = true ↔ ∀ k v, (k, v) ∈ fields → isParsed v = true := by
  induction fields with
  | nil => simp [areParsed]
  | cons entry rest ih => rw [areParsed, Bool.and_eq_true, ih, Fields.forall_cons]

theorem isParsed_of_parsed (h : parsed run place trail v = .ok w) : isParsed w = true := by
  induction v using Value.branch_induction generalizing place trail w with
  | step v ih =>
    rcases parsed_cases h with ⟨kind, argument, -, rfl⟩ | ⟨fields, id, parts, hb, hp, rfl⟩
    · rfl
    · rw [isParsed, areParsed_iff]
      intro k x hx
      obtain ⟨u, hm, hu⟩ := Becomes.mem_of hp hx
      exact ih fields k u hb hm hu

/-! ## Parsing again -/

/-- A parsed command is parsed to itself, with the very mappings of its descents. -/
theorem parsed_of_isParsed (h : isParsed v = true) : parsed run place trail v = .ok v := by
  induction v using Value.branch_induction generalizing place trail with
  | step v ih =>
    cases v with
    | op kind argument => rfl
    | descend children =>
      cases children with
      | map id fields =>
        rw [isParsed, areParsed_iff] at h
        have hp : parsedAll run place trail fields = .ok fields := by
          rw [parsedAll_iff, List.forall₂_same]
          exact fun ⟨k, w⟩ hm => ⟨rfl, ih fields k w .descend hm (h k w hm)⟩
        rw [parsed, hp]
        simp [bind, Except.bind]
      | _ => cases h
    | _ => cases h

theorem parse_of_standsFor {kind argument : Value} (h : v.StandsFor kind argument) :
    parse trail v = .ok (ofOp kind argument) := by
  cases h with
  | op => rw [parse]
  | raw only held => simp [parse, only, held, ofOp, Operation.ofValue?_name]

theorem exists_children {fields parts : List (Key × Value)}
    (h : List.Forall₂ (Becomes run place trail) fields parts)
    (each : ∀ k v, (k, v) ∈ fields → ∀ w, parsed run (k :: place) (trail ++ [k.plain]) v = .ok w →
      ∃ c, ∀ t, parse t w = .ok c ∧ parse t v = .ok c) :
    ∃ children, ∀ t, List.Forall₂ (Parses t) parts children ∧
      List.Forall₂ (Parses t) fields children := by
  induction h with
  | nil => exact ⟨[], fun _ => ⟨.nil, .nil⟩⟩
  | @cons entry part _ _ hb _ ih =>
    obtain ⟨k, v⟩ := entry
    obtain ⟨l, w⟩ := part
    obtain ⟨e, hw⟩ := hb
    cases e
    obtain ⟨hfirst, hrest⟩ := Fields.forall_cons.1 each
    obtain ⟨c, hc⟩ := hfirst w hw
    obtain ⟨cs, hcs⟩ := ih hrest
    exact ⟨(k, c) :: cs, fun t => ⟨.cons ⟨rfl, (hc _).1⟩ (hcs t).1, .cons ⟨rfl, (hc _).2⟩ (hcs t).2⟩⟩

/-- A value and what parsing makes of it stand for one command. -/
theorem parse_of_parsed (h : parsed run place trail v = .ok w) :
    ∃ c, ∀ t, parse t w = .ok c ∧ parse t v = .ok c := by
  induction v using Value.branch_induction generalizing place trail w with
  | step v ih =>
    rcases parsed_cases h with ⟨kind, argument, hs, rfl⟩ | ⟨fields, id, parts, hb, hp, rfl⟩
    · exact ⟨ofOp kind argument, fun t => ⟨rfl, parse_of_standsFor hs⟩⟩
    · obtain ⟨children, hc⟩ := exists_children hp fun k u hm x hx => ih fields k u hb hm hx
      refine ⟨.descend children, fun t => ⟨?_, ?_⟩⟩
      · exact (parse_branches .descend).2 ⟨children, (hc t).1, rfl⟩
      · exact (parse_branches hb).2 ⟨children, (hc t).2, rfl⟩

theorem parseChildren_of_error {fields : List (Key × Value)} {f : Fault}
    (each : ∀ k v, (k, v) ∈ fields → parsed run (k :: place) (trail ++ [k.plain]) v = .error f →
      parse (trail ++ [k.plain]) v = .error f)
    (h : parsedAll run place trail fields = .error f) : parseChildren trail fields = .error f := by
  induction fields with
  | nil => cases h
  | cons entry rest ih =>
    obtain ⟨k, v⟩ := entry
    obtain ⟨hfirst, hrest⟩ := Fields.forall_cons.1 each
    rw [parsedAll, bind_eq_error] at h
    rw [parseChildren, bind_eq_error]
    rcases h with hv | ⟨w, hw, h⟩
    · exact Or.inl (hfirst hv)
    · obtain ⟨c, hc⟩ := parse_of_parsed hw
      rcases bind_eq_error.1 h with hr | ⟨ws, -, h⟩
      · exact Or.inr ⟨c, (hc _).2, bind_eq_error.2 (Or.inl (ih hrest hr))⟩
      · cases h

theorem parse_of_error {f : Fault} (h : parsed run place trail v = .error f) :
    parse trail v = .error f := by
  induction v using Value.branch_induction generalizing place trail with
  | step v ih =>
    have through : ∀ fields, v.Branches fields → parse trail v = .error f := by
      intro fields hb
      obtain ⟨id, e⟩ := @parsed_of_branches run place trail _ _ hb
      rw [e, map_eq_error] at h
      rw [parse_of_branches hb, map_eq_error]
      exact parseChildren_of_error (fun k w hm hw => ih fields k w hb hm hw) h
    cases v with
    | op => cases h
    | descend children =>
      cases children with
      | map id fields => exact through fields .descend
      | _ => cases h; rfl
    | map id fields =>
      cases hn : Operation.namedIn fields with
      | nil => exact through fields (.map hn)
      | cons o others =>
        rw [parsed, hn] at h
        rw [parse, hn]
        cases others with
        | nil => cases h
        | cons => cases h; rfl
    | _ => cases h; rfl

/-- Parsing what was parsed before gives the same command, or the same fault, as parsing at once. -/
theorem parse_parsed : (parsed run place trail v >>= parse trail) = parse trail v := by
  cases h : parsed run place trail v with
  | error f => rw [parse_of_error h]; rfl
  | ok w =>
    obtain ⟨c, hc⟩ := parse_of_parsed h
    rw [(hc trail).2]
    exact (hc trail).1

/-! ## What parses -/

/-- What parses stands for an operation, or has branches that parse. -/
theorem parse_ok_cases {c : Command} (h : parse trail v = .ok c) :
    (∃ kind argument, v.StandsFor kind argument ∧ c = ofOp kind argument) ∨
      ∃ fields children, v.Branches fields ∧ List.Forall₂ (Parses trail) fields children ∧
        c = descend children := by
  have hparsed : (parsed 0 [] trail v >>= parse trail) = .ok c := by rw [parse_parsed, h]
  obtain ⟨w, hw, -⟩ := bind_eq_ok.1 hparsed
  rcases parsed_cases hw with ⟨kind, argument, hs, -⟩ | ⟨fields, -, -, hb, -, -⟩
  · exact Or.inl ⟨kind, argument, hs, Except.ok.inj (h.symm.trans (parse_of_standsFor hs))⟩
  · obtain ⟨children, hp, hc⟩ := (parse_branches hb).1 h
    exact Or.inr ⟨fields, children, hb, hp, hc⟩

theorem standsFor_of_parse {argument : Value} {kind : Operation}
    (h : parse trail v = .ok (op kind argument)) : v.StandsFor (.str kind.name) argument := by
  rcases parse_ok_cases h with ⟨name, argument', hs, hc⟩ | ⟨_, _, _, _, hc⟩
  · unfold ofOp at hc
    split at hc
    · rename_i o ho
      cases hc
      have hname : name = .str kind.name := by simpa using List.find?_some ho
      exact hname ▸ hs
    · cases hc
  · cases hc

theorem branches_of_parse {children : List (Key × Command)}
    (h : parse trail v = .ok (descend children)) :
    ∃ fields, v.Branches fields ∧ List.Forall₂ (Parses trail) fields children := by
  rcases parse_ok_cases h with ⟨kind, argument, -, hc⟩ | ⟨fields, _, hb, hp, hc⟩
  · unfold ofOp at hc
    split at hc <;> cases hc
  · cases hc
    exact ⟨fields, hb, hp⟩

theorem Parses.keys {fields : List (Key × Value)} {children : List (Key × Command)}
    (h : List.Forall₂ (Parses trail) fields children) : Fields.keys children = Fields.keys fields := by
  refine (Fields.keys_rel (R := fun _ _ => True) (h.imp fun _ _ hp => ?_)).symm
  exact ⟨hp.1, trivial⟩

/-! ## Parsing as a whole -/

/-- Where every descent that parsing comes to holds a mapping, parsing fails exactly if it reaches what
is no command, and then with a fault of the command. What it returns otherwise is made of operations
and descents only: it holds an operation exactly where the value reaches one, that one, and descends
exactly where the value does, into the same keys. It is parsed to itself, and an update by it is an
update by the value. -/
theorem parsed_grammar (hv : v.branching = true) :
    ((∃ problem, parsed run place trail v = .error (.command problem)) ↔
        ∃ p x, v.Reaches p x ∧ x.Illegal) ∧
      ((¬ ∃ p x, v.Reaches p x ∧ x.Illegal) → ∃ w, parsed run place trail v = .ok w) ∧
      (∀ w, parsed run place trail v = .ok w →
        isParsed w = true ∧
        (∀ p kind argument, w.Reaches p (.op kind argument) ↔
          ∃ x, v.Reaches p x ∧ x.StandsFor kind argument) ∧
        (∀ p ks, (∃ y parts, w.Reaches p y ∧ y.Branches parts ∧ Fields.keys parts = ks) ↔
          ∃ x fields, v.Reaches p x ∧ x.Branches fields ∧ Fields.keys fields = ks) ∧
        ∀ run' place' trail', parsed run' place' trail' w = .ok w) ∧
      ∀ made call run' source, (parsed made [] [] v >>= fun w => Value.update call run' source w) =
        Value.update call run' source v := by
  have legal : ∀ w, parsed run place trail v = .ok w → ∀ p x, v.Reaches p x → ¬ x.Illegal := by
    intro w h p x hx
    obtain ⟨y, -, hr⟩ := Renders.of_reaches hx h
    exact hr.not_illegal
  have illegal : ∀ f, parsed run place trail v = .error f →
      (∃ problem, f = .command problem) ∧ ∃ p x, v.Reaches p x ∧ x.Illegal :=
    fun f h => reaches_illegal hv h
  refine ⟨⟨?_, ?_⟩, ?_, fun w h => ⟨isParsed_of_parsed h, fun p kind argument => ⟨?_, ?_⟩,
    fun p ks => ⟨?_, ?_⟩, fun _ _ _ => parsed_of_isParsed (isParsed_of_parsed h)⟩, ?_⟩
  · rintro ⟨problem, h⟩
    exact (illegal _ h).2
  · rintro ⟨p, x, hx, hi⟩
    cases h : parsed run place trail v with
    | ok w => exact absurd hi (legal w h p x hx)
    | error f =>
      obtain ⟨problem, rfl⟩ := (illegal f h).1
      exact ⟨problem, rfl⟩
  · intro hn
    cases h : parsed run place trail v with
    | ok w => exact ⟨w, rfl⟩
    | error f => exact absurd (illegal f h).2 hn
  · intro hy
    obtain ⟨x, hx, hr⟩ := Renders.reaches_of hy h
    exact ⟨x, hx, hr.standsFor⟩
  · rintro ⟨x, hx, hs⟩
    obtain ⟨y, hy, hr⟩ := Renders.of_reaches hx h
    rwa [hr.eq_op hs] at hy
  · rintro ⟨y, parts, hy, hb, rfl⟩
    obtain ⟨x, hx, hr⟩ := Renders.reaches_of hy h
    obtain ⟨fields, hb', hk⟩ := hr.keys_of hb
    exact ⟨x, fields, hx, hb', hk⟩
  · rintro ⟨x, fields, hx, hb, rfl⟩
    obtain ⟨y, hy, hr⟩ := Renders.of_reaches hx h
    obtain ⟨parts, hb', hk⟩ := hr.of_keys hb
    exact ⟨y, parts, hy, hb', hk⟩
  · intro made call run' source
    simp only [Value.update, ← bind_assoc]
    rw [parse_parsed]

/-- Raw commands in a parsed descent, an operation whose argument is no command, and another with a key
beside it that holds none. -/
theorem parsed_grammar_of_mixed :
    let argument : Value := .map ⟨0, [.str "a"]⟩ [(.str "$set", .null), (.str "$push", .null)]
    let raw : Value := .map ⟨0, [.str "b"]⟩ [(.str "x", .null), (.str "$merge", argument)]
    let v : Value := .descend (.map ⟨0, []⟩ [(.str "a", .op (.str "$set") argument),
      (.str "b", .map ⟨1, []⟩ [(.str "c", raw)])])
    v.branching = true ∧ (¬ ∃ p x, v.Reaches p x ∧ x.Illegal) ∧
      ∃ w, parsed 2 [] [] v = .ok w ∧ isParsed w = true ∧
        w.Reaches [.str "b", .str "c"] (.op (.str "$merge") argument) ∧
        parsed 3 [] [] w = .ok w := by
  intro argument raw v
  have hv : v.branching = true := rfl
  obtain ⟨refused, -, made, -⟩ := @parsed_grammar 2 [] [] v hv
  have h : parsed 2 [] [] v = .ok (.descend (.map ⟨2, []⟩ [(.str "a", .op (.str "$set") argument),
    (.str "b", .descend (.map ⟨2, [.str "b"]⟩ [(.str "c", .op (.str "$merge") argument)]))])) := rfl
  obtain ⟨only, ops, -, again⟩ := made _ h
  have one : raw.StandsFor (.str Operation.merge.name) argument := .raw rfl rfl
  refine ⟨hv, fun hi => ?_, _, h, only, (ops _ _ _).2 ⟨raw, ?_, one⟩, again 3 [] []⟩
  · obtain ⟨problem, e⟩ := refused.2 hi
    rw [h] at e
    cases e
  · exact .down .descend (List.mem_cons_of_mem _ List.mem_cons_self)
      (.down (.map rfl) List.mem_cons_self (.here raw))

end Command

end TreeDelta
