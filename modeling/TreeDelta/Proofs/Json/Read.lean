import TreeDelta.Json.Reader
import TreeDelta.Proofs.Json.Lex
/-!
# Documents that come back

A readable document is what its text is read as, in every layout (`parse_text`). The reader's fuel
is enough when there is twice as much of it as there are tokens, which `ofTokens` gives.
-/

namespace TreeDelta.Json

/-- The reader takes the document from in front of whatever follows its tokens. -/
def Reads (j : Json) : Prop :=
  ∀ rest fuel, 2 * j.tokens.length ≤ fuel → readValue fuel (j.tokens ++ rest) = .ok (j, rest)

/-! ## Members -/

theorem put_new {name : Text} {j : Json} {members : List (Text × Json)}
    (h : name ∉ members.map (·.1)) : put name j members = members ++ [(name, j)] := by
  induction members with
  | nil => rfl
  | cons m members ih =>
    obtain ⟨other, k⟩ := m
    simp only [List.map_cons, List.mem_cons, not_or] at h
    rw [put, if_neg h.1, ih h.2]
    rfl

/-- Members whose names differ are kept as they stand. -/
theorem ofMembers_distinct {members : List (Text × Json)} (h : (members.map (·.1)).Nodup) :
    ofMembers members = members := by
  have hfold : ∀ acc : List (Text × Json), ((acc ++ members).map (·.1)).Nodup →
      members.foldl (fun acc m => put m.1 m.2 acc) acc = acc ++ members := by
    clear h
    induction members with
    | nil => intro acc _; simp
    | cons m members ih =>
      intro acc hacc
      obtain ⟨name, j⟩ := m
      have hnew : name ∉ acc.map (·.1) := by
        intro hm
        rw [List.map_append, List.map_cons] at hacc
        exact (List.nodup_append.1 hacc).2.2 name hm name (by simp) rfl
      have hput : put name j acc = acc ++ [(name, j)] := put_new hnew
      rw [List.foldl_cons]
      simp only [hput]
      rw [ih _ (by simpa using hacc)]
      simp
  exact hfold [] (by simpa using h)

/-! ## Readers -/

theorem tokens_head (j : Json) :
    ∃ token rest, j.tokens = token :: rest ∧ token ≠ .closeArr := by
  cases j <;> exact ⟨_, _, rfl, by simp⟩

theorem exists_fuel {j : Json} {fuel : Nat} (h : 2 * j.tokens.length ≤ fuel) : ∃ n, fuel = n + 1 := by
  obtain ⟨token, rest, htokens, -⟩ := tokens_head j
  rw [htokens, List.length_cons] at h
  exact ⟨fuel - 1, by omega⟩

theorem length_separated_cons (part : List Token) (parts : List (List Token)) :
    part.length ≤ (separated (part :: parts)).length := by
  simp [separated]

/-- Behind an item comes the end of the list, or a comma and the next items. -/
theorem separated_cons_cons (part next : List Token) (parts : List (List Token)) :
    separated (part :: next :: parts) = part ++ .comma :: separated (next :: parts) := by
  simp [separated]

theorem readItems_separated {items : List Json} (hne : items ≠ []) (h : ∀ j ∈ items, Reads j)
    (rest : List Token) (fuel : Nat) (hf : 2 * (separated (itemTokens items)).length < fuel) :
    readItems fuel (separated (itemTokens items) ++ .closeArr :: rest) = .ok (items, rest) := by
  induction items generalizing fuel with
  | nil => exact absurd rfl hne
  | cons j items ih =>
    obtain ⟨fuel, rfl⟩ : ∃ n, fuel = n + 1 := ⟨fuel - 1, by omega⟩
    have hlength := length_separated_cons j.tokens (itemTokens items)
    have hj : ∀ rest, readValue fuel (j.tokens ++ rest) = .ok (j, rest) := by
      intro rest
      refine h j (by simp) rest fuel ?_
      simp only [itemTokens] at hf
      omega
    cases items with
    | nil =>
      have htokens : separated (itemTokens [j]) ++ .closeArr :: rest = j.tokens ++ .closeArr :: rest := by
        simp [itemTokens, separated]
      rw [htokens, readItems, hj]
      rfl
    | cons k items =>
      have htokens : separated (itemTokens (j :: k :: items)) =
          j.tokens ++ .comma :: separated (itemTokens (k :: items)) := separated_cons_cons ..
      rw [htokens] at hf
      simp only [List.length_append, List.length_cons] at hf
      have hmore := ih (by simp) (fun i hi => h i (by simp [hi])) fuel (by omega)
      rw [htokens, List.append_assoc, List.cons_append, readItems, hj]
      simp only [bind, Except.bind, hmore]

theorem readMembers_separated {members : List (Text × Json)} (hne : members ≠ [])
    (h : ∀ name j, (name, j) ∈ members → Reads j) (rest : List Token) (fuel : Nat)
    (hf : 2 * (separated (memberTokens members)).length < fuel) :
    readMembers fuel (separated (memberTokens members) ++ .closeObj :: rest) =
      .ok (members, rest) := by
  induction members generalizing fuel with
  | nil => exact absurd rfl hne
  | cons m members ih =>
    obtain ⟨name, j⟩ := m
    obtain ⟨fuel, rfl⟩ : ∃ n, fuel = n + 1 := ⟨fuel - 1, by omega⟩
    have hlength := length_separated_cons (.str name :: .colon :: j.tokens) (memberTokens members)
    have hj : ∀ rest, readValue fuel (j.tokens ++ rest) = .ok (j, rest) := by
      intro rest
      refine h name j (by simp) rest fuel ?_
      simp only [memberTokens, List.length_cons] at hf hlength
      omega
    cases members with
    | nil =>
      have htokens : separated (memberTokens [(name, j)]) ++ .closeObj :: rest =
          .str name :: .colon :: (j.tokens ++ .closeObj :: rest) := by
        simp [memberTokens, separated]
      rw [htokens, readMembers, hj]
      rfl
    | cons k members =>
      have htokens : separated (memberTokens ((name, j) :: k :: members)) =
          .str name :: .colon :: (j.tokens ++ .comma :: separated (memberTokens (k :: members))) :=
        separated_cons_cons ..
      rw [htokens] at hf
      simp only [List.length_append, List.length_cons] at hf
      have hmore := ih (by simp) (fun n i hi => h n i (by simp [hi])) fuel (by omega)
      rw [htokens]
      simp only [List.cons_append, List.append_assoc]
      rw [readMembers, hj]
      simp only [bind, Except.bind, hmore]

theorem reads_arr {items : List Json} (h : ∀ j ∈ items, Reads j) : Reads (arr items) := by
  intro rest fuel hf
  obtain ⟨fuel, rfl⟩ := exists_fuel hf
  cases items with
  | nil => rfl
  | cons k items =>
    obtain ⟨token, more, htoken, hclose⟩ := tokens_head k
    have hfuel : 2 * (separated (itemTokens (k :: items))).length < fuel := by
      simp only [tokens, List.length_cons, List.length_append] at hf
      omega
    have hread := readItems_separated (by simp) h rest fuel hfuel
    have hfront : separated (itemTokens (k :: items)) ++ .closeArr :: rest =
        token :: (more ++ (itemTokens items).flatMap (.comma :: ·) ++ .closeArr :: rest) := by
      simp [itemTokens, separated, htoken]
    have htokens : (arr (k :: items)).tokens ++ rest =
        .openArr :: (separated (itemTokens (k :: items)) ++ .closeArr :: rest) := by
      simp [tokens]
    rw [hfront] at hread
    rw [htokens, hfront, readValue]
    · simp only [bind, Except.bind, hread]
    · rintro _ ⟨⟩
      exact hclose rfl

theorem reads_obj {members : List (Text × Json)} (distinct : (members.map (·.1)).Nodup)
    (h : ∀ name j, (name, j) ∈ members → Reads j) : Reads (obj members) := by
  intro rest fuel hf
  obtain ⟨fuel, rfl⟩ := exists_fuel hf
  cases members with
  | nil => rfl
  | cons m members =>
    obtain ⟨name, k⟩ := m
    have hfuel : 2 * (separated (memberTokens ((name, k) :: members))).length < fuel := by
      simp only [tokens, List.length_cons, List.length_append] at hf
      omega
    have hread := readMembers_separated (by simp) h rest fuel hfuel
    have hfront : separated (memberTokens ((name, k) :: members)) ++ .closeObj :: rest =
        .str name :: (.colon :: k.tokens ++ (memberTokens members).flatMap (.comma :: ·) ++
          .closeObj :: rest) := by
      simp [memberTokens, separated]
    have htokens : (obj ((name, k) :: members)).tokens ++ rest =
        .openObj :: (separated (memberTokens ((name, k) :: members)) ++ .closeObj :: rest) := by
      simp [tokens]
    rw [hfront] at hread
    rw [htokens, hfront, readValue]
    · simp only [bind, Except.bind, hread, ofMembers_distinct distinct]
    · rintro _ ⟨⟩

/-- A readable document is read from its tokens. -/
theorem reads_of_readable {j : Json} (h : Readable j) : Reads j := by
  induction h with
  | arr _ ih => exact reads_arr ih
  | obj distinct _ _ ih => exact reads_obj distinct ih
  | _ =>
    intro rest fuel hf
    obtain ⟨fuel, rfl⟩ := exists_fuel hf
    rfl

/-- A readable document comes back from its text, in whatever layout, if nothing but spaces
follows. -/
theorem parse_text_append {j : Json} (h : Readable j) (indent : Option Int) {rest : Text}
    (hends : Ends rest) (hrest : lex rest = []) : parse (text indent j ++ rest) = .ok j := by
  have hlex : lex (text indent j ++ rest) = j.tokens := by
    have hall := lex_render h ⟨indent⟩ 0 _ hends
    rw [hrest, List.append_nil] at hall
    exact hall
  have hread := reads_of_readable h [] (2 * j.tokens.length + 1) (by omega)
  rw [List.append_nil] at hread
  rw [parse, hlex, ofTokens, hread]

theorem parse_text {j : Json} (h : Readable j) (indent : Option Int) :
    parse (text indent j ++ "\n") = .ok j := by
  have hline : lex ("\n" : String) = [] := by
    have hspace : isSpace (.char '\n') = true := rfl
    have htext : Text.ofString "\n" = .char '\n' :: [] := rfl
    rw [htext, lex_space hspace, lex]
  exact parse_text_append h indent (ends_cons (by decide) []) hline

theorem parse_text_bare {j : Json} (h : Readable j) (indent : Option Int) :
    parse (text indent j) = .ok j := by
  have hnone : lex [] = [] := by rw [lex]
  have hall := parse_text_append h indent (fun _ hs => by cases hs) hnone
  rwa [List.append_nil] at hall

end TreeDelta.Json
