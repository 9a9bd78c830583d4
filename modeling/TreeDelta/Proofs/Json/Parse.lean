import TreeDelta.Proofs.Except
import TreeDelta.Proofs.Json.Copy
import TreeDelta.Proofs.Shape
import Mathlib.Data.List.TakeWhile
/-!
# What is read can be written

A document that is read from the text of a string is readable again (`readable_of_parse`): no number
in it is longer than what is read, halves that make a pair have been joined, and no name comes twice
in an object. So the value of a document holds each key once (`keyed_readJson`). The lexer is gone
through part by part, each leaving the end of the text before it; the reader by induction on its fuel,
for any property that passes from items and members to the whole (`Inherits`).
-/

namespace TreeDelta

namespace Text

/-- A text of characters only. -/
def IsString (text : Text) : Prop := ∀ s ∈ text, ∃ c, s = .char c

theorem isString_ofString (s : String) : IsString (ofString s) := by
  intro t ht
  obtain ⟨c, -, rfl⟩ := List.mem_map.1 ht
  exact ⟨c, rfl⟩

theorem IsString.suffix {text rest : Text} (h : text.IsString) (hr : rest <:+ text) : rest.IsString :=
  fun s hs => h s (hr.subset hs)

/-! ## Pieces -/

/-- No character has the code of a half. -/
theorem not_half_code (c : Char) : isHigh c.toNat = false ∧ isLow c.toNat = false := by
  have hv : c.toNat < 0xd800 ∨ (0xdfff < c.toNat ∧ c.toNat < 0x110000) := c.valid
  simp only [isHigh, isLow, Bool.and_eq_false_iff, decide_eq_false_iff_not]
  omega

/-- The sign of a code is a half exactly if the code is one. -/
theorem half_ofCode (n : Nat) :
    (isHigh (Sign.ofCode n).code = true → isHigh n = true) ∧
      (isLow (Sign.ofCode n).code = true → isLow n = true) := by
  unfold Sign.ofCode
  split
  · rename_i hn
    have hcode : (Sign.half ⟨n - Sign.firstHalf, hn.2⟩).code = n := by
      simp only [Sign.code]
      omega
    rw [hcode]
    exact ⟨id, id⟩
  · obtain ⟨hhigh, hlow⟩ := not_half_code (Char.ofNat n)
    simp only [Sign.code, hhigh, hlow]
    exact ⟨fun h => (by cases h), fun h => (by cases h)⟩

/-- A piece that is no half given as it is. -/
def Piece.Whole : Piece → Prop
  | .sign s => ∃ c, s = .char c
  | .unit _ => True

theorem not_half_ofPair (m n : Nat) :
    isHigh (ofPair m n).code = false ∧ isLow (ofPair m n).code = false := by
  have hcode : ∀ k, isHigh k = false ∧ isLow k = false → isHigh (Sign.ofCode k).code = false ∧
      isLow (Sign.ofCode k).code = false := by
    rintro k ⟨hhigh, hlow⟩
    refine ⟨Bool.eq_false_iff.2 fun hc => ?_, Bool.eq_false_iff.2 fun hc => ?_⟩
    · rw [(half_ofCode k).1 hc] at hhigh
      cases hhigh
    · rw [(half_ofCode k).2 hc] at hlow
      cases hlow
  refine hcode _ ?_
  simp only [isHigh, isLow, Bool.and_eq_false_iff, decide_eq_false_iff_not]
  omega

/-- Only a low unit is read as a low half. -/
theorem head_ofPieces {pieces : List Piece} (h : ∀ p ∈ pieces, p.Whole) {t : Sign}
    (ht : (ofPieces pieces).head? = some t) (hlow : isLow t.code = true) :
    ∃ n rest, pieces = .unit n :: rest ∧ isLow n = true := by
  unfold ofPieces at ht
  split at ht
  · cases ht
  · rename_i s rest
    obtain ⟨c, rfl⟩ := h (.sign s) (by simp)
    cases ht
    rw [Sign.code, (not_half_code c).2] at hlow
    cases hlow
  · rename_i m n rest
    split at ht
    · rw [List.head?_cons, Option.some.injEq] at ht
      rw [← ht, (not_half_ofPair m n).2] at hlow
      cases hlow
    · cases ht
      exact ⟨m, _, rfl, (half_ofCode m).2 hlow⟩
  · rename_i n rest _
    cases ht
    exact ⟨n, rest, rfl, (half_ofCode n).2 hlow⟩

/-- What pieces are read as holds no pair of halves: those have been joined. -/
theorem unpaired_ofPieces {pieces : List Piece} (h : ∀ p ∈ pieces, p.Whole) :
    Unpaired (ofPieces pieces) := by
  induction pieces using ofPieces.induct with
  | case1 => exact .nil
  | case2 s rest ih =>
    obtain ⟨c, rfl⟩ := h (.sign s) (by simp)
    rw [ofPieces]
    refine List.isChain_cons.2 ⟨fun t _ => ?_, ih fun p hp => h p (by simp [hp])⟩
    simp [Sign.code, (not_half_code c).1]
  | case3 m n rest hpair ih =>
    rw [ofPieces, if_pos hpair]
    refine List.isChain_cons.2 ⟨fun t _ => ?_, ih fun p hp => h p (by simp [hp])⟩
    simp [(not_half_ofPair m n).1]
  | case4 m n rest hpair ih =>
    have hrest : ∀ p ∈ Piece.unit n :: rest, p.Whole := fun p hp => h p (List.mem_cons_of_mem _ hp)
    rw [ofPieces, if_neg hpair]
    refine List.isChain_cons.2 ⟨fun t ht hboth => hpair ?_, ih hrest⟩
    obtain ⟨k, more, hk, hlow⟩ := head_ofPieces hrest ht hboth.2
    cases hk
    rw [(half_ofCode m).1 hboth.1, hlow]
    rfl
  | case5 n rest hne ih =>
    have hrest : ∀ p ∈ rest, p.Whole := fun p hp => h p (List.mem_cons_of_mem _ hp)
    rw [ofPieces]
    · refine List.isChain_cons.2 ⟨fun t ht hboth => ?_, ih hrest⟩
      obtain ⟨k, more, hk, -⟩ := head_ofPieces hrest ht hboth.2
      exact hne k more hk
    · exact hne

end Text

namespace Json

open Text (Piece)

/-! ## The rest of a text -/

theorem span_suffix (p : Sign → Bool) (text : Text) : (text.span p).2 <:+ text := by
  rw [List.span_eq_takeWhile_dropWhile]
  exact List.dropWhile_suffix p

theorem after?_suffix {start text rest : Text} (h : Text.after? start text = some rest) :
    rest <:+ text := by
  induction start generalizing text with
  | nil => cases h; exact List.suffix_refl _
  | cons s start ih =>
    cases text with
    | nil => cases h
    | cons t text =>
      rw [Text.after?] at h
      split at h
      · exact (ih h).trans (List.suffix_cons t text)
      · cases h

/-- One more piece in front. -/
theorem whole_cons {text after rest : Text} {pieces : List Piece} {p : Piece} (ha : after <:+ text)
    (hp : text.IsString → p.Whole) (h : rest <:+ after ∧ (after.IsString → ∀ q ∈ pieces, q.Whole)) :
    rest <:+ text ∧ (text.IsString → ∀ q ∈ p :: pieces, q.Whole) :=
  ⟨h.1.trans ha, fun hs => List.forall_mem_cons.2 ⟨hp hs, h.2 (hs.suffix ha)⟩⟩

theorem stringBody_ok {text rest : Text} {pieces : List Piece}
    (h : stringBody text = some (pieces, rest)) :
    rest <:+ text ∧ (text.IsString → ∀ p ∈ pieces, p.Whole) := by
  induction text using stringBody.induct generalizing pieces rest with
  | case1 => cases h
  | case2 text =>
    cases h
    exact ⟨List.suffix_cons _ _, fun _ p hp => by cases hp⟩
  | case3 a b c d text ih =>
    simp only [stringBody, Option.bind_eq_bind, Option.bind_eq_some_iff] at h
    obtain ⟨unit, -, ⟨more, after⟩, hb, heq⟩ := h
    cases heq
    exact whole_cons ⟨[_, _, _, _, _, _], rfl⟩ (fun _ => trivial) (ih hb)
  | case4 e text hne ih =>
    rw [stringBody] at h
    · simp only [Option.bind_eq_bind, Option.bind_eq_some_iff] at h
      obtain ⟨c, -, ⟨more, after⟩, hb, heq⟩ := h
      cases heq
      exact whole_cons ⟨[_, _], rfl⟩ (fun _ => ⟨c, rfl⟩) (ih hb)
    · exact hne
  | case5 s text h1 h2 h3 hs =>
    rw [stringBody, if_pos hs] at h
    · cases h
    · exact h1
    · exact h2
    · exact h3
  | case6 s text h1 h2 h3 hs ih =>
    rw [stringBody, if_neg hs] at h
    · simp only [Option.bind_eq_bind, Option.bind_eq_some_iff] at h
      obtain ⟨⟨more, after⟩, hb, heq⟩ := h
      cases heq
      exact whole_cons (List.suffix_cons _ _) (fun hstring => hstring s (by simp)) (ih hb)
    · exact h1
    · exact h2
    · exact h3

theorem wholePart_ok (text : Text) :
    (wholePart text).2 <:+ text ∧ ∀ s ∈ (wholePart text).1, isDigit s = true := by
  unfold wholePart
  split
  · refine ⟨List.suffix_cons _ _, fun s hs => ?_⟩
    rw [List.mem_singleton.1 hs]
    rfl
  · refine ⟨span_suffix _ _, fun s hs => ?_⟩
    rw [List.span_eq_takeWhile_dropWhile] at hs
    exact List.mem_takeWhile_imp hs

theorem fractionPart_suffix (text : Text) : (fractionPart text).2 <:+ text := by
  unfold fractionPart
  split
  · rename_i rest
    have hspan := span_suffix isDigit rest
    split
    · exact List.suffix_refl _
    · rename_i h
      rw [h] at hspan
      exact hspan.trans (List.suffix_cons _ _)
  · exact List.suffix_refl _

theorem signPart_suffix (text : Text) : (signPart text).2 <:+ text := by
  unfold signPart
  split
  · exact List.suffix_cons _ _
  · exact List.suffix_cons _ _
  · exact List.suffix_refl _

theorem exponentPart_suffix (text : Text) : (exponentPart text).2 <:+ text := by
  unfold exponentPart
  split
  · rename_i e rest
    split
    · have hsign := signPart_suffix rest
      have hspan := span_suffix isDigit (signPart rest).2
      simp only
      split
      · exact List.suffix_refl _
      · rename_i h
        rw [h] at hspan
        exact (hspan.trans hsign).trans (List.suffix_cons _ _)
    · exact List.suffix_refl _
  · exact List.suffix_refl _

/-! ## Tokens that can be written -/

/-- A token that stands for a document that can be written. -/
def Token.Readable : Token → Prop
  | .int i => Short i
  | .str s => Text.Unpaired s
  | _ => True

theorem ofDigits_lt {digits : Text} (h : ∀ s ∈ digits, isDigit s = true) :
    ofDigits digits < 10 ^ digits.length := by
  have hfold : ∀ n, digits.foldl (fun n d => 10 * n + (d.code - '0'.toNat)) n + 1 ≤
      (n + 1) * 10 ^ digits.length := by
    induction digits with
    | nil => intro n; simp
    | cons d digits ih =>
      intro n
      have hd : d.code - '0'.toNat ≤ 9 := by
        have hdigit := h d (by simp)
        cases d with
        | half => cases hdigit
        | char c =>
          simp only [isDigit, Bool.and_eq_true, decide_eq_true_eq] at hdigit
          have hc : c.toNat ≤ 57 := hdigit.2
          have hzero : '0'.toNat = 48 := rfl
          simp only [Sign.code]
          omega
      have hrest := ih (fun s hs => h s (by simp [hs])) (10 * n + (d.code - '0'.toNat))
      calc _ ≤ (10 * n + (d.code - '0'.toNat) + 1) * 10 ^ digits.length := hrest
        _ ≤ (10 * (n + 1)) * 10 ^ digits.length := Nat.mul_le_mul_right _ (by omega)
        _ = (n + 1) * 10 ^ (digits.length + 1) := by rw [pow_succ]; ring
  have := hfold 0
  rw [Nat.zero_add, Nat.one_mul] at this
  exact this

theorem wholeToken_readable {negative : Bool} {digits : Text} (h : ∀ s ∈ digits, isDigit s = true) :
    (wholeToken negative digits).Readable := by
  unfold wholeToken
  split
  · trivial
  · rename_i hlength
    have hpos : 0 < Text.mostDigits := by decide
    have hvalue : ∀ i : Int, i.natAbs = ofDigits digits → Short i := by
      intro i hi
      rw [Short, hi, Nat.length_toDigits_le_iff (by omega) hpos]
      exact Nat.lt_of_lt_of_le (ofDigits_lt h) (Nat.pow_le_pow_right (by omega) (by omega))
    cases negative <;> exact hvalue _ (by simp)

theorem numberBody_ok {negative : Bool} {text rest : Text} {token : Token}
    (h : numberBody negative text = some (token, rest)) : rest <:+ text ∧ token.Readable := by
  obtain ⟨hwhole, hdigits⟩ := wholePart_ok text
  have hfraction := fractionPart_suffix (wholePart text).2
  have hexponent := exponentPart_suffix (fractionPart (wholePart text).2).2
  have hsuffix := (hexponent.trans hfraction).trans hwhole
  unfold numberBody at h
  split at h
  · cases h
  · rename_i whole after hne hpart
    rw [hpart] at hsuffix hdigits
    simp only at h hsuffix
    split at h
    · cases h
      exact ⟨hsuffix, wholeToken_readable hdigits⟩
    · cases h
      exact ⟨hsuffix, trivial⟩

theorem wordAt?_ok {text rest : Text} {token : Token} (h : wordAt? text = some (token, rest)) :
    rest <:+ text ∧ token.Readable := by
  obtain ⟨⟨word, found⟩, hm, hfound⟩ := List.exists_of_findSome?_eq_some h
  obtain ⟨after, hafter, heq⟩ := Option.map_eq_some_iff.1 hfound
  cases heq
  refine ⟨after?_suffix hafter, ?_⟩
  simp only [words, List.mem_cons, Prod.mk.injEq, List.not_mem_nil, or_false] at hm
  rcases hm with ⟨-, rfl⟩ | ⟨-, rfl⟩ | ⟨-, rfl⟩ | ⟨-, rfl⟩ | ⟨-, rfl⟩ | ⟨-, rfl⟩ <;> trivial

theorem nextToken_ok {text rest : Text} {token : Token} (hs : text.IsString)
    (h : nextToken text = some (token, rest)) : rest <:+ text ∧ token.Readable := by
  unfold nextToken at h
  split at h
  case h_7 text =>
    simp only [Option.bind_eq_bind, Option.bind_eq_some_iff] at h
    obtain ⟨⟨pieces, after⟩, hbody, heq⟩ := h
    cases heq
    obtain ⟨hsuffix, hwhole⟩ := stringBody_ok hbody
    have hstring : Text.IsString text := hs.suffix (List.suffix_cons _ _)
    exact ⟨hsuffix.trans (List.suffix_cons _ _), Text.unpaired_ofPieces (hwhole hstring)⟩
  case h_8 =>
    split at h
    · rename_i hword
      cases h
      exact wordAt?_ok hword
    · split at h
      · obtain ⟨hsuffix, htoken⟩ := numberBody_ok h
        exact ⟨hsuffix.trans (List.suffix_cons _ _), htoken⟩
      · exact numberBody_ok h
  all_goals
    cases h
    exact ⟨List.suffix_cons _ _, trivial⟩

/-- All tokens of a string can be written. -/
theorem lex_readable {text : Text} (hs : text.IsString) : ∀ token ∈ lex text, token.Readable := by
  induction text using lex.induct with
  | case1 => intro token ht; rw [lex] at ht; cases ht
  | case2 s rest hspace ih =>
    rw [lex, if_pos hspace]
    exact ih (hs.suffix (List.suffix_cons _ _))
  | case3 s rest hspace hnone =>
    rw [lex, if_neg hspace, hnone]
    simp [Token.Readable]
  | case4 s rest hspace token after hnext hlength ih =>
    obtain ⟨hsuffix, htoken⟩ := nextToken_ok hs hnext
    rw [lex, if_neg hspace, hnext]
    simp only [dif_pos hlength, List.forall_mem_cons]
    exact ⟨htoken, ih (hs.suffix hsuffix)⟩
  | case5 s rest hspace token after hnext hlength =>
    rw [lex, if_neg hspace, hnext]
    simp [hlength, Token.Readable]

/-! ## Documents -/

theorem mem_put {name other : Text} {j k : Json} {members : List (Text × Json)}
    (h : (other, k) ∈ put name j members) : (other = name ∧ k = j) ∨ (other, k) ∈ members := by
  induction members with
  | nil => simpa [put] using h
  | cons m members ih =>
    obtain ⟨n, i⟩ := m
    rw [put] at h
    split at h
    · rename_i hn
      rcases List.mem_cons.1 h with h | h
      · cases h
        exact Or.inl ⟨hn.symm, rfl⟩
      · exact Or.inr (by simp [h])
    · rcases List.mem_cons.1 h with h | h
      · exact Or.inr (by simp [h])
      · rcases ih h with h | h
        · exact Or.inl h
        · exact Or.inr (by simp [h])

theorem nodup_put {name : Text} {j : Json} {members : List (Text × Json)}
    (h : (members.map (·.1)).Nodup) : ((put name j members).map (·.1)).Nodup := by
  induction members with
  | nil => simp [put]
  | cons m members ih =>
    obtain ⟨n, i⟩ := m
    rw [List.map_cons, List.nodup_cons] at h
    rw [put]
    split
    · simpa using h
    · rename_i hn
      rw [List.map_cons, List.nodup_cons]
      refine ⟨fun hm => ?_, ih h.2⟩
      obtain ⟨⟨n', k⟩, hk, heq⟩ := List.mem_map.1 hm
      have heq : n' = n := heq
      rcases mem_put hk with ⟨rfl, -⟩ | hk
      · exact hn heq
      · exact h.1 (List.mem_map.2 ⟨_, hk, heq⟩)

/-- The members of an object come from those that stand in the text, and no name comes twice. -/
theorem ofMembers_ok (members : List (Text × Json)) :
    ((ofMembers members).map (·.1)).Nodup ∧ ∀ m ∈ ofMembers members, m ∈ members := by
  have hfold : ∀ acc : List (Text × Json), (acc.map (·.1)).Nodup →
      ((members.foldl (fun acc m => put m.1 m.2 acc) acc).map (·.1)).Nodup ∧
        ∀ m ∈ members.foldl (fun acc m => put m.1 m.2 acc) acc, m ∈ acc ∨ m ∈ members := by
    induction members with
    | nil => exact fun acc hacc => ⟨hacc, fun m hm => Or.inl hm⟩
    | cons m members ih =>
      intro acc hacc
      obtain ⟨name, j⟩ := m
      obtain ⟨hnodup, hmem⟩ := ih (put name j acc) (nodup_put hacc)
      refine ⟨hnodup, fun m hm => ?_⟩
      rcases hmem m hm with hm | hm
      · obtain ⟨n, k⟩ := m
        rcases mem_put hm with ⟨rfl, rfl⟩ | hm
        · exact Or.inr (by simp)
        · exact Or.inl hm
      · exact Or.inr (by simp [hm])
  obtain ⟨hnodup, hmem⟩ := hfold [] (by simp)
  exact ⟨hnodup, fun m hm => (hmem m hm).resolve_left (by simp)⟩

/-- All tokens of the list are of a kind. -/
abbrev All (Q : Token → Prop) (tokens : List Token) : Prop := ∀ token ∈ tokens, Q token

/-- Documents made of tokens of a kind `Q` have `P`: so it is for a document of one token, and from
items and members it passes to the whole. -/
structure Inherits (Q : Token → Prop) (P : Json → Prop) : Prop where
  null : P null
  bool : ∀ b, P (bool b)
  int : ∀ {i}, Q (.int i) → P (int i)
  float : ∀ x, P (float x)
  nan : P nan
  str : ∀ {s}, Q (.str s) → P (str s)
  arr : ∀ {items}, (∀ j ∈ items, P j) → P (arr items)
  obj : ∀ {members}, (members.map (·.1)).Nodup →
    (∀ name j, (name, j) ∈ members → Q (.str name) ∧ P j) → P (obj members)

/-- What the three readers return of tokens of a kind, with so much fuel. -/
structure Sound (Q : Token → Prop) (P : Json → Prop) (fuel : Nat) : Prop where
  value : ∀ {tokens rest j}, All Q tokens → readValue fuel tokens = .ok (j, rest) → P j ∧ All Q rest
  items : ∀ {tokens rest items}, All Q tokens → readItems fuel tokens = .ok (items, rest) →
    (∀ j ∈ items, P j) ∧ All Q rest
  members : ∀ {tokens rest members}, All Q tokens → readMembers fuel tokens = .ok (members, rest) →
    (∀ name j, (name, j) ∈ members → Q (.str name) ∧ P j) ∧ All Q rest

namespace Sound

variable {Q : Token → Prop} {P : Json → Prop} {fuel : Nat} {tokens rest : List Token}

theorem value_succ (hP : Inherits Q P) (h : Sound Q P fuel) {j : Json} (ht : All Q tokens)
    (hread : readValue (fuel + 1) tokens = .ok (j, rest)) : P j ∧ All Q rest := by
  cases tokens with
  | nil => rw [readValue] at hread; cases hread
  | cons token tokens =>
    obtain ⟨htoken, hmore⟩ := List.forall_mem_cons.1 ht
    rw [readValue.eq_def] at hread
    simp only at hread
    split at hread <;> try (cases hread; done)
    case h_1 => cases hread; exact ⟨hP.null, hmore⟩
    case h_2 => cases hread; exact ⟨hP.bool _, hmore⟩
    case h_3 => cases hread; exact ⟨hP.int htoken, hmore⟩
    case h_4 => cases hread; exact ⟨hP.float _, hmore⟩
    case h_5 => cases hread; exact ⟨hP.nan, hmore⟩
    case h_6 => cases hread; exact ⟨hP.str htoken, hmore⟩
    case h_7 =>
      split at hread
      · cases hread
        exact ⟨hP.arr (by simp), fun t hm => hmore t (by simp [hm])⟩
      · obtain ⟨⟨items, after⟩, hitems, heq⟩ := bind_eq_ok.1 hread
        cases heq
        obtain ⟨hall, hafter⟩ := h.items hmore hitems
        exact ⟨hP.arr hall, hafter⟩
    case h_8 =>
      split at hread
      · cases hread
        exact ⟨hP.obj (by simp) (by simp), fun t hm => hmore t (by simp [hm])⟩
      · obtain ⟨⟨members, after⟩, hmembers, heq⟩ := bind_eq_ok.1 hread
        cases heq
        obtain ⟨hall, hafter⟩ := h.members hmore hmembers
        obtain ⟨hnodup, hmem⟩ := ofMembers_ok members
        exact ⟨hP.obj hnodup fun name j hm => hall name j (hmem _ hm), hafter⟩

theorem items_succ (h : Sound Q P fuel) {items : List Json} (ht : All Q tokens)
    (hread : readItems (fuel + 1) tokens = .ok (items, rest)) : (∀ j ∈ items, P j) ∧ All Q rest := by
  rw [readItems] at hread
  obtain ⟨⟨item, after⟩, hitem, hread⟩ := bind_eq_ok.1 hread
  obtain ⟨hj, hafter⟩ := h.value ht hitem
  split at hread
  · rename_i heq
    cases heq
    obtain ⟨⟨more, last⟩, hmore, heq⟩ := bind_eq_ok.1 hread
    cases heq
    obtain ⟨hall, hlast⟩ := h.items (List.forall_mem_cons.1 hafter).2 hmore
    exact ⟨List.forall_mem_cons.2 ⟨hj, hall⟩, hlast⟩
  · rename_i heq
    cases heq
    cases hread
    exact ⟨by simpa using hj, (List.forall_mem_cons.1 hafter).2⟩
  · cases hread

theorem members_succ (h : Sound Q P fuel) {members : List (Text × Json)} (ht : All Q tokens)
    (hread : readMembers (fuel + 1) tokens = .ok (members, rest)) :
    (∀ name j, (name, j) ∈ members → Q (.str name) ∧ P j) ∧ All Q rest := by
  rw [readMembers.eq_def] at hread
  split at hread
  · cases hread
  · rename_i name tokens hfuel
    cases hfuel
    obtain ⟨hname, ht⟩ := List.forall_mem_cons.1 ht
    obtain ⟨⟨value, after⟩, hvalue, hread⟩ := bind_eq_ok.1 hread
    obtain ⟨hj, hafter⟩ := h.value (List.forall_mem_cons.1 ht).2 hvalue
    split at hread
    · rename_i heq
      cases heq
      obtain ⟨⟨more, last⟩, hmore, heq⟩ := bind_eq_ok.1 hread
      cases heq
      obtain ⟨hall, hlast⟩ := h.members (List.forall_mem_cons.1 hafter).2 hmore
      refine ⟨fun n k hm => ?_, hlast⟩
      rcases List.mem_cons.1 hm with hm | hm
      · cases hm
        exact ⟨hname, hj⟩
      · exact hall n k hm
    · rename_i heq
      cases heq
      cases hread
      refine ⟨fun n k hm => ?_, (List.forall_mem_cons.1 hafter).2⟩
      cases List.mem_singleton.1 hm
      exact ⟨hname, hj⟩
    · cases hread
  · cases hread

end Sound

variable {Q : Token → Prop} {P : Json → Prop}

/-- The readers return documents with the property, by induction on the fuel. -/
theorem sound_reader (hP : Inherits Q P) (fuel : Nat) : Sound Q P fuel := by
  induction fuel with
  | zero =>
    refine ⟨fun _ h => ?_, fun _ h => ?_, fun _ h => ?_⟩
    · rw [readValue] at h; cases h
    · rw [readItems] at h; cases h
    · rw [readMembers] at h; cases h
  | succ fuel ih => exact ⟨ih.value_succ hP, ih.items_succ, ih.members_succ⟩

theorem inherits_parse (hP : Inherits Q P) {text : Text} {j : Json} (ht : All Q (lex text))
    (h : parse text = .ok j) : P j := by
  unfold parse ofTokens at h
  split at h
  · rename_i hread
    cases h
    exact ((sound_reader hP _).value ht hread).1
  · cases h
  · cases h

theorem inherits_readable : Inherits Token.Readable Readable where
  null := .null
  bool := .bool
  int := .int
  float := .float
  nan := .nan
  str := .str
  arr := .arr
  obj distinct h := .obj distinct (fun name j hm => (h name j hm).1) fun name j hm => (h name j hm).2

/-- A document that is read from the text of a string can be written again. -/
theorem readable_of_parse {text : Text} {j : Json} (hs : text.IsString) (h : parse text = .ok j) :
    Readable j :=
  inherits_parse inherits_readable (lex_readable hs) h

/-! ## Values -/

/-- No number in the document is NaN. -/
inductive NaNFree : Json → Prop
  | null : NaNFree null
  | bool (b : Bool) : NaNFree (bool b)
  | int (i : Int) : NaNFree (int i)
  | float (x : Double) : NaNFree (float x)
  | str (s : Text) : NaNFree (str s)
  | arr {items : List Json} (below : ∀ j ∈ items, NaNFree j) : NaNFree (arr items)
  | obj {members : List (Text × Json)} (below : ∀ name j, (name, j) ∈ members → NaNFree j) :
      NaNFree (obj members)

theorem mem_ofItems {run n : Nat} {place : List Key} {items : List Json} {v : Value}
    (h : v ∈ Value.ofItems run place n items) : ∃ j ∈ items, Stands j v := by
  induction items generalizing n with
  | nil => cases h
  | cons j items ih =>
    rcases List.mem_cons.1 h with rfl | h
    · exact ⟨j, by simp, run, _, rfl⟩
    · obtain ⟨k, hk, hv⟩ := ih h
      exact ⟨k, by simp [hk], hv⟩

theorem mem_ofMembers {run n : Nat} {place : List Key} {members : List (Text × Json)} {k : Key}
    {v : Value} (h : (k, v) ∈ Value.ofMembers run place n members) :
    ∃ name j, k = .str name ∧ (name, j) ∈ members ∧ Stands j v := by
  induction members generalizing n with
  | nil => cases h
  | cons m members ih =>
    obtain ⟨name, j⟩ := m
    rcases List.mem_cons.1 h with h | h
    · cases h
      exact ⟨name, j, rfl, by simp, run, _, rfl⟩
    · obtain ⟨name', j', hk, hm, hv⟩ := ih h
      exact ⟨name', j', hk, by simp [hm], hv⟩

theorem distinct_ofMembers {members : List (Text × Json)} (h : (members.map (·.1)).Nodup)
    (run : Nat) (place : List Key) (n : Nat) :
    Fields.Distinct (Value.ofMembers run place n members) := by
  have hkeys := Fields.keys_rel (ofMembers_rel run place n members)
  rw [Fields.Distinct, ← hkeys]
  exact distinct_named.2 h

/-- What is read holds each key once, in every mapping. -/
theorem keyed_readJson {run : Nat} {text : Text} {v : Value} (h : readJson run text = .ok v) :
    v.keyed = true := by
  have hkeyed : Inherits (fun _ => True) fun j => ∀ run place, (Value.ofJson run place j).keyed = true :=
    { null := fun _ _ => rfl
      bool := fun _ _ _ => rfl
      int := fun _ _ _ => rfl
      float := fun _ _ _ => rfl
      nan := fun _ _ => rfl
      str := fun _ _ _ => rfl
      arr := fun below run place => Value.keyedItems_iff.2 fun v hv => by
        obtain ⟨j, hj, run', place', rfl⟩ := mem_ofItems hv
        exact below j hj run' place'
      obj := fun distinct below run place => Value.keyed_map.2
        ⟨distinct_ofMembers distinct run place 0, fun k v hm => by
          obtain ⟨name, j, -, hj, run', place', rfl⟩ := mem_ofMembers hm
          exact (below name j hj).2 run' place'⟩ }
  unfold readJson at h
  split at h
  · rename_i hparse
    cases h
    exact inherits_parse hkeyed (fun _ _ => trivial) hparse run []
  · cases h
  · cases h

/-- A document without NaN that can be written again stands for data of JSON. -/
theorem isJson_ofJson {j : Json} (h : Readable j) (hn : j.NaNFree) :
    ∀ run place, (Value.ofJson run place j).IsJson := by
  induction h with
  | null => exact fun _ _ => .null
  | bool b => exact fun _ _ => .bool b
  | int short => exact fun _ _ => .int short
  | float x => exact fun _ _ => .float x
  | nan => cases hn
  | str unpaired => exact fun _ _ => .str unpaired
  | arr _ ih =>
    intro run place
    cases hn with
    | arr below =>
      refine .list fun v hv => ?_
      obtain ⟨j, hj, run', place', rfl⟩ := mem_ofItems hv
      exact ih j hj (below j hj) run' place'
  | obj distinct unpaired _ ih =>
    intro run place
    cases hn with
    | obj below =>
      refine .map (distinct_ofMembers distinct run place 0) (fun k v hm => ?_) fun k v hm => ?_
      · obtain ⟨name, j, rfl, hj, -⟩ := mem_ofMembers hm
        exact ⟨name, rfl, unpaired name j hj⟩
      · obtain ⟨name, j, rfl, hj, run', place', rfl⟩ := mem_ofMembers hm
        exact ih name j hj (below name j hj) run' place'

theorem holds_ofItems {items : List Json}
    (h : ∀ j ∈ items, ∀ run place, Holds (.ofJson run place j) j) (run : Nat) (place : List Key) (n : Nat) :
    List.Forall₂ Holds (Value.ofItems run place n items) items := by
  induction items generalizing n with
  | nil => exact .nil
  | cons j items ih =>
    exact .cons (h j (by simp) run _) (ih (fun k hk => h k (by simp [hk])) (n + 1))

theorem holds_ofMembers {members : List (Text × Json)}
    (h : ∀ name j, (name, j) ∈ members → ∀ run place, Holds (.ofJson run place j) j)
    (run : Nat) (place : List Key) (n : Nat) :
    List.Forall₂ (fun f g => f.1 = g.1 ∧ Holds f.2 g.2) (Value.ofMembers run place n members)
      (named members) := by
  induction members generalizing n with
  | nil => exact .nil
  | cons m members ih =>
    obtain ⟨name, j⟩ := m
    have hrest := ih (fun name' k hk => h name' k (by simp [hk])) (n + 1)
    exact .cons ⟨rfl, h name j (by simp) run _⟩ hrest

/-- A document holds what it stands for, in whatever run and place. -/
theorem holds_ofJson {j : Json} (h : Readable j) (hn : j.NaNFree) :
    ∀ run place, Holds (.ofJson run place j) j := by
  induction h with
  | null => exact fun _ _ => ⟨.null, fun _ _ => .null⟩
  | bool b => exact fun _ _ => ⟨.bool b, fun _ _ => .bool b⟩
  | int short => exact fun _ _ => ⟨.int short, fun _ _ => .int _⟩
  | float x => exact fun _ _ => ⟨.float x, fun _ _ => .float x⟩
  | nan => cases hn
  | str unpaired => exact fun _ _ => ⟨.str unpaired, fun _ _ => .str _⟩
  | arr _ ih =>
    intro run place
    cases hn with
    | arr below => exact Value.holds_list (holds_ofItems (fun j hj => ih j hj (below j hj)) run place 0)
  | obj distinct unpaired _ ih =>
    intro run place
    cases hn with
    | obj below =>
      have hmembers := holds_ofMembers (fun name j hm => ih name j hm (below name j hm)) run place 0
      refine Value.holds_map (distinct_ofMembers distinct run place 0) (fun k v hm => ?_) hmembers
        (List.Perm.refl _)
      obtain ⟨name, j, rfl, hj, -⟩ := mem_ofMembers hm
      exact ⟨name, rfl, unpaired name j hj⟩

theorem copy_ofJson {j : Json} (h : Readable j) (hn : j.NaNFree) (run : Nat) (place : List Key)
    (run' : Nat) (place' : List Key) : (Value.ofJson run place j).Copy (Value.ofJson run' place' j) :=
  (holds_ofJson h hn run place).copy run' place'

end Json

end TreeDelta
