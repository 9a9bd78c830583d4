import TreeDelta.Json.Token
import TreeDelta.Json.Writer
import Mathlib.Data.List.Chain
/-!
# Strings in JSON text

Every sign of a string is written as itself, as a short escape, or by its units, and read back from
that (`stringBody_escaped`). Two halves that stand next to one another as a pair does are read as
the character of the pair, so a text comes back if it holds no such halves (`ofPieces_pieces`).
-/

namespace TreeDelta

namespace Sign

theorem ofCode_code (s : Sign) : ofCode s.code = s := by
  cases s with
  | half h => exact ofCode_half h
  | char c =>
    have hv : c.toNat < 0xd800 ∨ (0xdfff < c.toNat ∧ c.toNat < 0x110000) := c.valid
    have hc : ¬ (firstHalf ≤ c.toNat ∧ c.toNat - firstHalf < 0x800) := by
      simp only [firstHalf]
      omega
    rw [code, ofCode, dif_neg hc, Char.ofNat_toNat]

theorem code_lt (s : Sign) : s.code < 0x110000 := by
  cases s with
  | half h =>
    have := h.isLt
    simp only [code, firstHalf]
    omega
  | char c =>
    have hv : c.toNat < 0xd800 ∨ (0xdfff < c.toNat ∧ c.toNat < 0x110000) := c.valid
    simp only [code]
    omega

end Sign

namespace Text

/-- No two signs next to one another are the halves of a pair. -/
def Unpaired (text : Text) : Prop :=
  text.IsChain fun s t => ¬ (isHigh s.code = true ∧ isLow t.code = true)

instance (text : Text) : Decidable (Unpaired text) := inferInstanceAs (Decidable (List.IsChain _ _))

/-- The sign is written by its units. -/
def byUnits : Sign → Bool
  | .char c => !(c = '"' ∨ c = '\\' ∨ (' ' ≤ c ∧ c ≤ '~') ∨ c = '\n' ∨ c = '\r' ∨ c = '\t' ∨
      c = '\x08' ∨ c = '\x0c')
  | .half _ => true

/-- The pieces that what is written for a sign is read as. -/
def piecesOf (s : Sign) : List Piece := if byUnits s then (units s).map .unit else [.sign s]

/-! ## Units -/

theorem ofPieces_unit {m : Nat} {rest : List Piece}
    (h : ∀ n, rest.head? = some (.unit n) → ¬ (isHigh m = true ∧ isLow n = true)) :
    ofPieces (.unit m :: rest) = .ofCode m :: ofPieces rest := by
  cases rest with
  | nil => rfl
  | cons p rest =>
    cases p with
    | sign s => rfl
    | unit n =>
      have hn : (isHigh m && isLow n) = false := by
        have := h n rfl
        simpa using this
      rw [ofPieces, hn]
      rfl

theorem units_low {s : Sign} (h : ¬ s.code < 0x10000) :
    units s = [0xd800 + (s.code - 0x10000) / 0x400, 0xdc00 + (s.code - 0x10000) % 0x400] := if_neg h

theorem ofPieces_units {s : Sign} (h : ¬ s.code < 0x10000) (rest : List Piece) :
    ofPieces ((units s).map .unit ++ rest) = s :: ofPieces rest := by
  have hlt := s.code_lt
  have hpair : (isHigh (0xd800 + (s.code - 0x10000) / 0x400) &&
      isLow (0xdc00 + (s.code - 0x10000) % 0x400)) = true := by
    simp only [isHigh, isLow, Bool.and_eq_true, decide_eq_true_eq]
    omega
  have hcode : 0x10000 + (0xd800 + (s.code - 0x10000) / 0x400 - 0xd800) * 0x400 +
      (0xdc00 + (s.code - 0x10000) % 0x400 - 0xdc00) = s.code := by
    omega
  rw [units_low h]
  simp only [List.map_cons, List.map_nil, List.cons_append, List.nil_append, ofPieces, hpair, if_true,
    ofPair]
  rw [hcode, Sign.ofCode_code]

/-- The first unit of what is written for a sign is the sign's code or no low half. -/
theorem head_piecesOf {t : Sign} {n : Nat} {rest : List Piece}
    (h : (piecesOf t ++ rest).head? = some (.unit n)) : n = t.code ∨ isLow n = false := by
  unfold piecesOf units at h
  split at h
  · simp only at h
    split at h
    · simp only [List.map_cons, List.cons_append, List.head?_cons, Option.some.injEq,
        Piece.unit.injEq] at h
      exact Or.inl h.symm
    · simp only [List.map_cons, List.cons_append, List.head?_cons, Option.some.injEq,
        Piece.unit.injEq] at h
      have := t.code_lt
      right
      rw [← h, isLow, Bool.and_eq_false_iff, decide_eq_false_iff_not]
      left
      omega
  · simp at h

/-- A text without paired halves is what its pieces are read as. -/
theorem ofPieces_pieces {text : Text} (h : Unpaired text) :
    ofPieces (text.flatMap piecesOf) = text := by
  induction text with
  | nil => rfl
  | cons s rest ih =>
    have hrest := ih (List.IsChain.tail h)
    rw [List.flatMap_cons]
    by_cases hu : byUnits s = true
    · have hpieces : piecesOf s = (units s).map .unit := if_pos hu
      rw [hpieces]
      by_cases hs : s.code < 0x10000
      · have hunits : units s = [s.code] := if_pos hs
        rw [hunits]
        have hnext : ∀ n, (rest.flatMap piecesOf).head? = some (.unit n) →
            ¬ (isHigh s.code = true ∧ isLow n = true) := by
          intro n hn
          cases rest with
          | nil => cases hn
          | cons t rest =>
            have hst := (List.isChain_cons_cons.1 h).1
            rw [List.flatMap_cons] at hn
            rcases head_piecesOf hn with rfl | hlow
            · exact hst
            · simp [hlow]
        rw [List.map_singleton, List.singleton_append, ofPieces_unit hnext, Sign.ofCode_code]
        exact congrArg _ hrest
      · rw [ofPieces_units hs]
        exact congrArg _ hrest
    · have hpieces : piecesOf s = [.sign s] := if_neg hu
      rw [hpieces, List.singleton_append, ofPieces]
      exact congrArg _ hrest

end Text

namespace Json

open Text (ofChars Piece)

/-! ## Escapes -/

theorem hexDigits_four {n : Nat} (h : n < 0x10000) :
    Text.hexDigits 4 n = [(n / 4096).digitChar, (n / 256 % 16).digitChar, (n / 16 % 16).digitChar,
      (n % 16).digitChar] := by
  have zero : ∀ m, m = 0 → m.digitChar = '0' := by
    rintro _ rfl
    rfl
  unfold Text.hexDigits
  by_cases h1 : n < 16
  · rw [Nat.toDigits_of_lt_base h1, zero (n / 4096) (by omega), zero (n / 256 % 16) (by omega),
      zero (n / 16 % 16) (by omega), Nat.mod_eq_of_lt h1]
    rfl
  rw [Nat.toDigits_of_base_le (by omega) (by omega : 16 ≤ n)]
  by_cases h2 : n / 16 < 16
  · rw [Nat.toDigits_of_lt_base h2, zero (n / 4096) (by omega), zero (n / 256 % 16) (by omega),
      Nat.mod_eq_of_lt h2]
    rfl
  rw [Nat.toDigits_of_base_le (by omega) (by omega : 16 ≤ n / 16)]
  have e2 : n / 16 / 16 = n / 256 := by omega
  by_cases h3 : n / 256 < 16
  · rw [e2, Nat.toDigits_of_lt_base h3, zero (n / 4096) (by omega), Nat.mod_eq_of_lt h3]
    rfl
  have e3 : n / 256 / 16 = n / 4096 := by omega
  rw [e2, Nat.toDigits_of_base_le (by omega) (by omega : 16 ≤ n / 256), e3,
    Nat.toDigits_of_lt_base (by omega)]
  rfl

theorem hexValue?_digitChar : ∀ d < 16, hexValue? (.char d.digitChar) = some d := by decide

theorem stringBody_unit {n : Nat} (h : n < 0x10000) (rest : Text) :
    stringBody (ofChars ('\\' :: 'u' :: Text.hexDigits 4 n) ++ rest) =
      (stringBody rest).map fun p => (Piece.unit n :: p.1, p.2) := by
  have hunit : unitOf? (.char (n / 4096).digitChar) (.char (n / 256 % 16).digitChar)
      (.char (n / 16 % 16).digitChar) (.char (n % 16).digitChar) = some n := by
    unfold unitOf?
    rw [hexValue?_digitChar _ (by omega), hexValue?_digitChar _ (by omega),
      hexValue?_digitChar _ (by omega), hexValue?_digitChar _ (by omega)]
    simp only [Option.bind_eq_bind, Option.bind_some, Option.some.injEq]
    omega
  rw [hexDigits_four h]
  simp only [ofChars, List.map_cons, List.map_nil, List.cons_append, List.nil_append]
  rw [stringBody, hunit]
  cases stringBody rest <;> rfl

theorem stringBody_char {s : Sign} (hquote : s ≠ .char '"') (hslash : s ≠ .char '\\')
    (hcontrol : ¬ s.code < 0x20) (rest : Text) :
    stringBody (s :: rest) = (stringBody rest).map fun p => (Piece.sign s :: p.1, p.2) := by
  rw [stringBody.eq_def]
  split
  · rename_i h; cases h
  · rename_i h; cases h; exact absurd rfl hquote
  · rename_i h; cases h; exact absurd rfl hslash
  · rename_i h; cases h; exact absurd rfl hslash
  · rename_i h
    cases h
    rw [if_neg hcontrol]
    cases stringBody rest <;> rfl

theorem stringBody_escape {e c : Char} (hu : e ≠ 'u') (he : escaped? (.char e) = some c) (rest : Text) :
    stringBody (.char '\\' :: .char e :: rest) =
      (stringBody rest).map fun p => (Piece.sign (.char c) :: p.1, p.2) := by
  rw [stringBody.eq_def]
  split
  · rename_i h; cases h
  · rename_i h; cases h
  · rename_i h; cases h; exact absurd rfl hu
  · rename_i h
    cases h
    rw [he]
    cases stringBody rest <;> rfl
  · rename_i h1 h2 h
    cases h
    exact (h2 _ _ rfl rfl).elim

theorem stringBody_units {ns : List Nat} (h : ∀ n ∈ ns, n < 0x10000) (rest : Text) :
    stringBody (ofChars (ns.flatMap fun n => '\\' :: 'u' :: Text.hexDigits 4 n) ++ rest) =
      (stringBody rest).map fun p => (ns.map Piece.unit ++ p.1, p.2) := by
  induction ns with
  | nil => cases hb : stringBody rest <;> simp [ofChars, hb]
  | cons n ns ih =>
    have hn : n < 0x10000 := h n (by simp)
    have hrest := ih fun m hm => h m (by simp [hm])
    have htext : ofChars ((n :: ns).flatMap fun n => '\\' :: 'u' :: Text.hexDigits 4 n) ++ rest =
        ofChars ('\\' :: 'u' :: Text.hexDigits 4 n) ++
          (ofChars (ns.flatMap fun n => '\\' :: 'u' :: Text.hexDigits 4 n) ++ rest) := by
      simp [ofChars]
    rw [htext, stringBody_unit hn, hrest, Option.map_map]
    rfl

theorem units_lt (s : Sign) : ∀ n ∈ Text.units s, n < 0x10000 := by
  have hlt := s.code_lt
  intro n hn
  by_cases hs : s.code < 0x10000
  · have hunits : Text.units s = [s.code] := if_pos hs
    rw [hunits, List.mem_singleton] at hn
    omega
  · rw [Text.units_low hs] at hn
    simp only [List.mem_cons, List.not_mem_nil, or_false] at hn
    omega

/-- What is written for a sign is read as the sign or its units. -/
theorem stringBody_escaped (s : Sign) (rest : Text) :
    stringBody (ofChars (escapedSign s) ++ rest) =
      (stringBody rest).map fun p => (Text.piecesOf s ++ p.1, p.2) := by
  have hunits := stringBody_units (units_lt s) rest
  cases s with
  | half h => exact hunits
  | char c =>
    simp only [escapedSign, escapedChar]
    by_cases h1 : c = '"' ∨ c = '\\'
    · rw [if_pos h1]
      rcases h1 with rfl | rfl <;> exact stringBody_escape (by decide) rfl rest
    rw [if_neg h1]
    by_cases h2 : ' ' ≤ c ∧ c ≤ '~'
    · have hcode : ¬ (Sign.char c).code < 0x20 := Nat.not_lt.2 h2.1
      have hquote : Sign.char c ≠ .char '"' := fun h => h1 (Or.inl (Sign.char.inj h))
      have hslash : Sign.char c ≠ .char '\\' := fun h => h1 (Or.inr (Sign.char.inj h))
      have hpieces : Text.piecesOf (.char c) = [.sign (.char c)] := if_neg (by simp [Text.byUnits, h2])
      rw [if_pos h2, hpieces]
      exact stringBody_char hquote hslash hcode rest
    rw [if_neg h2]
    by_cases h3 : c = '\n'
    · subst h3
      exact stringBody_escape (by decide) rfl rest
    rw [if_neg h3]
    by_cases h4 : c = '\r'
    · subst h4
      exact stringBody_escape (by decide) rfl rest
    rw [if_neg h4]
    by_cases h5 : c = '\t'
    · subst h5
      exact stringBody_escape (by decide) rfl rest
    rw [if_neg h5]
    by_cases h6 : c = '\x08'
    · subst h6
      exact stringBody_escape (by decide) rfl rest
    rw [if_neg h6]
    by_cases h7 : c = '\x0c'
    · subst h7
      exact stringBody_escape (by decide) rfl rest
    · have hby : Text.byUnits (.char c) = true := by
        simp only [Text.byUnits, Bool.not_eq_true', decide_eq_false_iff_not]
        tauto
      have hpieces : Text.piecesOf (.char c) = (Text.units (.char c)).map .unit := if_pos hby
      rw [if_neg h7, hpieces]
      exact hunits

theorem stringBody_text (text : Text) (rest : Text) :
    stringBody (ofChars (text.flatMap escapedSign) ++ .char '"' :: rest) =
      some (text.flatMap Text.piecesOf, rest) := by
  induction text with
  | nil => rfl
  | cons s text ih =>
    have htext : ofChars ((s :: text).flatMap escapedSign) ++ .char '"' :: rest =
        ofChars (escapedSign s) ++ (ofChars (text.flatMap escapedSign) ++ .char '"' :: rest) := by
      simp [ofChars]
    rw [htext, stringBody_escaped, ih]
    rfl

/-- The text of a string without paired halves is read as the string. -/
theorem nextToken_str {text : Text} (h : Text.Unpaired text) (rest : Text) :
    nextToken (quotedText text ++ rest) = some (.str text, rest) := by
  have htext : quotedText text ++ rest =
      .char '"' :: (ofChars (text.flatMap escapedSign) ++ .char '"' :: rest) := by
    simp [quotedText, ofChars]
  rw [htext]
  simp only [nextToken, stringBody_text, Option.bind_eq_bind, Option.bind_some, Text.ofPieces_pieces h]

end Json

end TreeDelta
