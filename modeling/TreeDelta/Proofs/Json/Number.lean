import TreeDelta.Json.Token
import TreeDelta.Json.Writer
import TreeDelta.Proofs.Number.Decimal
import Mathlib.Tactic.IntervalCases
/-!
# Numbers in JSON text

The text of a number is one token, and that is the number again (`nextToken_int`,
`nextToken_float`), whatever follows it as long as that does not go on with it (`Ends`). The three
layouts of a decimal differ in where the point stands and in zeros; the rank of a decimal does not
depend on either.
-/

namespace TreeDelta

namespace Text

theorem ofString_append (s t : String) : ofString (s ++ t) = ofString s ++ ofString t := by
  simp [ofString, ofChars]

theorem ofString_ofList (cs : List Char) : ofString (String.ofList cs) = ofChars cs := by
  simp [ofString]

theorem ofChars_append (cs ds : List Char) : ofChars (cs ++ ds) = ofChars cs ++ ofChars ds := by
  simp [ofChars]

end Text

namespace Json

open Text (ofChars)

/-! ## Digits -/

theorem isDigit_char (c : Char) : isDigit (.char c) = c.isDigit := rfl

/-- What follows does not go on with a number before it. -/
def Ends (rest : Text) : Prop :=
  ∀ s, rest.head? = some s → isDigit s = false ∧ s ≠ .char '.' ∧ s ≠ .char 'e' ∧ s ≠ .char 'E'

theorem span_digits {cs : List Char} {rest : Text} (hc : ∀ c ∈ cs, c.isDigit = true)
    (hr : ∀ s, rest.head? = some s → isDigit s = false) :
    (ofChars cs ++ rest).span isDigit = (ofChars cs, rest) := by
  rw [List.span_eq_takeWhile_dropWhile]
  have hall : ∀ s ∈ ofChars cs, isDigit s = true := by
    intro s hs
    obtain ⟨c, hm, rfl⟩ := List.mem_map.1 hs
    exact hc c hm
  have hnone : rest.takeWhile isDigit = [] ∧ rest.dropWhile isDigit = rest := by
    cases rest with
    | nil => exact ⟨rfl, rfl⟩
    | cons s rest =>
      have := hr s rfl
      simp [this]
  rw [List.takeWhile_append_of_pos hall, List.dropWhile_append_of_pos hall, hnone.1, hnone.2,
    List.append_nil]

theorem ofDigits_ofChars (cs : List Char) : ofDigits (ofChars cs) = Nat.ofDigitChars 10 cs 0 := by
  simp [ofDigits, ofChars, Nat.ofDigitChars, List.foldl_map, Sign.code]

/-- The digits of a positive number do not start with a zero. -/
theorem toDigits_head {n : Nat} (h : n ≠ 0) : ∃ c cs, Nat.toDigits 10 n = c :: cs ∧ c ≠ '0' := by
  induction n using Nat.strongRecOn with
  | _ n ih =>
    by_cases hn : n < 10
    · rw [Nat.toDigits_of_lt_base hn]
      exact ⟨_, [], rfl, by simpa using h⟩
    · obtain ⟨c, cs, hc, hne⟩ := ih (n / 10) (by omega) (by omega)
      rw [Nat.toDigits_of_base_le (by omega) (by omega), hc]
      exact ⟨c, _, rfl, hne⟩

theorem isDigit_of_toDigits {n : Nat} : ∀ c ∈ Nat.toDigits 10 n, c.isDigit = true :=
  fun _ hc => Nat.isDigit_of_mem_toDigits (by omega) (by omega) hc

/-! ## The parts of a number -/

/-- Digits that can stand before the point: one zero, or no zero in front. -/
structure IsWhole (cs : List Char) : Prop where
  digits : ∀ c ∈ cs, c.isDigit = true
  front : cs = ['0'] ∨ ∃ c rest, cs = c :: rest ∧ c ≠ '0'

theorem IsWhole.toDigits (n : Nat) : IsWhole (Nat.toDigits 10 n) := by
  refine ⟨isDigit_of_toDigits, ?_⟩
  by_cases h : n = 0
  · exact Or.inl (by rw [h]; rfl)
  · exact Or.inr (toDigits_head h)

theorem wholePart_eq {cs : List Char} {rest : Text} (h : IsWhole cs)
    (hr : ∀ s, rest.head? = some s → isDigit s = false) :
    wholePart (ofChars cs ++ rest) = (ofChars cs, rest) := by
  rcases h.front with rfl | ⟨c, ds, rfl, hc⟩
  · rfl
  · have hspan := span_digits h.digits hr
    have hne : ∀ t : Text, ofChars (c :: ds) ++ rest ≠ .char '0' :: t := by
      intro t ht
      cases ht
      exact hc rfl
    rw [← hspan]
    unfold wholePart
    split
    · rename_i t ht
      exact absurd ht (hne t)
    · rfl

theorem fractionPart_none {rest : Text} (h : ∀ s, rest.head? = some s → s ≠ .char '.') :
    fractionPart rest = ([], rest) := by
  unfold fractionPart
  split
  · exact absurd rfl (h _ rfl)
  · rfl

theorem fractionPart_eq {cs : List Char} {rest : Text} (hne : cs ≠ [])
    (hc : ∀ c ∈ cs, c.isDigit = true) (hr : ∀ s, rest.head? = some s → isDigit s = false) :
    fractionPart (.char '.' :: (ofChars cs ++ rest)) = (ofChars cs, rest) := by
  obtain ⟨c, ds, rfl⟩ := List.exists_cons_of_ne_nil hne
  rw [fractionPart, span_digits hc hr]
  rfl

theorem exponentPart_none {rest : Text}
    (h : ∀ s, rest.head? = some s → s ≠ .char 'e' ∧ s ≠ .char 'E') :
    exponentPart rest = (none, rest) := by
  cases rest with
  | nil => rfl
  | cons s rest =>
    obtain ⟨he, hE⟩ := h s rfl
    simp [exponentPart, he, hE]

theorem exponentPart_eq {negative : Bool} {cs : List Char} {rest : Text} (hne : cs ≠ [])
    (hc : ∀ c ∈ cs, c.isDigit = true) (hr : ∀ s, rest.head? = some s → isDigit s = false) :
    exponentPart (.char 'e' :: .char (if negative then '-' else '+') :: (ofChars cs ++ rest)) =
      (some (if negative then -(ofDigits (ofChars cs) : Int) else ofDigits (ofChars cs)), rest) := by
  obtain ⟨c, ds, rfl⟩ := List.exists_cons_of_ne_nil hne
  have hsign : signPart (.char (if negative then '-' else '+') :: (ofChars (c :: ds) ++ rest)) =
      (negative, ofChars (c :: ds) ++ rest) := by
    cases negative <;> rfl
  simp only [exponentPart, hsign, span_digits hc hr, decide_true, Bool.true_or, if_true]
  rfl

/-! ## Numbers without their sign -/

theorem numberBody_of_parts {negative : Bool} {text whole fraction r₁ r₂ r₃ : Text}
    {exponent : Option Int} (hw : wholePart text = (whole, r₁)) (hne : whole ≠ [])
    (hf : fractionPart r₁ = (fraction, r₂)) (he : exponentPart r₂ = (exponent, r₃)) :
    numberBody negative text =
      if fraction.isEmpty && exponent.isNone then some (wholeToken negative whole, r₃)
      else some (.float (.ofDecimal negative (ofDigits (whole ++ fraction))
        (exponent.getD 0 - fraction.length)), r₃) := by
  obtain ⟨s, t, rfl⟩ := List.exists_cons_of_ne_nil hne
  unfold numberBody
  rw [hw]
  simp only [hf, he]

theorem IsWhole.ne_nil {cs : List Char} (h : IsWhole cs) : ofChars cs ≠ [] := by
  rcases h.front with rfl | ⟨c, rest, rfl, -⟩ <;> simp [ofChars]

theorem numberBody_whole {negative : Bool} {cs : List Char} {rest : Text} (h : IsWhole cs)
    (hr : Ends rest) :
    numberBody negative (ofChars cs ++ rest) = some (wholeToken negative (ofChars cs), rest) := by
  have hw := wholePart_eq h fun s hs => (hr s hs).1
  have hf := fractionPart_none fun s hs => (hr s hs).2.1
  have he := exponentPart_none fun s hs => (hr s hs).2.2
  rw [numberBody_of_parts hw h.ne_nil hf he]
  rfl

/-- A number with a point, and maybe an exponent `tail` behind it. -/
theorem numberBody_point {negative : Bool} {whole fraction : List Char} {tail rest : Text}
    {exponent : Option Int} (hw : IsWhole whole) (hf : ∀ c ∈ fraction, c.isDigit = true)
    (hne : fraction ≠ []) (ht : exponentPart tail = (exponent, rest))
    (hr : ∀ s, tail.head? = some s → isDigit s = false) :
    numberBody negative (ofChars whole ++ .char '.' :: (ofChars fraction ++ tail)) =
      some (.float (.ofDecimal negative (Nat.ofDigitChars 10 (whole ++ fraction) 0)
        (exponent.getD 0 - fraction.length)), rest) := by
  have hpoint : ∀ s, (Sign.char '.' :: (ofChars fraction ++ tail)).head? = some s →
      isDigit s = false := by
    rintro _ ⟨⟩
    rfl
  have hwhole := wholePart_eq hw hpoint
  have hfraction := fractionPart_eq hne hf hr
  have hempty : (ofChars fraction).isEmpty = false := by
    simpa [ofChars] using hne
  have hlength : (ofChars fraction).length = fraction.length := by simp [ofChars]
  rw [numberBody_of_parts hwhole hw.ne_nil hfraction ht, hempty, ← Text.ofChars_append,
    ofDigits_ofChars, hlength]
  rfl

/-- A whole number with an exponent `tail` behind it. -/
theorem numberBody_exponent {negative : Bool} {whole : List Char} {tail rest : Text} {exponent : Int}
    (hw : IsWhole whole) (ht : exponentPart tail = (some exponent, rest))
    (hr : ∀ s, tail.head? = some s → isDigit s = false ∧ s ≠ .char '.') :
    numberBody negative (ofChars whole ++ tail) =
      some (.float (.ofDecimal negative (Nat.ofDigitChars 10 whole 0) exponent), rest) := by
  have hwhole := wholePart_eq hw fun s hs => (hr s hs).1
  have hfraction := fractionPart_none fun s hs => (hr s hs).2
  rw [numberBody_of_parts hwhole hw.ne_nil hfraction ht, List.append_nil, ofDigits_ofChars]
  simp

/-! ## The layouts of a decimal -/

theorem ofDigitChars_zeros (n : Nat) (cs : List Char) :
    Nat.ofDigitChars 10 (List.replicate n '0' ++ cs) 0 = Nat.ofDigitChars 10 cs 0 := by
  rw [Nat.ofDigitChars_append, Nat.ofDigitChars_replicate_zero, Nat.mul_zero]

theorem isDigit_of_zeros {n : Nat} : ∀ c ∈ List.replicate n '0', c.isDigit = true := by
  intro c hc
  rw [List.eq_of_mem_replicate hc]
  rfl

theorem isDigit_of_append {cs ds : List Char} (hc : ∀ c ∈ cs, c.isDigit = true)
    (hd : ∀ c ∈ ds, c.isDigit = true) : ∀ c ∈ cs ++ ds, c.isDigit = true := by
  intro c h
  rcases List.mem_append.1 h with h | h
  · exact hc c h
  · exact hd c h

theorem isDigit_zero : ∀ c ∈ ['0'], c.isDigit = true := by
  intro c hc
  rw [List.mem_singleton.1 hc]
  rfl

theorem isWhole_zero : IsWhole ['0'] := ⟨isDigit_zero, Or.inl rfl⟩

/-- The digits of a positive number. -/
structure IsFigures (digits : List Char) (n : Nat) : Prop where
  all : ∀ c ∈ digits, c.isDigit = true
  front : ∃ c rest, digits = c :: rest ∧ c ≠ '0'
  value : Nat.ofDigitChars 10 digits 0 = n

theorem IsFigures.toDigits {n : Nat} (h : n ≠ 0) : IsFigures (Nat.toDigits 10 n) n :=
  ⟨isDigit_of_toDigits, toDigits_head h, Nat.ofDigitChars_ten_toDigits⟩

/-- Digits before a point and behind it that come to a decimal. -/
structure IsPointed (d : Decimal) (whole fraction : List Char) : Prop where
  before : IsWhole whole
  behind : ∀ c ∈ fraction, c.isDigit = true
  nonempty : fraction ≠ []
  rank : Decimal.rank ⟨Nat.ofDigitChars 10 (whole ++ fraction) 0, -fraction.length⟩ = d.rank

/-- The text of digits on both sides of a point. -/
def pointed (whole fraction : List Char) : String :=
  String.ofList whole ++ "." ++ String.ofList fraction

theorem ofString_pointed (whole fraction : List Char) :
    Text.ofString (pointed whole fraction) = ofChars whole ++ .char '.' :: ofChars fraction := by
  simp only [pointed, Text.ofString_append, Text.ofString_ofList, List.append_assoc]
  rfl

theorem IsPointed.read {negative : Bool} {d : Decimal} {whole fraction : List Char} {rest : Text}
    (h : IsPointed d whole fraction) (hr : Ends rest) :
    numberBody negative (Text.ofString (pointed whole fraction) ++ rest) =
      some (.float (.ofRank negative d.rank), rest) := by
  have he := exponentPart_none fun s hs => (hr s hs).2.2
  have hscale : (none : Option Int).getD 0 - (fraction.length : Int) = -fraction.length := by simp
  rw [ofString_pointed, List.append_assoc, List.cons_append,
    numberBody_point h.before h.behind h.nonempty he fun s hs => (hr s hs).1, hscale,
    Double.ofDecimal_eq, h.rank]

section

variable {digits : List Char} {n : Nat} {e : Int}

/-- The number is below one: zeros stand between the point and the digits. -/
theorem positional_below (h : IsFigures digits n) {z : Nat} (hz : -(z : Int) = e + digits.length) :
    positional digits (e + digits.length) = pointed ['0'] (List.replicate z '0' ++ digits) ∧
      IsPointed ⟨n, e⟩ ['0'] (List.replicate z '0' ++ digits) := by
  obtain ⟨c, cs, hcons, -⟩ := h.front
  refine ⟨?_, isWhole_zero, isDigit_of_append isDigit_of_zeros h.all, by simp [hcons], ?_⟩
  · rw [← hz, positional, if_pos (by omega), Int.neg_neg, Int.toNat_natCast]
    rfl
  · have hvalue : Nat.ofDigitChars 10 (['0'] ++ (List.replicate z '0' ++ digits)) 0 = n := by
      have hzeros := ofDigitChars_zeros (1 + z) digits
      rw [List.replicate_add, List.append_assoc, h.value] at hzeros
      exact hzeros
    have hexp : (-((List.replicate z '0' ++ digits).length : Nat) : Int) = e := by
      rw [List.length_append, List.length_replicate]; omega
    rw [hvalue, hexp]

/-- All digits stand before the point, maybe with zeros behind them. -/
theorem positional_behind (h : IsFigures digits n) {z : Nat} (hz : (z : Int) = e) :
    positional digits (e + digits.length) = pointed (digits ++ List.replicate z '0') ['0'] ∧
      IsPointed ⟨n, e⟩ (digits ++ List.replicate z '0') ['0'] := by
  obtain ⟨c, cs, hcons, hc⟩ := h.front
  have hlen : 0 < digits.length := by simp [hcons]
  refine ⟨?_, ⟨isDigit_of_append h.all isDigit_of_zeros, Or.inr ⟨c, _, by rw [hcons]; rfl, hc⟩⟩,
    isDigit_zero, by simp, ?_⟩
  · have hm : (e + (digits.length : Int)).toNat = digits.length + z := by omega
    have htake : digits.take (digits.length + z) = digits := List.take_of_length_le (by omega)
    have hdrop : digits.drop (digits.length + z) = [] := List.drop_of_length_le (by omega)
    rw [positional, if_neg (by omega)]
    simp only [hm, htake, hdrop, Nat.add_sub_cancel_left]
    rfl
  · have hvalue : Nat.ofDigitChars 10 (digits ++ List.replicate z '0' ++ ['0']) 0 = n * 10 ^ (z + 1) := by
      have hzeros : List.replicate z '0' ++ ['0'] = List.replicate (z + 1) '0' :=
        List.replicate_succ'.symm
      rw [List.append_assoc, hzeros, Nat.ofDigitChars_append, h.value, Nat.ofDigitChars_replicate_zero,
        Nat.mul_comm]
    have hexp : (-((['0'] : List Char).length : Nat) : Int) = e - (z + 1 : Nat) := by
      simp only [List.length_singleton]; omega
    rw [hvalue, hexp, Decimal.rank_mul_pow]

/-- The point stands among the digits. -/
theorem positional_among (h : IsFigures digits n) {m : Nat} (hm : (m : Int) = e + digits.length)
    (hpos : 0 < m) (hlt : m < digits.length) :
    positional digits (e + digits.length) = pointed (digits.take m) (digits.drop m) ∧
      IsPointed ⟨n, e⟩ (digits.take m) (digits.drop m) := by
  obtain ⟨c, cs, hcons, hc⟩ := h.front
  have hdrop : digits.drop m ≠ [] := by
    intro hnil
    have := List.drop_eq_nil_iff.1 hnil
    omega
  refine ⟨?_, ⟨fun x hx => h.all x (List.mem_of_mem_take hx), Or.inr ⟨c, cs.take (m - 1), ?_, hc⟩⟩,
    fun x hx => h.all x (List.mem_of_mem_drop hx), hdrop, ?_⟩
  · have hzero : m - digits.length = 0 := by omega
    have hempty : (digits.drop m).isEmpty = false := by simpa using hdrop
    rw [← hm, positional, if_neg (by omega)]
    simp only [Int.toNat_natCast, hzero, hempty, List.replicate_zero, List.append_nil]
    rfl
  · obtain ⟨k, rfl⟩ : ∃ k, m = k + 1 := ⟨m - 1, by omega⟩
    rw [hcons]
    rfl
  · have hexp : (-((digits.drop m).length : Nat) : Int) = e := by
      rw [List.length_drop]; omega
    rw [List.take_append_drop, h.value, hexp]

theorem numberBody_positional {negative : Bool} {rest : Text} (h : IsFigures digits n) (hr : Ends rest) :
    numberBody negative (Text.ofString (positional digits (e + digits.length)) ++ rest) =
      some (.float (.ofRank negative (Decimal.rank ⟨n, e⟩)), rest) := by
  obtain ⟨whole, fraction, htext, hpointed⟩ : ∃ whole fraction,
      positional digits (e + digits.length) = pointed whole fraction ∧ IsPointed ⟨n, e⟩ whole fraction := by
    by_cases hbelow : e + digits.length ≤ 0
    · exact ⟨_, _, positional_below h (z := (-(e + digits.length)).toNat) (by omega)⟩
    · by_cases hbehind : 0 ≤ e
      · exact ⟨_, _, positional_behind h (z := e.toNat) (by omega)⟩
      · exact ⟨_, _, positional_among h (m := (e + digits.length).toNat) (by omega) (by omega) (by omega)⟩
  rw [htext]
  exact hpointed.read hr

end

def exponentText (x : Int) : String :=
  "e" ++ (if x < 0 then "-" else "+") ++ padLeft 2 (toString x.natAbs)

/-- Zeros in front do not change the exponent. -/
theorem padLeft_digits (width n : Nat) : ∃ digits, padLeft width (toString n) = String.ofList digits ∧
    (∀ c ∈ digits, c.isDigit = true) ∧ digits ≠ [] ∧ ofDigits (ofChars digits) = n := by
  refine ⟨List.replicate (width - (toString n).length) '0' ++ Nat.toDigits 10 n, ?_, ?_, ?_, ?_⟩
  · rw [String.ofList_append, ← Nat.toString_eq_ofList_toDigits]
    rfl
  · exact isDigit_of_append isDigit_of_zeros isDigit_of_toDigits
  · simp [Nat.toDigits_ne_nil]
  · rw [ofDigits_ofChars, ofDigitChars_zeros, Nat.ofDigitChars_ten_toDigits]

theorem exponentPart_exponentText (x : Int) {rest : Text} (hr : Ends rest) :
    exponentPart (Text.ofString (exponentText x) ++ rest) = (some x, rest) := by
  obtain ⟨digits, hpad, hdigits, hne, hvalue⟩ := padLeft_digits 2 x.natAbs
  have htext : Text.ofString (exponentText x) ++ rest =
      .char 'e' :: .char (if decide (x < 0) = true then '-' else '+') :: (ofChars digits ++ rest) := by
    simp only [exponentText, hpad, Text.ofString_append, Text.ofString_ofList, List.append_assoc]
    by_cases h : x < 0
    · simp only [h, if_true, decide_true]
      rfl
    · simp only [h, if_false, decide_false, Bool.false_eq_true]
      rfl
  rw [htext, exponentPart_eq hne hdigits fun s hs => (hr s hs).1, hvalue]
  have hsigned : (if decide (x < 0) = true then -(x.natAbs : Int) else x.natAbs) = x := by
    split <;> rename_i h <;> simp only [decide_eq_true_eq] at h <;> omega
  rw [hsigned]

theorem exponentText_front {x : Int} {rest : Text} :
    ∀ s, (Text.ofString (exponentText x) ++ rest).head? = some s → isDigit s = false ∧ s ≠ .char '.' := by
  rw [exponentText, Text.ofString_append, Text.ofString_append]
  rintro _ ⟨⟩
  decide

theorem scientific_one (c : Char) (x : Int) :
    scientific numberFormat [c] x = String.ofList [c] ++ exponentText x := by
  simp only [scientific, exponentText, String.append_assoc]
  rfl

theorem scientific_many (c c' : Char) (cs : List Char) (x : Int) :
    scientific numberFormat (c :: c' :: cs) x = pointed [c] (c' :: cs) ++ exponentText x := by
  simp only [scientific, pointed, exponentText, String.append_assoc]
  rfl

theorem numberBody_scientific {negative : Bool} {digits : List Char} {n : Nat} {e : Int} {rest : Text}
    (h : IsFigures digits n) (hr : Ends rest) :
    numberBody negative (Text.ofString (scientific numberFormat digits (e + digits.length - 1)) ++ rest) =
      some (.float (.ofRank negative (Decimal.rank ⟨n, e⟩)), rest) := by
  obtain ⟨c, cs, rfl, hc⟩ := h.front
  have hwhole : IsWhole [c] := ⟨fun a ha => h.all a (by simp_all), Or.inr ⟨c, [], rfl, hc⟩⟩
  have htail := exponentPart_exponentText (e + ((c :: cs).length : Int) - 1) hr
  cases cs with
  | nil =>
    have hscale : e + (([c] : List Char).length : Int) - 1 = e := by simp
    rw [scientific_one, Text.ofString_append, Text.ofString_ofList, List.append_assoc,
      numberBody_exponent hwhole htail exponentText_front, Double.ofDecimal_eq, h.value, hscale]
  | cons c' cs =>
    have hscale : (some (e + ((c :: c' :: cs).length : Int) - 1)).getD 0 - ((c' :: cs).length : Int) = e := by
      simp only [List.length_cons, Option.getD_some]
      omega
    rw [scientific_many, Text.ofString_append, ofString_pointed, List.append_assoc, List.append_assoc,
      List.cons_append, numberBody_point hwhole (fun a ha => h.all a (by simp_all)) (by simp) htail
      fun s hs => (exponentText_front s hs).1, hscale, Double.ofDecimal_eq, List.singleton_append, h.value]

theorem numberBody_decimal {negative : Bool} {d : Decimal} {rest : Text} (hd : d.digits ≠ 0)
    (hr : Ends rest) :
    numberBody negative (Text.ofString (d.text numberFormat) ++ rest) =
      some (.float (.ofRank negative d.rank), rest) := by
  have hlist : (toString d.digits).toList = Nat.toDigits 10 d.digits := by
    rw [Nat.toString_eq_ofList_toDigits, String.toList_ofList]
  unfold Decimal.text
  simp only [hlist]
  split
  · rw [Int.sub_add_cancel]
    exact numberBody_positional (IsFigures.toDigits hd) hr
  · exact numberBody_scientific (IsFigures.toDigits hd) hr

/-! ## Numbers as tokens -/

theorem digit_cases {c : Char} (h : c.isDigit = true) :
    c = '0' ∨ c = '1' ∨ c = '2' ∨ c = '3' ∨ c = '4' ∨ c = '5' ∨ c = '6' ∨ c = '7' ∨ c = '8' ∨
      c = '9' := by
  have hc : c = Char.ofNat c.toNat := (Char.ofNat_toNat c).symm
  have hrange : 48 ≤ c.toNat ∧ c.toNat ≤ 57 := by
    simp only [Char.isDigit, Bool.and_eq_true, decide_eq_true_eq] at h
    exact h
  generalize c.toNat = n at hc hrange
  obtain ⟨h1, h2⟩ := hrange
  subst hc
  interval_cases n <;> decide

/-- A number starts with a digit. -/
theorem numberBody_starts {negative : Bool} {text rest : Text} {token : Token}
    (h : numberBody negative text = some (token, rest)) :
    ∃ c after, text = .char c :: after ∧ c.isDigit = true := by
  cases text with
  | nil => cases h
  | cons s after =>
    cases s with
    | half x => cases h
    | char c =>
      refine ⟨c, after, rfl, ?_⟩
      by_contra hc
      have hspan : (Sign.char c :: after).span isDigit = ([], .char c :: after) := by
        have : isDigit (.char c) = false := by simpa [isDigit_char] using hc
        simp [List.span_eq_takeWhile_dropWhile, this]
      have hne : c ≠ '0' := by
        rintro rfl
        exact hc rfl
      have hwhole : wholePart (.char c :: after) = ([], .char c :: after) := by
        unfold wholePart
        split
        · rename_i t ht
          cases ht
          exact absurd rfl hne
        · exact hspan
      unfold numberBody at h
      rw [hwhole] at h
      cases h

theorem nextToken_of_number {text rest : Text} {token : Token}
    (h : numberBody false text = some (token, rest)) : nextToken text = some (token, rest) := by
  obtain ⟨c, after, rfl, hc⟩ := numberBody_starts h
  rw [← h]
  rcases digit_cases hc with rfl | rfl | rfl | rfl | rfl | rfl | rfl | rfl | rfl | rfl <;> rfl

theorem nextToken_of_negative {text rest : Text} {token : Token}
    (h : numberBody true text = some (token, rest)) :
    nextToken (.char '-' :: text) = some (token, rest) := by
  obtain ⟨c, after, rfl, hc⟩ := numberBody_starts h
  rw [← h]
  rcases digit_cases hc with rfl | rfl | rfl | rfl | rfl | rfl | rfl | rfl | rfl | rfl <;> rfl

/-- The text of a number with its sign is one token. -/
theorem nextToken_signed {negative : Bool} {text rest : Text} {token : Token}
    (h : numberBody negative text = some (token, rest)) :
    nextToken (Text.ofString (if negative then "-" else "") ++ text) = some (token, rest) := by
  cases negative with
  | false => exact nextToken_of_number h
  | true => exact nextToken_of_negative h

/-- The text of a double is read as the double. -/
theorem nextToken_float {x : Double} {rest : Text} (hr : Ends rest) :
    nextToken (Text.ofString (x.text numberFormat) ++ rest) = some (.float x, rest) := by
  cases x with
  | infinite negative => cases negative <;> rfl
  | finite negative rank =>
    rw [Double.text, Text.ofString_append, List.append_assoc]
    refine nextToken_signed ?_
    have hfinite : Double.ofRank negative rank.val = .finite negative rank := dif_pos rank.isLt
    by_cases hz : rank.val = 0
    · have hzero : IsPointed ⟨0, 0⟩ ['0'] ['0'] :=
        ⟨isWhole_zero, isDigit_zero, by simp, (Decimal.rank_zero _).trans (Decimal.rank_zero _).symm⟩
      have hread := @IsPointed.read negative _ _ _ _ hzero hr
      rw [Decimal.rank_zero] at hread
      rw [if_pos hz, ← hfinite, hz]
      exact hread
    · rw [if_neg hz, numberBody_decimal (Double.shortest_digits_ne_zero rank.isLt hz) hr,
        Double.shortest_rank rank.isLt, hfinite]

/-- The number has no more digits than are read. -/
def Short (i : Int) : Prop := (Nat.toDigits 10 i.natAbs).length ≤ Text.mostDigits

/-- The text of a whole number of not too many digits is read as the number. -/
theorem nextToken_int {i : Int} {rest : Text} (hi : Short i) (hr : Ends rest) :
    nextToken (Text.ofString (toString i) ++ rest) = some (.int i, rest) := by
  have htext : toString i = (if decide (i < 0) = true then "-" else "") ++
      String.ofList (Nat.toDigits 10 i.natAbs) := by
    rw [← Nat.toString_eq_ofList_toDigits]
    cases i with
    | ofNat n => rfl
    | negSucc n =>
      have hneg : decide (Int.negSucc n < 0) = true := by simp [Int.negSucc_lt_zero]
      rw [hneg]
      rfl
  rw [htext, Text.ofString_append, List.append_assoc, Text.ofString_ofList]
  refine nextToken_signed ?_
  rw [numberBody_whole (.toDigits _) hr]
  have hlength : ¬ Text.mostDigits < (ofChars (Nat.toDigits 10 i.natAbs)).length := by
    have : (ofChars (Nat.toDigits 10 i.natAbs)).length = (Nat.toDigits 10 i.natAbs).length := by
      simp [ofChars]
    have := hi
    unfold Short at this
    omega
  have hvalue : (if decide (i < 0) = true then
      -(ofDigits (ofChars (Nat.toDigits 10 i.natAbs)) : Int)
      else ofDigits (ofChars (Nat.toDigits 10 i.natAbs))) = i := by
    rw [ofDigits_ofChars, Nat.ofDigitChars_ten_toDigits]
    split <;> rename_i h <;> simp only [decide_eq_true_eq] at h <;> omega
  rw [wholeToken, if_neg hlength, hvalue]

end Json

end TreeDelta
