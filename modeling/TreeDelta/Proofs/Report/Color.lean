import TreeDelta.Proofs.Report.Listing
import TreeDelta.Proofs.Report.Parts
/-!
# Reports in colour and without

Without its escape sequences (`Text.uncolored`) a report in colour is the report without colour, unless a
sequence is `Crowded`: it fits on the line behind the plain mark, but not behind the coloured one, whose
escape sequence counts for the width. `uncolored_delta` says that this is the only difference, and that it
always shows.

Both reports are followed part by part. `Sheds` is what a text comes to whatever stands behind it, and
`Shows` compares the two reports together with all that stands behind: once they differ, what follows must
not make up for it. Only an empty sequence needs that, since in colour nothing is printed for it; there
the next colon, or the next mark, tells the two texts apart (`Clear`).
-/

namespace TreeDelta

namespace Text

/-! ## Escape sequences of colours -/

/-- The sign that starts an escape sequence. -/
def escapeSign : Sign := .char '\x1b'

/-- A sign between the bracket and the end of an escape sequence. -/
def isParameter (s : Sign) : Bool := (char? s).any fun c => c.isDigit || c = ';'

/-- How many signs the escape sequence takes that a text starts with; none if it starts otherwise. -/
def escapeLength (text : Text) : Nat :=
  match text with
  | first :: .char '[' :: rest =>
    let parameters := rest.takeWhile isParameter
    if first = escapeSign ∧ (rest.drop parameters.length).head? = some (.char 'm') then
      parameters.length + 3
    else 0
  | _ => 0

/-- A text without its first signs, so many, and without the escape sequences behind them. -/
def uncoloredAfter : Nat → Text → Text
  | _, [] => []
  | n + 1, _ :: rest => uncoloredAfter n rest
  | 0, s :: rest =>
    match escapeLength (s :: rest) with
    | 0 => s :: uncoloredAfter 0 rest
    | n + 1 => uncoloredAfter n rest

/-- A text without its escape sequences. -/
def uncolored (text : Text) : Text := uncoloredAfter 0 text

variable {text a b bare bare' : Text}

theorem escapeLength_of_ne {s : Sign} (h : s ≠ escapeSign) (rest : Text) :
    escapeLength (s :: rest) = 0 := by
  unfold escapeLength
  split
  · rename_i first tail heq
    obtain ⟨rfl, -⟩ := List.cons.inj heq
    exact if_neg fun both => h both.1
  · rfl

theorem uncolored_append_left (h : escapeSign ∉ a) (b : Text) : uncolored (a ++ b) = a ++ uncolored b := by
  induction a with
  | nil => rfl
  | cons s a ih =>
    rw [List.mem_cons, not_or] at h
    have ih := ih h.2
    rw [uncolored] at ih
    rw [List.cons_append, uncolored, uncoloredAfter, escapeLength_of_ne (Ne.symm h.1), ih]
    rfl

theorem uncoloredAfter_append (a b : Text) : uncoloredAfter a.length (a ++ b) = uncolored b := by
  induction a with
  | nil => rfl
  | cons s a ih => exact ih

/-- The text comes to `bare` without its escape sequences, whatever follows it. -/
def Sheds (text bare : Text) : Prop := ∀ rest, uncolored (text ++ rest) = bare ++ uncolored rest

theorem sheds_self (h : escapeSign ∉ text) : Sheds text text := uncolored_append_left h

theorem Sheds.append (ha : Sheds a bare) (hb : Sheds b bare') : Sheds (a ++ b) (bare ++ bare') := by
  intro rest
  rw [List.append_assoc, ha, hb, List.append_assoc]

theorem Sheds.eq (h : Sheds text bare) : uncolored text = bare := by
  have := h []
  rwa [List.append_nil, show uncolored [] = [] from rfl, List.append_nil] at this

theorem Sheds.joined {α : Type} {xs : List α} {f g : α → Text} (h : ∀ x ∈ xs, Sheds (f x) (g x)) :
    Sheds (Text.joined (xs.map f)) (Text.joined (xs.map g)) := by
  induction xs with
  | nil => exact fun rest => rfl
  | cons x rest ih =>
    rw [List.forall_mem_cons] at h
    exact h.1.append (ih h.2)

/-- The escape sequence of a display attribute is nothing. -/
theorem sheds_escape (code : Nat) : Sheds (Report.escape code) "" := by
  intro rest
  have digits : ∀ s ∈ ofString (toString code), isParameter s = true := by
    intro s hs
    obtain ⟨c, hc, rfl⟩ := List.mem_map.1 hs
    simp [isParameter, char?, Report.isDigit_of_mem_toString hc]
  have span : (ofString (toString code) ++ .char 'm' :: rest).takeWhile isParameter =
      ofString (toString code) := by
    rw [List.takeWhile_append_of_pos digits, List.takeWhile_cons_of_neg (by decide), List.append_nil]
  have sequence : Report.escape code ++ rest =
      escapeSign :: .char '[' :: (ofString (toString code) ++ .char 'm' :: rest) := by
    simp [Report.escape, escapeSign, ofString, ofChars]
  have length : escapeLength (escapeSign :: .char '[' :: (ofString (toString code) ++ .char 'm' :: rest)) =
      (ofString (toString code)).length + 2 + 1 := by
    simp only [escapeLength, span, List.drop_left]
    simp
  have dropped := uncoloredAfter_append (.char '[' :: ofString (toString code) ++ [.char 'm']) rest
  rw [List.length_append, List.length_cons, List.append_assoc] at dropped
  rw [sequence, uncolored, uncoloredAfter, length]
  exact dropped

end Text

namespace Report

open Text

variable {snip : Bool} {mark : Sign} {colored plain label text : Text} {v w : Value}

/-! ## Two reports side by side -/

/-- A lead in colour and the same lead without; what they have in common starts with the mark. -/
structure Paired (mark : Sign) (colored plain : Text) : Prop where
  sheds : Sheds colored plain
  longer : plain.length ≤ colored.length
  start : plain.head? = some mark
  clean : .char ':' ∉ plain

/-- Somewhere among the contents behind the lead a sequence is printed in its layout without colour, and
item by item in colour, as the escape sequences count for the width of the lead. -/
inductive Crowded : Text → Text → Value → Prop where
  | here {colored plain : Text} {v : Value} (fits : OnOneLine plain v)
      (misfits : ¬ OnOneLine colored v) : Crowded colored plain v
  | part {colored plain label : Text} {v w : Value} (apart : ¬ OnOneLine plain v)
      (mem : (label, w) ∈ partsOf v) (inner : Crowded (colored ++ indentation) (plain ++ indentation) w) :
      Crowded colored plain v

/-- Texts that can stand behind a value: the first does not start with the mark, or both have the same
in front of a colon. -/
def Clear (mark : Sign) (after' after : Text) : Prop :=
  after'.head? ≠ some mark ∨
    ∃ s rest' rest, after' = s ++ .char ':' :: rest' ∧ after = s ++ .char ':' :: rest

/-- Without its escape sequences the coloured text is the plain one exactly if `C`, and this can be told
from what stands behind them if that is `R`. -/
def Shows (R : Text → Text → Prop) (C : Prop) (colored plain : Text) : Prop :=
  ∃ bare, Sheds colored bare ∧
    ∀ after' after, R after' after → (bare ++ after' = plain ++ after ↔ C ∧ after' = after)

variable {R S : Text → Text → Prop} {C D : Prop}

theorem Paired.indent (h : Paired mark colored plain) :
    Paired mark (colored ++ indentation) (plain ++ indentation) where
  sheds := h.sheds.append (sheds_self (by decide))
  longer := by simpa using h.longer
  start := by rw [List.head?_append, h.start]; rfl
  clean := by
    rw [List.mem_append, not_or]
    exact ⟨h.clean, by decide⟩

/-- The first colon tells where the common part ends. -/
theorem Clear.ne {after' after u : Text} (h : Clear mark after' after) (start : u.head? = some mark)
    (clean : .char ':' ∉ u) : after' ≠ u ++ after := by
  rintro rfl
  rcases h with h | ⟨s, rest', rest, he, rfl⟩
  · rw [List.head?_append, start] at h
    exact h rfl
  · have first := congrArg (List.idxOf (Sign.char ':')) he
    rw [List.idxOf_append_of_notMem clean, List.idxOf_append, List.idxOf_append] at first
    simp only [List.idxOf_cons_self] at first
    obtain rfl : u = [] := List.length_eq_zero_iff.1 (by omega)
    cases start

theorem Shows.congr (h : Shows R C colored plain) (hd : C ↔ D) : Shows R D colored plain := by
  obtain ⟨bare, hs, hc⟩ := h
  exact ⟨bare, hs, fun after' after hr => (hc after' after hr).trans (and_congr_left' hd)⟩

theorem shows_of_sheds (h : Sheds colored plain) : Shows R True colored plain :=
  ⟨plain, h, fun after' after _ => by simp⟩

theorem Shows.append {colored' plain' : Text} (h : Shows R C colored plain)
    (h' : Shows S D colored' plain')
    (behind : ∀ bare after' after, Sheds colored' bare → S after' after →
      R (bare ++ after') (plain' ++ after)) :
    Shows S (C ∧ D) (colored ++ colored') (plain ++ plain') := by
  obtain ⟨bare, hs, hc⟩ := h
  obtain ⟨bare', hs', hd⟩ := h'
  refine ⟨bare ++ bare', hs.append hs', fun after' after hr => ?_⟩
  rw [List.append_assoc, List.append_assoc, hc _ _ (behind bare' after' after hs' hr), hd _ _ hr, and_assoc]

/-! ## Texts -/

theorem escape_not_mem_hexDigits (width n : Nat) : '\x1b' ∉ hexDigits width n := by
  have digitChar : ∀ n < 16, n.digitChar ≠ '\x1b' := by decide
  have digits : '\x1b' ∉ Nat.toDigits 16 n := by
    induction n using Nat.strongRecOn with
    | ind n ih =>
      by_cases h : n < 16
      · rw [Nat.toDigits_of_lt_base h, List.mem_singleton]
        exact (digitChar n h).symm
      · rw [Nat.toDigits_of_base_le (by omega) (by omega), List.mem_append, not_or, List.mem_singleton]
        exact ⟨ih _ (by omega), (digitChar _ (by omega)).symm⟩
  simp [hexDigits, digits]

theorem escape_not_mem_snipped (h : escapeSign ∉ text) : escapeSign ∉ snipped text := by
  unfold snipped
  split
  · rename_i digest hd
    split
    · obtain ⟨bytes, -, rfl⟩ := Option.map_eq_some_iff.1 hd
      have hdigest : escapeSign ∉ ofChars ((MD5.digest bytes).flatMap fun byte => hexDigits 2 byte.toNat) := by
        simp [ofChars, escapeSign, escape_not_mem_hexDigits]
      simp only [List.mem_append, not_or]
      refine ⟨⟨⟨?_, by decide⟩, ?_⟩, by decide⟩
      · exact fun hm => h (List.mem_of_mem_take hm)
      · exact fun hm => hdigest (List.mem_of_mem_take hm)
    · exact h
  · exact h

/-- Neither the text that a value is nor its layout has an escape sequence. -/
def Bare (v : Value) : Prop := (∀ s, v = .str s → escapeSign ∉ s) ∧ escapeSign ∉ v.laidOut

theorem Bare.scalar (h : Bare v) : escapeSign ∉ scalar snip v := by
  cases v with
  | str s =>
    rw [Report.scalar]
    split
    · exact escape_not_mem_snipped (h.1 s rfl)
    · exact h.1 s rfl
  | _ => exact h.2

theorem escape_not_mem_linesKept (h : escapeSign ∉ text) : ∀ line ∈ linesKept text, escapeSign ∉ line := by
  intro line hl hs
  rw [← linesKept_flatten text] at h
  exact h (List.mem_flatten.2 ⟨line, hl, hs⟩)

theorem sheds_labelLine (h : Sheds colored plain) (hl : escapeSign ∉ label) :
    Sheds (labelLine colored label) (labelLine plain label) :=
  (h.append (sheds_self hl)).append (sheds_self (by decide))

theorem sheds_labelled (h : Sheds colored plain) (hl : escapeSign ∉ label) (ht : escapeSign ∉ text) :
    Sheds (labelled colored label text) (labelled plain label text) := by
  unfold labelled
  split
  · refine (sheds_labelLine h hl).append (.joined fun line hline => ?_)
    obtain ⟨kept, hk, rfl⟩ := List.mem_map.1 hline
    have bare : escapeSign ∉ kept.filter (!isLineEnd ·) :=
      fun hm => escape_not_mem_linesKept ht kept hk (List.mem_filter.1 hm).1
    exact ((h.append (sheds_self (by decide))).append (sheds_self bare)).append (sheds_self (by decide))
  · exact (((h.append (sheds_self hl)).append (sheds_self (by decide))).append (sheds_self ht)).append
      (sheds_self (by decide))

theorem sheds_lines (h : Sheds colored plain) (ht : escapeSign ∉ text) :
    Sheds (lines colored text) (lines plain text) := by
  unfold lines
  refine (Sheds.joined fun line hl => h.append (sheds_self (escape_not_mem_linesKept ht line hl))).append
    (sheds_self ?_)
  split <;> decide

/-! ## Containers -/

theorem crowded_parts (h : ¬ OnOneLine plain v) : Crowded colored plain v ↔
    ∃ part ∈ partsOf v, Crowded (colored ++ indentation) (plain ++ indentation) part.2 := by
  constructor
  · rintro (⟨fits, -⟩ | ⟨-, mem, inner⟩)
    · exact absurd fits h
    · exact ⟨_, mem, inner⟩
  · rintro ⟨part, mem, inner⟩
    exact .part h mem inner

theorem not_crowded_of_fits (h : OnOneLine plain v) (h' : OnOneLine colored v) :
    ¬ Crowded colored plain v := by
  rintro (⟨-, misfits⟩ | ⟨apart, -, -⟩)
  · exact misfits h'
  · exact apart h

theorem not_crowded_of_scalar (h : ¬ IsContainer v) : ¬ Crowded colored plain v := by
  rintro (⟨fits, -⟩ | ⟨-, mem, -⟩)
  · exact h (.inr fits.1)
  · rw [partsOf_of_scalar h] at mem
    cases mem

/-- A shorter lead leaves more room. -/
theorem Paired.fits (hp : Paired mark colored plain) (h : OnOneLine colored v) : OnOneLine plain v := by
  have := hp.longer
  simp only [OnOneLine, inOneLine, Bool.and_eq_true, decide_eq_true_eq] at h ⊢
  exact ⟨h.1, by omega, h.2.2⟩

theorem item_start (snip : Bool) (lead label : Text) (v : Value) :
    ∃ rest, item snip lead label v = lead ++ label ++ .char ':' :: rest := by
  by_cases h : IsContainer v
  · rw [item_of_container h]
    exact ⟨.char '\n' :: contents snip (lead ++ indentation) v, by simp [labelLine, ofString, ofChars]⟩
  · rw [item_of_scalar h, labelled]
    split
    · exact ⟨.char '\n' :: _, by simp [labelLine, ofString, ofChars]; rfl⟩
    · exact ⟨.char ' ' :: (scalar snip v ++ "\n"), by simp [ofString, ofChars]⟩

theorem printed_start (snip : Bool) (lead : Text) (part : Text × Value) (parts : List (Text × Value)) :
    ∃ rest, printed snip lead (part :: parts) = lead ++ part.1 ++ .char ':' :: rest := by
  obtain ⟨rest, h⟩ := item_start snip lead part.1 part.2
  exact ⟨rest ++ printed snip lead parts, by simp [printed, joined, h]⟩

/-- What parts in colour start with, without the colour. -/
theorem bare_start (hp : Paired mark colored plain) {part : Text × Value} {parts : List (Text × Value)}
    (hl : escapeSign ∉ part.1) {bare : Text} (h : Sheds (printed snip colored (part :: parts)) bare) :
    ∃ rest, bare = plain ++ part.1 ++ .char ':' :: rest := by
  obtain ⟨rest, hr⟩ := printed_start snip colored part parts
  have start := (hp.sheds.append (sheds_self hl)).append (sheds_self (by decide : escapeSign ∉ [.char ':'])) rest
  refine ⟨uncolored rest, ?_⟩
  rw [← h.eq, hr]
  simpa using start

theorem shows_item (hp : Paired mark colored plain) (hl : escapeSign ∉ label) (hv : Bare v)
    (below : Shows (Clear mark) (¬ Crowded (colored ++ indentation) (plain ++ indentation) v)
      (contents snip (colored ++ indentation) v) (contents snip (plain ++ indentation) v)) :
    Shows (Clear mark) (¬ Crowded (colored ++ indentation) (plain ++ indentation) v)
      (item snip colored label v) (item snip plain label v) := by
  by_cases hc : IsContainer v
  · rw [item_of_container hc, item_of_container hc]
    have line := shows_of_sheds (R := fun _ _ => True) (sheds_labelLine hp.sheds hl)
    exact (line.append below fun _ _ _ _ _ => trivial).congr (by simp)
  · rw [item_of_scalar hc, item_of_scalar hc]
    exact (shows_of_sheds (sheds_labelled hp.sheds hl hv.scalar)).congr
      (iff_of_true trivial (not_crowded_of_scalar hc))

theorem shows_printed (hp : Paired mark colored plain) {D : Value → Prop} {parts : List (Text × Value)}
    (h : ∀ part ∈ parts, escapeSign ∉ part.1 ∧
      Shows (Clear mark) (D part.2) (item snip colored part.1 part.2) (item snip plain part.1 part.2)) :
    Shows (Clear mark) (∀ part ∈ parts, D part.2) (printed snip colored parts)
      (printed snip plain parts) := by
  induction parts with
  | nil => exact (shows_of_sheds (sheds_self (by simp : escapeSign ∉ []))).congr (by simp)
  | cons part rest ih =>
    obtain ⟨⟨-, first⟩, hrest⟩ := List.forall_mem_cons.1 h
    refine (first.append (ih hrest) fun bare after' after hs hclear => ?_).congr
      (List.forall_mem_cons (p := fun part : Text × Value => D part.2)).symm
    -- what follows an item is the next one, with its label, or what follows the whole
    cases rest with
    | nil =>
      obtain rfl : bare = [] := hs.eq.symm
      exact hclear
    | cons next more =>
      obtain ⟨y', hy'⟩ := bare_start hp (hrest next (by simp)).1 hs
      obtain ⟨y, hy⟩ := printed_start snip plain next more
      exact .inr ⟨plain ++ next.1, y' ++ after', y ++ after, by simp [hy'], by simp [hy]⟩

theorem head?_laidOut {items : List Value} (h : v.sequence? = some items) :
    ∃ s, v.laidOut.head? = some s ∧ s ≠ .char 'i' := by
  unfold Value.laidOut Value.layout
  cases v with
  | list id items =>
    dsimp only
    split <;> simp [Value.text, Show.bracketed, Layout.bracketed, ofString, ofChars]
  | tuple items =>
    dsimp only
    split
    · rw [Value.text]
      unfold Show.tuple
      split <;> simp [Show.bracketed, ofString, ofChars]
    · simp [Layout.bracketed, ofString, ofChars]
  | op | descend => simp [Value.text, Show.record, Show.bracketed, ofString, ofChars]
  | _ => cases h

/-- Where the layout fits without colour only, the two texts part behind the lead. -/
theorem parts_ne_layout (hp : Paired mark colored plain) (fits : OnOneLine plain v)
    (labels : ∀ part ∈ partsOf v, escapeSign ∉ part.1) {bare after' after : Text}
    (hs : Sheds (printed snip colored (partsOf v)) bare) (hclear : Clear mark after' after) :
    bare ++ after' ≠ plain ++ v.laidOut ++ "\n" ++ after := by
  obtain ⟨items, hi⟩ := Option.isSome_iff_exists.1 fits.1
  cases hparts : partsOf v with
  | nil =>
    -- nothing stands for the empty sequence in colour, and nothing makes up for its layout
    rw [hparts] at hs
    obtain rfl : bare = [] := hs.eq.symm
    refine hclear.ne ?_ ?_
    · rw [List.append_assoc, List.head?_append, hp.start]
      rfl
    · rcases laidOut_of_no_parts fits.1 hparts with e | e <;>
        simp [e, hp.clean, ofString, ofChars]
  | cons part rest =>
    -- a label starts otherwise than any layout
    rw [hparts] at hs
    obtain ⟨tail, rfl⟩ := bare_start hp (labels part (by simp [hparts])) hs
    obtain ⟨_, _, hf, -⟩ | ⟨-, i, -, -, hlabel⟩ := mem_partsOf.1 (hparts ▸ List.mem_cons_self : part ∈ _)
    · rw [fields?_of_sequence hi] at hf
      cases hf
    · obtain ⟨s, hs, hne⟩ := head?_laidOut hi
      intro h
      simp only [List.append_assoc, List.append_cancel_left_eq] at h
      have first := congrArg List.head? h
      have label : (numberLabel i).head? = some (.char 'i') := rfl
      simp only [hlabel, List.head?_append, label, hs, Option.some_or, Option.some.injEq] at first
      exact hne first.symm

theorem shows_contents (hv : Everywhere (fun k => escapeSign ∉ k.plain) Bare v) :
    ∀ colored plain, Paired mark colored plain →
      Shows (Clear mark) (¬ Crowded colored plain v) (contents snip colored v)
        (contents snip plain v) := by
  refine hv.induction fun v bare below => ?_
  intro colored plain hp
  have labels : ∀ part ∈ partsOf v, escapeSign ∉ part.1 := fun part mem =>
    not_mem_label (by decide) (by decide) (below part.1 part.2 mem).1
  have parts : Shows (Clear mark)
      (∀ part ∈ partsOf v, ¬ Crowded (colored ++ indentation) (plain ++ indentation) part.2)
      (printed snip colored (partsOf v)) (printed snip plain (partsOf v)) := by
    refine shows_printed (D := fun w => ¬ Crowded (colored ++ indentation) (plain ++ indentation) w) hp
      fun part mem => ⟨labels part mem, ?_⟩
    obtain ⟨-, hw, ih⟩ := below part.1 part.2 mem
    exact shows_item hp (labels part mem) hw (ih _ _ hp.indent)
  unfold contents
  by_cases hplain : OnOneLine plain v
  · rw [if_pos hplain]
    by_cases hcolored : OnOneLine colored v
    · rw [if_pos hcolored]
      exact (shows_of_sheds ((hp.sheds.append (sheds_self bare.2)).append (sheds_self (by decide)))).congr
        (iff_of_true trivial (not_crowded_of_fits hplain hcolored))
    · rw [if_neg hcolored]
      obtain ⟨r, hs, -⟩ := parts
      refine ⟨r, hs, fun after' after hclear => ?_⟩
      exact iff_of_false (parts_ne_layout hp hplain labels hs hclear)
        fun h => h.1 (.here hplain hcolored)
  · rw [if_neg hplain, if_neg (mt hp.fits hplain)]
    refine parts.congr ?_
    rw [crowded_parts hplain]
    simp

/-! ## Values and changes -/

theorem not_crowded_of_no_parts (short : colored.length < 76) (h : partsOf v = []) : ¬ Crowded colored plain v := by
  rintro (⟨fits, misfits⟩ | ⟨-, mem, -⟩)
  · refine misfits ⟨fits.1, ?_⟩
    have room := fits.2
    simp only [inOneLine, width, Bool.and_eq_true] at room ⊢
    refine ⟨?_, room.2⟩
    rcases laidOut_of_no_parts fits.1 h with e | e <;> simp [e, ofString, ofChars] <;> omega
  · rw [h] at mem
    cases mem

theorem shows_value (snip : Bool) (short : colored.length < 76) (hp : Paired mark colored plain)
    (hv : Everywhere (fun k => escapeSign ∉ k.plain) Bare v) :
    Shows (Clear mark) (¬ Crowded colored plain v) (value snip colored v) (value snip plain v) := by
  obtain ⟨-, he⟩ | ⟨hf, he⟩ | ⟨-, hn, he⟩ := value_cases v
  · rw [he, he]
    exact shows_contents hv colored plain hp
  · have hn : partsOf v = [] := by simp [partsOf, hf]
    rw [he, he]
    exact (shows_of_sheds (hp.sheds.append (sheds_self (by decide)))).congr
      (iff_of_true trivial (not_crowded_of_no_parts short hn))
  · rw [he, he]
    exact (shows_of_sheds (sheds_lines hp.sheds hv.here.scalar)).congr
      (iff_of_true trivial (not_crowded_of_no_parts short hn))

/-- A value is printed behind its lead, or as a line feed alone. -/
theorem value_start (snip : Bool) (lead : Text) (v : Value) :
    (∃ rest, value snip lead v = lead ++ rest) ∨ ∃ rest, value snip lead v = .char '\n' :: rest := by
  obtain ⟨hne, he⟩ | ⟨-, he⟩ | ⟨-, -, he⟩ := value_cases v
  · obtain ⟨part, rest, hp⟩ := List.exists_cons_of_ne_nil hne
    rw [he, contents, hp]
    split
    · exact .inl ⟨v.laidOut ++ "\n", by simp⟩
    · obtain ⟨tail, ht⟩ := printed_start snip lead part rest
      exact .inl ⟨part.1 ++ .char ':' :: tail, by simp [ht]⟩
  · exact .inl ⟨_, he snip lead⟩
  · rw [he, lines]
    cases hk : linesKept (scalar snip v) with
    | nil =>
      have : scalar snip v = [] := by rw [← linesKept_flatten (scalar snip v), hk]; rfl
      exact .inr ⟨[], by simp [this, joined, ofString, ofChars]⟩
    | cons line rest => exact .inl ⟨line ++ _, by simp [joined]; rfl⟩

/-! ## Palettes -/

/-- The escape sequence of a display attribute, which is a number of up to three digits. -/
def IsEscape (text : Text) : Prop := ∃ code < 1000, text = escape code

/-- Every text of the palette is an escape sequence. -/
structure Palette.Escapes (palette : Palette) : Prop where
  red : IsEscape palette.red
  green : IsEscape palette.green
  blue : IsEscape palette.blue
  bright : IsEscape palette.bright
  reset : IsEscape palette.reset

theorem standard_escapes : Palette.standard.Escapes :=
  ⟨⟨31, by decide, rfl⟩, ⟨32, by decide, rfl⟩, ⟨34, by decide, rfl⟩, ⟨1, by decide, rfl⟩,
    ⟨0, by decide, rfl⟩⟩

theorem IsEscape.sheds (h : IsEscape text) : Sheds text "" := by
  obtain ⟨code, -, rfl⟩ := h
  exact sheds_escape code

theorem IsEscape.length_le (h : IsEscape text) : text.length ≤ 6 := by
  obtain ⟨code, hcode, rfl⟩ := h
  have digits : (toString code).toList.length ≤ 3 := by
    rw [show (toString code).toList = Nat.toDigits 10 code by simp [toString, Nat.repr]]
    exact (Nat.length_toDigits_le_iff (by decide) (by decide)).2 hcode
  simp only [escape, ofString, ofChars, List.length_append, List.length_map] at digits ⊢
  have ends : "\x1b[".toList.length + "m".toList.length = 3 := by decide
  omega

section
variable {palette : Palette} (hp : palette.Escapes)
include hp

theorem paired_remove : Paired (.char '-') (Marks.colored palette).remove Marks.plain.remove where
  sheds := hp.red.sheds.append (sheds_self (by decide))
  longer := by simp [Marks.colored]
  start := rfl
  clean := by decide

theorem paired_add : Paired (.char '+') (Marks.colored palette).add Marks.plain.add where
  sheds := hp.green.sheds.append (sheds_self (by decide))
  longer := by simp [Marks.colored]
  start := rfl
  clean := by decide

theorem length_remove_lt : (Marks.colored palette).remove.length < 76 := by
  have := hp.red.length_le
  have : Marks.plain.remove.length = 3 := rfl
  simp only [Marks.colored, List.length_append]
  omega

theorem length_add_lt : (Marks.colored palette).add.length < 76 := by
  have := hp.green.length_le
  have : Marks.plain.add.length = 3 := rfl
  simp only [Marks.colored, List.length_append]
  omega

theorem sheds_headline {action path : Text} (ha : escapeSign ∉ action) (hpath : escapeSign ∉ path) :
    Sheds (headline (.of palette true snip) action path)
      (headline (.of palette false snip) action path) := by
  have info : Sheds (Marks.colored palette).info Marks.plain.info :=
    (hp.blue.sheds.append hp.bright.sheds).append (sheds_self (by decide))
  have action := (info.append (sheds_self ha)).append (sheds_self (by decide : escapeSign ∉ ofString " "))
  have path := (action.append (sheds_self hpath)).append (sheds_self (by decide : escapeSign ∉ ofString ":"))
  exact (path.append hp.reset.sheds).append (sheds_self (by decide : escapeSign ∉ ofString "\n"))

end

theorem escape_not_mem_typeChange (old new : Value) : escapeSign ∉ "changed" ++ typeChange old new := by
  have name : ∀ type : TypeName, escapeSign ∉ type.text := by
    intro type
    cases type <;> decide
  unfold typeChange
  split
  · simp only [List.mem_append, not_or]
    exact ⟨by decide, ⟨⟨⟨by decide, name _⟩, by decide⟩, name _⟩, by decide⟩
  · decide

/-- A value that the block of a change shows is crowded behind its mark. -/
def CrowdedChange (palette : Palette) (c : Change) : Prop :=
  (c.kind? ≠ some .add ∧ Crowded (Marks.colored palette).remove Marks.plain.remove c.old) ∨
    (c.kind? ≠ some .remove ∧ Crowded (Marks.colored palette).add Marks.plain.add c.new)

/-- A change of a known kind, with nothing in its values that has an escape sequence. -/
structure BareChange (c : Change) : Prop where
  known : c.kind?.isSome = true
  old : Everywhere (fun k => escapeSign ∉ k.plain) Bare c.old
  new : Everywhere (fun k => escapeSign ∉ k.plain) Bare c.new

/-- What ends a block. -/
theorem shows_ending {palette : Palette} (hp : palette.Escapes) :
    Shows R True ("\n" ++ (Marks.colored palette).reset) ("\n" ++ Marks.plain.reset) :=
  shows_of_sheds ((sheds_self (by decide)).append hp.reset.sheds)

/-- A text can stand behind a value if it starts with a line feed. -/
theorem clear_of_lineFeed {text bare after' after : Text} (hs : Sheds (.char '\n' :: text) bare)
    (hm : mark ≠ .char '\n') : Clear mark (bare ++ after') after := by
  have start := uncolored_append_left (a := [.char '\n']) (by decide) text
  rw [List.singleton_append, hs.eq] at start
  exact .inl (by simp [start, Ne.symm hm])

/-- The new value can stand behind the old one. -/
theorem clear_of_added {palette : Palette} (hp : palette.Escapes) {bare text after' after : Text}
    (hs : Sheds (value snip (Marks.colored palette).add v ++ text) bare) :
    Clear (.char '-') (bare ++ after') after := by
  obtain ⟨rest, hr⟩ | ⟨rest, hr⟩ := value_start snip (Marks.colored palette).add v
  · have start := (paired_add hp).sheds (rest ++ text)
    rw [← List.append_assoc, ← hr, hs.eq] at start
    refine .inl ?_
    rw [start, List.append_assoc, List.head?_append, (paired_add hp).start, Option.some_or]
    simp
  · rw [hr] at hs
    exact clear_of_lineFeed hs (by decide)

/-- The blocks of one change side by side. -/
theorem shows_block {palette : Palette} (hp : palette.Escapes) (snip : Bool) {path : Text} {c : Change}
    (hpath : escapeSign ∉ path) (hc : BareChange c) :
    ∃ colored plain, block (.of palette true snip) path c = .ok colored ∧
      block (.of palette false snip) path c = .ok plain ∧
      Shows (fun _ _ => True) (¬ CrowdedChange palette c) colored plain := by
  obtain ⟨kind, hk⟩ := Option.isSome_iff_exists.1 hc.known
  have old := shows_value snip (length_remove_lt hp) (paired_remove hp) hc.old
  have new := shows_value snip (length_add_lt hp) (paired_add hp) hc.new
  have added := new.append (S := fun _ _ => True) (shows_ending hp)
    fun _ _ _ hs _ => clear_of_lineFeed hs (by decide)
  have removed := old.append (S := fun _ _ => True) (shows_ending hp)
    fun _ _ _ hs _ => clear_of_lineFeed hs (by decide)
  have both := old.append added fun _ _ _ hs _ => clear_of_added hp hs
  have head : ∀ {action : Text}, escapeSign ∉ action → Shows (fun _ _ => True) True
      (headline (.of palette true snip) action path) (headline (.of palette false snip) action path) :=
    fun ha => shows_of_sheds (sheds_headline hp ha hpath)
  simp only [block, hk, CrowdedChange]
  cases kind with
  | add =>
    refine ⟨_, _, rfl, rfl, ?_⟩
    rw [List.append_assoc, List.append_assoc]
    exact ((head (by decide)).append added fun _ _ _ _ _ => trivial).congr (by simp)
  | remove =>
    refine ⟨_, _, rfl, rfl, ?_⟩
    rw [List.append_assoc, List.append_assoc]
    exact ((head (by decide)).append removed fun _ _ _ _ _ => trivial).congr (by simp)
  | change =>
    refine ⟨_, _, rfl, rfl, ?_⟩
    simp only [List.append_assoc]
    exact ((head (escape_not_mem_typeChange c.old c.new)).append both fun _ _ _ _ _ => trivial).congr
      (by simp)

/-! ## Deltas -/

theorem escape_not_mem_pathText {start : Text} {path : List Key} (hs : escapeSign ∉ start)
    (hp : ∀ k ∈ path, escapeSign ∉ k.plain) : escapeSign ∉ pathText start path := by
  have keys : escapeSign ∉ Text.joined (path.map fun k => "/" ++ k.plain) := by
    intro hm
    obtain ⟨_, hpart, hm⟩ := List.mem_flatten.1 hm
    obtain ⟨k, hk, rfl⟩ := List.mem_map.1 hpart
    rcases List.mem_append.1 hm with hm | hm
    · exact absurd hm (by decide)
    · exact hp k hk hm
  rw [pathText]
  split
  · decide
  · simp [hs, keys]

theorem shows_blocks {palette : Palette} (hp : palette.Escapes) (snip : Bool) {start : Text}
    {nodes : List (List Key × Change)} (hs : escapeSign ∉ start)
    (h : ∀ p c, (p, c) ∈ nodes → (∀ k ∈ p, escapeSign ∉ k.plain) ∧ BareChange c) :
    ∃ colored plain, blocks (.of palette true snip) start (Delta.stepsOver nodes) = (colored, none) ∧
      blocks (.of palette false snip) start (Delta.stepsOver nodes) = (plain, none) ∧
      Shows (fun _ _ => True) (∀ p c, (p, c) ∈ nodes → ¬ CrowdedChange palette c) colored plain := by
  induction nodes with
  | nil => exact ⟨[], [], rfl, rfl, (shows_of_sheds fun _ => rfl).congr (by simp)⟩
  | cons node rest ih =>
    obtain ⟨p, c⟩ := node
    obtain ⟨hkeys, hc⟩ := h p c (by simp)
    obtain ⟨colored, plain, ec, ep, here⟩ := shows_block hp snip (escape_not_mem_pathText hs hkeys) hc
    obtain ⟨colored', plain', ec', ep', below⟩ := ih fun q d hq => h q d (by simp [hq])
    refine ⟨colored ++ colored', plain ++ plain', ?_, ?_, ?_⟩
    · rw [Delta.stepsOver] at ec' ⊢
      simp only [List.map_cons, blocks, Except.bind, ec, ec']
    · rw [Delta.stepsOver] at ep' ⊢
      simp only [List.map_cons, blocks, Except.bind, ep, ep']
    · refine (here.append below fun _ _ _ _ _ => trivial).congr ?_
      simp only [List.mem_cons, Prod.mk.injEq]
      constructor
      · rintro ⟨first, others⟩ q d (⟨rfl, rfl⟩ | hm)
        · exact first
        · exact others q d hm
      · intro all
        exact ⟨all p c (.inl ⟨rfl, rfl⟩), fun q d hm => all q d (.inr hm)⟩

/-- The report of a delta in which nothing has an escape sequence is, in colour and without, a full
report, whatever escape sequences the palette has. Without its escape sequences the coloured one is the
other exactly if no change in the delta shows a sequence that fits on its line without colour only. -/
theorem uncolored_delta {palette : Palette} (hp : palette.Escapes) (snip : Bool) {path : Text}
    (hpath : escapeSign ∉ path) {d : Delta} (h : d.Consists (fun k => escapeSign ∉ k.plain) BareChange) :
    ∃ colored plain, delta (.of palette true snip) path d = (colored, none) ∧
      delta (.of palette false snip) path d = (plain, none) ∧
      (uncolored colored = plain ↔ ∀ p c, d.Stands p c → ¬ CrowdedChange palette c) := by
  obtain ⟨nodes, hsteps, stands⟩ := Delta.steps_listed permutes_byText h.stray_none
  obtain ⟨colored, plain, hc, hn, bare, hs, hiff⟩ := shows_blocks hp snip hpath
    fun p c hm => h.stands ((stands p c).1 hm)
  refine ⟨colored, plain, ?_, ?_, ?_⟩
  · rw [delta_eq_blocks, hsteps, hc]
  · rw [delta_eq_blocks, hsteps, hn]
  · have whole := hiff [] [] trivial
    simp only [List.append_nil, and_true, stands] at whole
    rw [hs.eq, whole]

/-- A text of two lines that becomes a short list. -/
theorem uncolored_delta_of_short :
    let d : Delta := .tree [(.str "a", .node (.of .change (.str "x\ny") (.list ⟨0, []⟩ [.int 1])))]
    Palette.standard.Escapes ∧
      ∃ colored plain, delta (.of .standard true true) "" d = (colored, none) ∧
        delta (.of .standard false true) "" d = (plain, none) ∧ uncolored colored = plain := by
  intro d
  have text : Bare (.str "x\ny") := ⟨by rintro s ⟨⟩; decide, by decide⟩
  have one : Bare (.int 1) := ⟨by simp, by decide⟩
  have list : Everywhere (fun k => escapeSign ∉ k.plain) Bare (.list ⟨0, []⟩ [.int 1]) := by
    refine .of ⟨by simp, by decide⟩ (by simp [Value.fields?]) (by simp [Value.fields?]) ?_
    rintro _ w ⟨⟩ hm
    obtain rfl : w = .int 1 := by simpa using hm
    exact everywhere_of_scalar (by decide) one
  have change : BareChange (.of .change (.str "x\ny") (.list ⟨0, []⟩ [.int 1])) :=
    ⟨by rw [Change.kind?_of]; rfl, everywhere_of_scalar (by decide) text, list⟩
  have bare : d.Consists (fun k => escapeSign ∉ k.plain) BareChange :=
    .tree (Fields.forall_cons.2 ⟨by decide, by simp⟩) (Fields.forall_cons.2 ⟨.node change, by simp⟩)
  have room : ¬ CrowdedChange .standard (.of .change (.str "x\ny") (.list ⟨0, []⟩ [.int 1])) := by
    rintro (⟨-, h⟩ | ⟨-, h⟩)
    · exact not_crowded_of_scalar (by decide) h
    · exact not_crowded_of_fits (by decide) (by decide) h
  obtain ⟨colored, plain, hc, hp, hiff⟩ :=
    uncolored_delta standard_escapes true (by decide : escapeSign ∉ ofString "") bare
  refine ⟨standard_escapes, colored, plain, hc, hp, hiff.2 fun p c hs => ?_⟩
  change (Delta.tree _).Stands p c at hs
  cases hs with
  | @down _ k e _ _ entry rest =>
    obtain ⟨-, rfl⟩ := Prod.mk.inj (List.mem_singleton.1 entry)
    cases rest
    exact room

/-- A list of 24 ones: its 72 characters fit behind the mark of an addition, unless the five of the escape
sequence are counted, though these take no room on a line. -/
theorem uncolored_differs :
    let ones : Value := .list ⟨0, []⟩ (List.replicate 24 (.int 1))
    let d : Delta := .tree [(.str "a", .node (.of .add .absent ones))]
    let colored := delta (.of .standard true false) "" d
    let plain := delta (.of .standard false false) "" d
    colored.2 = none ∧ plain.2 = none ∧ plain.1.startsWith "## added /a:\n+  [1, 1, 1, " = true ∧
      (uncolored colored.1).startsWith "## added /a:\n+  item[0]: 1\n" = true ∧
      uncolored colored.1 ≠ plain.1 := by
  decide +kernel

end Report

end TreeDelta
