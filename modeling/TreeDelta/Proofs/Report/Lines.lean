import Mathlib.Logic.Basic
import TreeDelta.Proofs.Report.Parts
/-!
# Lines of a printed value

A value is printed as lines that are ended, and they start with the lead, but for two exceptions
(`value_lines`): the empty text comes to a line feed alone, and where a sequence is printed in its layout
(`OnOneLine`) though that has several lines, only the first of them stands behind the lead (`Strays`). A
layout that short has several lines where a text in it is written in pieces, each with the quote mark
that saves escapes.
-/

namespace TreeDelta

namespace Text

variable {sep : Sign} {a b text : Text}

/-! ## Pieces between separators -/

theorem splitOn_ne_nil (sep : Sign) (text : Text) : splitOn sep text ≠ [] := by
  cases text with
  | nil => simp [splitOn]
  | cons s rest =>
    rw [splitOn]
    split
    · simp
    · split <;> simp

theorem splitOn_cons (s : Sign) {piece : Text} {more : List Text}
    (h : splitOn sep text = piece :: more) :
    splitOn sep (s :: text) = if s = sep then [] :: piece :: more else (s :: piece) :: more := by
  rw [splitOn, h]

theorem not_mem_of_mem_splitOn : ∀ piece ∈ splitOn sep text, sep ∉ piece := by
  induction text with
  | nil => simp [splitOn]
  | cons s rest ih =>
    obtain ⟨piece, more, h⟩ := List.exists_cons_of_ne_nil (splitOn_ne_nil sep rest)
    rw [h, List.forall_mem_cons] at ih
    rw [splitOn_cons s h]
    split
    · simpa using ih
    · rename_i hs
      simpa [Ne.symm hs] using ih

/-- What has no separator goes in front of the first piece. -/
theorem splitOn_append_left (h : sep ∉ a) {piece : Text} {more : List Text}
    (hb : splitOn sep b = piece :: more) : splitOn sep (a ++ b) = (a ++ piece) :: more := by
  induction a with
  | nil => exact hb
  | cons s a ih =>
    rw [List.mem_cons, not_or] at h
    rw [List.cons_append, splitOn_cons s (ih h.2), if_neg (Ne.symm h.1), List.cons_append]

/-! ## Lines that are ended -/

/-- The text is these lines, each ended by a line feed. -/
def IsLines (text : Text) (ls : List Text) : Prop :=
  (∀ l ∈ ls, .char '\n' ∉ l) ∧ text = joined (ls.map (· ++ "\n"))

/-- The text is made of ended lines, and all of them are `P` exactly if `C`. -/
def LinesIff (P : Text → Prop) (C : Prop) (text : Text) : Prop :=
  ∃ ls, text.IsLines ls ∧ ((∀ l ∈ ls, P l) ↔ C)

theorem isLines_nil : IsLines "" [] := ⟨by simp, rfl⟩

theorem isLines_single (h : .char '\n' ∉ text) : IsLines (text ++ "\n") [text] :=
  ⟨by simpa using h, by simp [joined]⟩

theorem IsLines.append {ls ms : List Text} (ha : a.IsLines ls) (hb : b.IsLines ms) :
    (a ++ b).IsLines (ls ++ ms) := by
  refine ⟨fun l hl => ?_, by rw [ha.2, hb.2]; simp [joined]⟩
  rcases List.mem_append.1 hl with hl | hl
  · exact ha.1 l hl
  · exact hb.1 l hl

/-- The lines of a text that is ended behind its last sign. -/
theorem isLines_splitOn (text : Text) : IsLines (text ++ "\n") (text.splitOn (.char '\n')) := by
  refine ⟨not_mem_of_mem_splitOn, ?_⟩
  induction text with
  | nil => rfl
  | cons s rest ih =>
    obtain ⟨piece, more, h⟩ := List.exists_cons_of_ne_nil (splitOn_ne_nil (.char '\n') rest)
    rw [List.cons_append, ih, splitOn_cons s h, h]
    split
    · rename_i hs
      subst hs
      rfl
    · rfl

/-- A text is the lines of one list only. -/
theorem IsLines.splitOn_eq {ls : List Text} (h : text.IsLines ls) :
    text.splitOn (.char '\n') = ls ++ [[]] := by
  obtain ⟨h, rfl⟩ := h
  induction ls with
  | nil => rfl
  | cons l ls ih =>
    obtain ⟨hl, hls⟩ := List.forall_mem_cons.1 h
    obtain ⟨piece, more, hp⟩ := List.exists_cons_of_ne_nil
      (splitOn_ne_nil (.char '\n') (joined (ls.map (· ++ "\n"))))
    have step : joined ((l :: ls).map (· ++ "\n")) =
        l ++ .char '\n' :: joined (ls.map (· ++ "\n")) := by simp [joined, ofString, ofChars]
    have ended := splitOn_cons (.char '\n') hp
    rw [if_pos rfl] at ended
    rw [step, splitOn_append_left hl ended, List.append_nil, ← hp, ih hls, List.cons_append]

theorem IsLines.extend {l : Text} {ls : List Text} (ha : .char '\n' ∉ a) (h : text.IsLines (l :: ls)) :
    (a ++ text).IsLines ((a ++ l) :: ls) := by
  obtain ⟨hl, hls⟩ := List.forall_mem_cons.1 h.1
  refine ⟨List.forall_mem_cons.2 ⟨by simp [ha, hl], hls⟩, ?_⟩
  rw [h.2]
  simp [joined]

variable {P : Text → Prop} {C D : Prop}

theorem LinesIff.congr (h : LinesIff P C text) (hd : C ↔ D) : LinesIff P D text := by
  obtain ⟨ls, hl, hc⟩ := h
  exact ⟨ls, hl, hc.trans hd⟩

theorem LinesIff.append (ha : LinesIff P C a) (hb : LinesIff P D b) : LinesIff P (C ∧ D) (a ++ b) := by
  obtain ⟨ls, hl, hc⟩ := ha
  obtain ⟨ms, hm, hd⟩ := hb
  refine ⟨ls ++ ms, hl.append hm, ?_⟩
  rw [List.forall_mem_append, hc, hd]

theorem LinesIff.joined {α : Type} {xs : List α} {f : α → Text} {C : α → Prop}
    (h : ∀ x ∈ xs, LinesIff P (C x) (f x)) : LinesIff P (∀ x ∈ xs, C x) (Text.joined (xs.map f)) := by
  induction xs with
  | nil => exact ⟨[], isLines_nil, by simp⟩
  | cons x rest ih =>
    rw [List.forall_mem_cons] at h
    have both := h.1.append (ih h.2)
    exact both.congr List.forall_mem_cons.symm

/-- One line that is `P`. -/
theorem linesIff_single (text : Text) (h : .char '\n' ∉ text) (hp : P text) : LinesIff P True (text ++ "\n") :=
  ⟨[text], isLines_single h, by simpa using hp⟩

/-- A line with its end: a line feed stands there, if at all. -/
def IsKept (line : Text) : Prop :=
  ∃ body, .char '\n' ∉ body ∧ (line = body ∧ body ≠ [] ∨ line = body ++ "\n")

theorem mem_linesKept : ∀ line ∈ linesKept text, IsKept line := by
  fun_induction linesKept text with
  | case1 => simp
  | case2 rest ih => exact List.forall_mem_cons.2 ⟨⟨[.char '\r'], by decide, .inr rfl⟩, ih⟩
  | case3 s rest _ hs ih =>
    refine List.forall_mem_cons.2 ⟨?_, ih⟩
    by_cases h : s = .char '\n'
    · exact ⟨[], by simp, .inr (by rw [h]; rfl)⟩
    · exact ⟨[s], by simpa using Ne.symm h, .inl ⟨rfl, by simp⟩⟩
  | case4 s rest _ hs ih =>
    have hne : Sign.char '\n' ≠ s := by
      rintro rfl
      exact hs (by decide)
    cases hk : linesKept rest with
    | nil => simpa [consFirst] using ⟨[s], by simpa using hne, .inl ⟨rfl, by simp⟩⟩
    | cons line more =>
      rw [hk] at ih
      obtain ⟨⟨body, hb, hline⟩, hmore⟩ := List.forall_mem_cons.1 ih
      refine List.forall_mem_cons.2 ⟨⟨s :: body, by simp [hb, hne], ?_⟩, hmore⟩
      rcases hline with ⟨rfl, -⟩ | rfl
      · exact .inl ⟨rfl, by simp⟩
      · exact .inr rfl

end Text

namespace Report

open Text

variable {snip : Bool} {mark lead label : Text} {v w : Value}

/-! ## Texts -/

/-- Kept lines behind a lead. A line that ends otherwise than with a line feed goes on in the next. -/
theorem isLines_kept (hl : .char '\n' ∉ lead) {kept : List Text} (hne : kept ≠ [])
    (h : ∀ line ∈ kept, IsKept line) :
    ∃ ls, ls ≠ [] ∧ (∀ l ∈ ls, lead <+: l) ∧
      IsLines (joined (kept.map (lead ++ ·)) ++
        (if kept.flatten.getLast? = some (.char '\n') then "" else "\n")) ls := by
  induction kept with
  | nil => exact absurd rfl hne
  | cons line rest ih =>
    obtain ⟨⟨body, hb, hline⟩, hrest⟩ := List.forall_mem_cons.1 h
    have single : (lead ++ body ++ "\n").IsLines [lead ++ body] :=
      isLines_single (by simp [hl, hb])
    cases rest with
    | nil =>
      refine ⟨[lead ++ body], by simp, by simp, ?_⟩
      rcases hline with ⟨rfl, -⟩ | rfl
      · have unended : line.getLast? ≠ some (.char '\n') := fun h => hb (List.mem_of_getLast? h)
        simpa [joined, unended] using single
      · have ended : (body ++ Text.ofString "\n").getLast? = some (.char '\n') := by
          simp [ofString, ofChars]
        simpa [joined, ended, show ofString "" = [] from rfl] using single
    | cons next more =>
      obtain ⟨ls, hls, hleads, hlines⟩ := ih (by simp) hrest
      have last : (line :: next :: more).flatten.getLast? = (next :: more).flatten.getLast? := by
        obtain ⟨body', -, hnext⟩ := hrest next (by simp)
        have there : (next :: more).flatten ≠ [] := by
          rcases hnext with ⟨rfl, h⟩ | rfl
          · simp [h]
          · simp [ofString, ofChars]
        rw [List.flatten_cons, List.getLast?_append, List.getLast?_eq_some_getLast there]
        rfl
      rw [last]
      have step : joined ((line :: next :: more).map (lead ++ ·)) =
          lead ++ line ++ joined ((next :: more).map (lead ++ ·)) := rfl
      rw [step, List.append_assoc]
      rcases hline with ⟨rfl, -⟩ | rfl
      · obtain ⟨l, ls, rfl⟩ := List.exists_cons_of_ne_nil hls
        refine ⟨(lead ++ line ++ l) :: ls, by simp, ?_, hlines.extend (by simp [hl, hb])⟩
        rw [List.forall_mem_cons] at hleads ⊢
        exact ⟨by simp, hleads.2⟩
      · refine ⟨(lead ++ body) :: ls, by simp, List.forall_mem_cons.2 ⟨by simp, hleads⟩, ?_⟩
        rw [← List.append_assoc, ← List.append_assoc lead, List.append_assoc]
        exact single.append hlines

theorem lines_lead (hl : .char '\n' ∉ lead) (text : Text) (hne : text ≠ "") :
    ∃ ls, ls ≠ [] ∧ (∀ l ∈ ls, lead <+: l) ∧ (lines lead text).IsLines ls := by
  have kept : linesKept text ≠ [] := by
    intro h
    have := linesKept_flatten text
    rw [h] at this
    exact hne this.symm
  have := isLines_kept hl kept mem_linesKept
  rwa [linesKept_flatten] at this

theorem labelLine_lines (hm : mark <+: lead) (hl : .char '\n' ∉ lead) (hlabel : .char '\n' ∉ label) :
    LinesIff (mark <+: ·) True (labelLine lead label) := by
  have single := linesIff_single (P := (mark <+: ·)) (lead ++ label ++ ":")
    (by simp [hl, hlabel, ofString, ofChars]) (hm.trans (by simp))
  simpa [labelLine, ofString, ofChars] using single

theorem labelled_lines (hm : mark <+: lead) (hl : .char '\n' ∉ lead) (hlabel : .char '\n' ∉ label)
    (text : Text) : LinesIff (mark <+: ·) True (labelled lead label text) := by
  unfold labelled
  split
  · have below : ∀ line ∈ linesCut text,
        LinesIff (mark <+: ·) True (lead ++ indentation ++ line ++ "\n") := by
      intro line hline
      obtain ⟨kept, -, rfl⟩ := List.mem_map.1 hline
      refine linesIff_single _ ?_ (hm.trans (by simp))
      have hend : isLineEnd (.char '\n') = true := by decide
      simp [hl, hend, indentation, ofString, ofChars]
    exact ((labelLine_lines hm hl hlabel).append (.joined below)).congr (by simp)
  · rename_i ht
    have single := linesIff_single (P := (mark <+: ·)) (lead ++ label ++ ": " ++ text)
      (by simp [hl, hlabel, ht, ofString, ofChars]) (hm.trans (by simp))
    exact single

/-! ## Containers -/

/-- Somewhere among the contents behind the lead a sequence is printed in its layout, and a line of that
after the first one does not start with the mark. -/
inductive Strays (mark : Text) : Text → Value → Prop where
  | here {lead : Text} {v : Value} {l : Text} (inline : OnOneLine lead v)
      (later : l ∈ (v.laidOut.splitOn (.char '\n')).tail) (bare : ¬ mark <+: l) : Strays mark lead v
  | part {lead label : Text} {v w : Value} (apart : ¬ OnOneLine lead v)
      (mem : (label, w) ∈ partsOf v) (inner : Strays mark (lead ++ indentation) w) : Strays mark lead v

theorem strays_layout (h : OnOneLine lead v) :
    Strays mark lead v ↔ ∃ l ∈ (v.laidOut.splitOn (.char '\n')).tail, ¬ mark <+: l := by
  constructor
  · rintro (⟨-, later, bare⟩ | ⟨apart, -, -⟩)
    · exact ⟨_, later, bare⟩
    · exact absurd h apart
  · rintro ⟨l, later, bare⟩
    exact .here h later bare

theorem strays_parts (h : ¬ OnOneLine lead v) :
    Strays mark lead v ↔ ∃ part ∈ partsOf v, Strays mark (lead ++ indentation) part.2 := by
  constructor
  · rintro (⟨inline, -, -⟩ | ⟨-, mem, inner⟩)
    · exact absurd inline h
    · exact ⟨_, mem, inner⟩
  · rintro ⟨part, mem, inner⟩
    exact .part h mem inner

theorem not_strays_of_no_parts (h : partsOf v = []) : ¬ Strays mark lead v := by
  rintro (⟨inline, later, -⟩ | ⟨-, mem, -⟩)
  · rcases laidOut_of_no_parts inline.1 h with e | e <;> simp [e, splitOn, ofString, ofChars] at later
  · rw [h] at mem
    cases mem

theorem item_lines (hm : mark <+: lead) (hl : .char '\n' ∉ lead) (hlabel : .char '\n' ∉ label)
    (below : LinesIff (mark <+: ·) (¬ Strays mark (lead ++ indentation) v)
      (contents snip (lead ++ indentation) v)) :
    LinesIff (mark <+: ·) (¬ Strays mark (lead ++ indentation) v) (item snip lead label v) := by
  by_cases hc : IsContainer v
  · rw [item_of_container hc]
    exact ((labelLine_lines hm hl hlabel).append below).congr (iff_of_eq (true_and _))
  · rw [item_of_scalar hc]
    exact (labelled_lines hm hl hlabel _).congr (by simp [not_strays_of_no_parts (partsOf_of_scalar hc)])

theorem contents_lines (snip : Bool)
    (hv : Everywhere (fun k => .char '\n' ∉ k.plain) (fun _ => True) v) :
    ∀ lead : Text, mark <+: lead → .char '\n' ∉ lead →
      LinesIff (mark <+: ·) (¬ Strays mark lead v) (contents snip lead v) := by
  refine hv.induction fun v _ below => ?_
  intro lead hm hl
  unfold contents
  split
  · rename_i inline
    obtain ⟨piece, more, h⟩ := List.exists_cons_of_ne_nil (splitOn_ne_nil (.char '\n') v.laidOut)
    refine ⟨_, isLines_splitOn (lead ++ v.laidOut), ?_⟩
    rw [strays_layout inline, splitOn_append_left hl h, h, List.forall_mem_cons, List.tail_cons]
    simp only [not_exists, not_and, not_not]
    exact and_iff_right (hm.trans (by simp))
  · rename_i apart
    have hlead : .char '\n' ∉ lead ++ indentation := by simp [hl, indentation, ofString, ofChars]
    have parts : ∀ part ∈ partsOf v, LinesIff (mark <+: ·)
        (¬ Strays mark (lead ++ indentation) part.2) (item snip lead part.1 part.2) := by
      intro part mem
      obtain ⟨hlabel, -, ih⟩ := below part.1 part.2 mem
      exact item_lines hm hl (not_mem_label (by decide) (by decide) hlabel)
        (ih _ (hm.trans (by simp)) hlead)
    refine (LinesIff.joined parts).congr ?_
    rw [strays_parts apart]
    simp

/-! ## Values without a label -/

theorem snipped_eq_nil {text : Text} : snipped text = [] ↔ text = [] := by
  unfold snipped
  split
  · split
    · rename_i h
      simp only [Bool.and_eq_true, snipLength] at h
      refine iff_of_false (by simp [ofString, ofChars]) ?_
      rintro rfl
      simp at h
    · rfl
  · rfl

theorem doubleText_ne_empty (x : Double) : x.text .plain ≠ "" := by
  cases x with
  | infinite negative => cases negative <;> simp [Double.text, DecimalFormat.plain]
  | finite negative rank =>
    have positive : (Double.shortest rank).text .plain ≠ "" := by
      simp only [Decimal.text, positional, scientific]
      split
      · split <;> simp
      · simp
    simp only [Double.text, ne_eq, String.append_eq_empty_iff, not_and]
    intro _
    split
    · decide
    · exact positive

theorem intText_ne_empty (i : Int) : toString i ≠ "" := by
  cases i with
  | ofNat n =>
    change Nat.repr n ≠ ""
    simp [Nat.repr]
  | negSucc n => simp [toString, Int.repr]

theorem ofString_ne_nil {s : String} (h : s ≠ "") : ofString s ≠ [] := by
  simpa [ofString, ofChars] using h

theorem text_ne_nil (v : Value) (ordered : Bool) : v.text ordered ≠ [] := by
  cases v with
  | bool b => rw [Value.text]; cases b <;> decide
  | int i => rw [Value.text]; exact ofString_ne_nil (intText_ne_empty i)
  | float x => rw [Value.text]; exact ofString_ne_nil (doubleText_ne_empty x)
  | nan => rw [Value.text]; decide
  | tuple items =>
    rw [Value.text]
    unfold Show.tuple
    split <;> simp [ofString, ofChars, Show.bracketed]
  | set _ items =>
    rw [Value.text]
    unfold Show.set
    split <;> simp [ofString, ofChars, Show.bracketed]
  | _ => simp [Value.text, Show.bracketed, Show.map, Show.record, quoted, ofString, ofChars]

theorem laidOut_ne_nil (h : ∀ s, v ≠ .str s) : v.laidOut ≠ [] := by
  unfold Value.laidOut Value.layout
  dsimp only
  split
  · exact text_ne_nil v true
  · split
    · exact absurd rfl (h _)
    · simp [Layout.bracketed, ofString, ofChars]
    · simp [Layout.bracketed, ofString, ofChars]
    · simp [Layout.bracketed, ofString, ofChars]
    · simp [Layout.bracketed, ofString, ofChars]
    · exact text_ne_nil _ true

/-- Only the empty text comes to nothing. -/
theorem scalar_eq_nil : scalar snip v = [] ↔ v = .str [] := by
  cases v with
  | str s =>
    rw [scalar, Value.str.injEq]
    split
    · exact snipped_eq_nil
    · rfl
  | _ => exact iff_of_false (laidOut_ne_nil (by simp)) (by simp)

theorem item_ne_nil : item snip lead label v ≠ [] := by
  by_cases h : IsContainer v
  · simp [item_of_container h, labelLine, ofString, ofChars]
  · rw [item_of_scalar h, labelled]
    split <;> simp [labelLine, ofString, ofChars]

theorem contents_ne_nil (h : partsOf v ≠ []) : contents snip lead v ≠ [] := by
  obtain ⟨⟨label, w⟩, rest, hp⟩ := List.exists_cons_of_ne_nil h
  unfold contents
  split
  · simp [ofString, ofChars]
  · simp [hp, printed, joined, item_ne_nil]

/-- A value is printed as one line or more, each of them ended. All of them start with the lead, unless
the value is the empty text behind a lead, or a layout of several lines strays. -/
theorem value_lines (snip : Bool) (hl : .char '\n' ∉ lead)
    (hv : Everywhere (fun k => .char '\n' ∉ k.plain) (fun _ => True) v) :
    ∃ ls, ls ≠ [] ∧ (∀ l ∈ ls, .char '\n' ∉ l) ∧ value snip lead v = joined (ls.map (· ++ "\n")) ∧
      ((∀ l ∈ ls, lead <+: l) ↔ ¬ (v = .str "" ∧ lead ≠ "") ∧ ¬ Strays lead lead v) := by
  obtain ⟨hne, he⟩ | ⟨hf, he⟩ | ⟨-, hp, he⟩ := value_cases v
  · have hs : v ≠ .str "" := by
      rintro rfl
      exact hne rfl
    obtain ⟨ls, hlines, hiff⟩ := contents_lines snip hv lead (List.prefix_refl lead) hl
    refine ⟨ls, ?_, hlines.1, (he snip lead).trans hlines.2, by simpa [hs] using hiff⟩
    rintro rfl
    exact contents_ne_nil hne hlines.2
  · have hs : v ≠ .str "" := by
      rintro rfl
      cases hf
    have hp : partsOf v = [] := by simp [partsOf, hf]
    have single : (lead ++ "\x7b\x7d" ++ "\n").IsLines [lead ++ "\x7b\x7d"] :=
      isLines_single (by simp [hl, ofString, ofChars])
    refine ⟨_, by simp, single.1, ?_, by simp [hs, not_strays_of_no_parts hp]⟩
    rw [← single.2, he, List.append_assoc]
    rfl
  · have strays : ¬ Strays lead lead v := not_strays_of_no_parts hp
    by_cases hs : v = .str ""
    · subst hs
      refine ⟨[[]], by simp, by simp, ?_, ?_⟩
      · rw [he, scalar_eq_nil.2 (rfl : Value.str "" = .str [])]
        rfl
      · have empty : Text.ofString "" = [] := rfl
        simp only [empty] at strays ⊢
        simp [strays]
    · obtain ⟨ls, hne, hleads, hlines⟩ := lines_lead hl (scalar snip v) (mt scalar_eq_nil.1 hs)
      exact ⟨ls, hne, hlines.1, (he snip lead).trans hlines.2, iff_of_true hleads ⟨by simp [hs], strays⟩⟩

/-- A text of two lines below a key. -/
theorem value_lines_below_key :
    let mark : Text := "+  "
    let v : Value := .map ⟨0, []⟩ [(.str "a", .str "x\ny")]
    ∃ ls, ls ≠ [] ∧ (∀ l ∈ ls, .char '\n' ∉ l) ∧ value true mark v = joined (ls.map (· ++ "\n")) ∧
      ∀ l ∈ ls, mark <+: l := by
  intro mark v
  have scalar : ¬ IsContainer (.str "x\ny") := by decide
  have each : Everywhere (fun k => .char '\n' ∉ k.plain) (fun _ => True) v := by
    refine .of trivial ?_ ?_ (by simp [v, Value.sequence?, Value.tuple?])
    · rintro _ k w ⟨⟩ hm
      obtain ⟨rfl, -⟩ : k = .str "a" ∧ w = .str "x\ny" := by simpa using hm
      decide
    · rintro _ k w ⟨⟩ hm
      obtain ⟨-, rfl⟩ : k = .str "a" ∧ w = .str "x\ny" := by simpa using hm
      exact everywhere_of_scalar scalar trivial
  have straight : ¬ Strays mark mark v := by
    rw [strays_parts (by decide)]
    rintro ⟨⟨label, w⟩, hm, hw⟩
    obtain ⟨_, k, ⟨⟩, hm, -⟩ | ⟨_, _, ⟨⟩, -⟩ := mem_partsOf.1 hm
    obtain ⟨-, rfl⟩ : k = .str "a" ∧ w = .str "x\ny" := by simpa using hm
    exact not_strays_of_no_parts (partsOf_of_scalar scalar) hw
  obtain ⟨ls, hne, hls, he, hiff⟩ := value_lines true (by decide : .char '\n' ∉ mark) each
  exact ⟨ls, hne, hls, he, hiff.2 ⟨by simp [v], straight⟩⟩

/-- The empty text behind a mark is a line feed without it. A text with quote marks of both kinds is
written in two pieces, as these are shorter than the whole, and the second one is behind no mark. -/
theorem value_misses_mark :
    let mark : Text := "-  "
    let marks := Text.repeated 40 (.char '\'')
    let quotes : Value := .list ⟨0, []⟩ [.str ("\x22 " ++ marks)]
    value false mark (.str "") = "\n" ∧
      value false mark quotes = "-  [\x27\x22 \x27\n \x22" ++ marks ++ "\x22]\n" ∧
      ∀ v ∈ [.str "", quotes], ¬ ∃ ls, ls ≠ [] ∧ (∀ l ∈ ls, .char '\n' ∉ l) ∧
        value false mark v = joined (ls.map (· ++ "\n")) ∧ ∀ l ∈ ls, mark <+: l := by
  intro mark marks quotes
  have empty : value false mark (.str "") = "\n" := by decide
  have pieces : value false mark quotes = "-  [\x27\x22 \x27\n \x22" ++ marks ++ "\x22]\n" := by
    decide +kernel
  refine ⟨empty, pieces, ?_⟩
  -- in both texts a piece before the last line feed lacks the mark
  have lacks : ∀ v ∈ [.str "", quotes], ∃ piece ∈ ((value false mark v).splitOn (.char '\n')).dropLast,
      ¬ mark <+: piece := by
    simp only [List.forall_mem_cons, empty, pieces]
    refine ⟨?_, ?_, by simp⟩ <;> decide
  rintro v hv ⟨ls, -, hls, he, hmark⟩
  obtain ⟨piece, hp, hn⟩ := lacks v hv
  rw [IsLines.splitOn_eq ⟨hls, he⟩, List.dropLast_concat] at hp
  exact hn (hmark piece hp)

end Report

end TreeDelta
