import TreeDelta.Proofs.Json.Number
import TreeDelta.Proofs.Json.Strings
/-!
# The tokens of a written document

`Json.tokens` lists the tokens of a document. They are those of its text in any layout, whatever
follows the text as long as it does not go on with a number (`lex_render`). What stands between two
items lexes to one comma, and a new line to nothing.
-/

namespace TreeDelta

theorem Text.intercalate_cons (separator part : Text) (parts : List Text) :
    Text.intercalate separator (part :: parts) =
      part ++ parts.flatMap fun p => separator ++ p := by
  induction parts generalizing part with
  | nil => simp [Text.intercalate]
  | cons p parts ih =>
    have hrest := ih p
    simp only [Text.intercalate] at hrest ⊢
    simp [hrest]

namespace Json

/-- A document that comes back when its text is read: whole numbers have few enough digits, strings
no paired halves, and the names in an object differ. -/
inductive Readable : Json → Prop
  | null : Readable null
  | bool (b : Bool) : Readable (bool b)
  | int {i : Int} (short : Short i) : Readable (int i)
  | float (x : Double) : Readable (float x)
  | nan : Readable nan
  | str {s : Text} (unpaired : Text.Unpaired s) : Readable (str s)
  | arr {items : List Json} (below : ∀ j ∈ items, Readable j) : Readable (arr items)
  | obj {members : List (Text × Json)} (distinct : (members.map (·.1)).Nodup)
      (unpaired : ∀ name j, (name, j) ∈ members → Text.Unpaired name)
      (below : ∀ name j, (name, j) ∈ members → Readable j) : Readable (obj members)

/-! ## Tokens -/

/-- The tokens of items with commas between them. -/
def separated : List (List Token) → List Token
  | [] => []
  | part :: parts => part ++ parts.flatMap (.comma :: ·)

mutual
/-- The tokens of a document. -/
def tokens : Json → List Token
  | null => [.null]
  | bool b => [.bool b]
  | int i => [.int i]
  | float x => [.float x]
  | nan => [.nan]
  | str s => [.str s]
  | arr items => .openArr :: (separated (itemTokens items) ++ [.closeArr])
  | obj members => .openObj :: (separated (memberTokens members) ++ [.closeObj])

def itemTokens : List Json → List (List Token)
  | [] => []
  | j :: rest => tokens j :: itemTokens rest

def memberTokens : List (Text × Json) → List (List Token)
  | [] => []
  | (name, j) :: rest => (.str name :: .colon :: tokens j) :: memberTokens rest
end

/-- The text of a part has the tokens of the part, whatever follows. -/
def Lexes (text : Text) (tokens : List Token) : Prop :=
  ∀ rest, Ends rest → lex (text ++ rest) = tokens ++ lex rest

/-! ## One token -/

theorem ends_nil : Ends [] := fun _ h => by cases h

theorem ends_cons {c : Char} (h : c = ',' ∨ c = ':' ∨ c = ']' ∨ c = '\x7d' ∨ c = '\n') (rest : Text) :
    Ends (.char c :: rest) := by
  rintro _ ⟨⟩
  rcases h with rfl | rfl | rfl | rfl | rfl <;> decide

theorem nextToken_space {s : Sign} (h : isSpace s = true) (rest : Text) :
    nextToken (s :: rest) = none := by
  simp only [isSpace, Bool.or_eq_true, decide_eq_true_eq] at h
  rcases h with ((rfl | rfl) | rfl) | rfl <;> rfl

theorem lex_space {s : Sign} (h : isSpace s = true) (rest : Text) : lex (s :: rest) = lex rest := by
  rw [lex, if_pos h]

/-- The text of a token is not empty and does not start with a space, as neither starts a token. -/
theorem lexes_token {text : Text} {token : Token}
    (h : ∀ rest, Ends rest → nextToken (text ++ rest) = some (token, rest)) :
    Lexes text [token] := by
  intro rest hr
  cases text with
  | nil =>
    have hempty : nextToken [] = some (token, []) := h [] ends_nil
    cases hempty
  | cons s text =>
    have hs : isSpace s = false := by
      by_contra hs
      have hfound := h [] ends_nil
      rw [List.cons_append, nextToken_space (by simpa using hs)] at hfound
      cases hfound
    have hfound := h rest hr
    rw [List.cons_append] at hfound ⊢
    rw [lex, hs, hfound]
    simp

theorem lex_sign {c : Char} {token : Token} (hs : isSpace (.char c) = false)
    (h : ∀ rest, nextToken (.char c :: rest) = some (token, rest)) (rest : Text) :
    lex (.char c :: rest) = token :: lex rest := by
  rw [lex, hs, h]
  simp

/-! ## Layout -/

theorem lex_newline (layout : Layout) (depth : Nat) (rest : Text) :
    lex (layout.newline depth ++ rest) = lex rest := by
  obtain ⟨indent⟩ := layout
  cases indent with
  | none => rfl
  | some n =>
    have hspaces : ∀ k, lex (Text.repeated k (.char ' ') ++ rest) = lex rest := by
      intro k
      induction k with
      | zero => rfl
      | succ k ih =>
        have htext : Text.repeated (k + 1) (.char ' ') ++ rest =
            .char ' ' :: (Text.repeated k (.char ' ') ++ rest) := rfl
        rw [htext, lex_space rfl, ih]
    have htext : Layout.newline ⟨some n⟩ depth ++ rest =
        .char '\n' :: (Text.repeated (n.toNat * depth) (.char ' ') ++ rest) := rfl
    rw [htext, lex_space rfl, hspaces]

theorem lex_separator (layout : Layout) (depth : Nat) (rest : Text) :
    lex (layout.separator depth ++ rest) = .comma :: lex rest := by
  obtain ⟨indent⟩ := layout
  cases indent with
  | none =>
    have htext : Layout.separator ⟨none⟩ depth ++ rest = .char ',' :: .char ' ' :: rest := rfl
    rw [htext, lex_sign rfl (fun _ => rfl), lex_space rfl]
  | some n =>
    have htext : Layout.separator ⟨some n⟩ depth ++ rest =
        .char ',' :: (Layout.newline ⟨some n⟩ depth ++ rest) := rfl
    rw [htext, lex_sign rfl (fun _ => rfl), lex_newline]

theorem ends_separator (layout : Layout) (depth : Nat) (rest : Text) :
    Ends (layout.separator depth ++ rest) := by
  obtain ⟨indent⟩ := layout
  cases indent <;> exact ends_cons (Or.inl rfl) _

theorem ends_newline (layout : Layout) (depth : Nat) {rest : Text} (h : Ends rest) :
    Ends (layout.newline depth ++ rest) := by
  obtain ⟨indent⟩ := layout
  cases indent with
  | none => exact h
  | some n =>
    have hline : Ends (.char '\n' :: (Text.repeated (n.toNat * depth) (.char ' ') ++ rest)) :=
      ends_cons (by decide) _
    exact hline

/-- Items behind separators lex to their tokens behind commas. -/
theorem lex_separated {layout : Layout} {depth : Nat} {texts : List Text}
    {parts : List (List Token)} (h : List.Forall₂ Lexes texts parts) {rest : Text} (hr : Ends rest) :
    Ends ((texts.flatMap fun text => layout.separator depth ++ text) ++ rest) ∧
      lex ((texts.flatMap fun text => layout.separator depth ++ text) ++ rest) =
        parts.flatMap (.comma :: ·) ++ lex rest := by
  induction h with
  | nil => exact ⟨hr, rfl⟩
  | cons htext _ ih =>
    simp only [List.flatMap_cons, List.append_assoc]
    refine ⟨ends_separator layout depth _, ?_⟩
    rw [lex_separator, htext _ ih.1, ih.2]
    rfl

/-- Items between brackets lex to their tokens, with the tokens of the brackets around them. -/
theorem lexes_bracketed {layout : Layout} {depth : Nat} {opening closing : Char} {first last : Token}
    (hopen : isSpace (.char opening) = false ∧
      ∀ rest, nextToken (.char opening :: rest) = some (first, rest))
    (hclose : isSpace (.char closing) = false ∧
      ∀ rest, nextToken (.char closing :: rest) = some (last, rest))
    (hends : closing = ']' ∨ closing = '\x7d')
    {texts : List Text} {parts : List (List Token)} (h : List.Forall₂ Lexes texts parts) :
    Lexes (layout.bracketed depth [.char opening] [.char closing] texts)
      (first :: (separated parts ++ [last])) := by
  intro rest hr
  have hafter : Ends (.char closing :: rest) := ends_cons (by tauto) rest
  have hlast : lex (.char closing :: rest) = last :: lex rest := lex_sign hclose.1 hclose.2 rest
  cases h with
  | nil =>
    have htext : layout.bracketed depth [.char opening] [.char closing] [] ++ rest =
        .char opening :: .char closing :: rest := rfl
    rw [htext, lex_sign hopen.1 hopen.2, hlast]
    rfl
  | @cons text part texts parts htext htexts =>
    have hall : layout.bracketed depth [.char opening] [.char closing] (text :: texts) ++ rest =
        .char opening :: (layout.newline (depth + 1) ++ (text ++
          ((texts.flatMap fun text => layout.separator (depth + 1) ++ text) ++
            (layout.newline depth ++ .char closing :: rest)))) := by
      simp [Layout.bracketed, Text.intercalate_cons]
    have hmore := @lex_separated layout (depth + 1) _ _ htexts _ (ends_newline layout depth hafter)
    rw [hall, lex_sign hopen.1 hopen.2, lex_newline, htext _ hmore.1, hmore.2, lex_newline, hlast]
    simp [separated]

/-! ## Documents -/

theorem lexes_member {name text : Text} {part : List Token} (hname : Text.Unpaired name)
    (h : Lexes text part) : Lexes (quotedText name ++ ": " ++ text) (.str name :: .colon :: part) := by
  intro rest hr
  have htext : quotedText name ++ ": " ++ text ++ rest =
      quotedText name ++ (.char ':' :: .char ' ' :: (text ++ rest)) := by
    rw [List.append_assoc, List.append_assoc]
    rfl
  have hstr : Lexes (quotedText name) [.str name] := lexes_token fun rest _ => nextToken_str hname rest
  rw [htext, hstr _ (ends_cons (by decide) _), lex_sign rfl (fun _ => rfl), lex_space rfl, h rest hr]
  rfl

theorem lexes_items {layout : Layout} {depth : Nat} {items : List Json}
    (h : ∀ j ∈ items, Lexes (j.render layout depth) j.tokens) :
    List.Forall₂ Lexes (renderItems layout depth items) (itemTokens items) := by
  induction items with
  | nil => exact .nil
  | cons j items ih => exact .cons (h j (by simp)) (ih fun k hk => h k (by simp [hk]))

theorem lexes_members {layout : Layout} {depth : Nat} {members : List (Text × Json)}
    (hnames : ∀ name j, (name, j) ∈ members → Text.Unpaired name)
    (h : ∀ name j, (name, j) ∈ members → Lexes (j.render layout depth) j.tokens) :
    List.Forall₂ Lexes (renderMembers layout depth members) (memberTokens members) := by
  induction members with
  | nil => exact .nil
  | cons m members ih =>
    obtain ⟨name, j⟩ := m
    have hfirst := lexes_member (hnames name j (by simp)) (h name j (by simp))
    have hrest := ih (fun n k hk => hnames n k (by simp [hk])) fun n k hk => h n k (by simp [hk])
    exact .cons hfirst hrest

/-- The text of a readable document lexes to the tokens of the document. -/
theorem lex_render {j : Json} (h : Readable j) (layout : Layout) (depth : Nat) :
    Lexes (j.render layout depth) j.tokens := by
  induction h generalizing depth with
  | null => exact lexes_token fun _ _ => rfl
  | bool b => cases b <;> exact lexes_token fun _ _ => rfl
  | int short => exact lexes_token fun _ hr => nextToken_int short hr
  | float x => exact lexes_token fun _ hr => nextToken_float hr
  | nan => exact lexes_token fun _ _ => rfl
  | str unpaired => exact lexes_token fun rest _ => nextToken_str unpaired rest
  | arr _ ih =>
    refine lexes_bracketed ⟨rfl, fun _ => rfl⟩ ⟨rfl, fun _ => rfl⟩ (Or.inl rfl) ?_
    exact lexes_items fun j hj => ih j hj (depth + 1)
  | obj _ unpaired _ ih =>
    refine lexes_bracketed ⟨rfl, fun _ => rfl⟩ ⟨rfl, fun _ => rfl⟩ (Or.inr rfl) ?_
    exact lexes_members unpaired fun name j hj => ih name j hj (depth + 1)

end Json

end TreeDelta
