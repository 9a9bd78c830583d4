import TreeDelta.Proofs.Program.Run
/-!
# Plain command lines

Names of files that do not start with a dash are taken for what they are, and the switches behind
them store the names of the files to write (`Program.takes_update`, `Program.takes_merge`).
-/

namespace TreeDelta

/-- The word is no switch, whatever the switches are. -/
def Text.Plain (word : Text) : Prop := word.head? ≠ some (.char '-')

instance (word : Text) : Decidable word.Plain :=
  inferInstanceAs (Decidable (word.head? ≠ some (.char '-')))

namespace Grammar

variable {g : Grammar} {names rest : List Text}

theorem classify_plain {word : Text} (h : word.Plain) : g.classify word = .argument word := by
  unfold classify
  split
  · exact absurd rfl h
  · rfl

theorem classifyAll_plain (h : ∀ name ∈ names, name.Plain) :
    g.classifyAll (names ++ rest) = names.map .argument ++ g.classifyAll rest := by
  induction names with
  | nil => rfl
  | cons name names ih =>
    obtain ⟨hname, hnames⟩ := List.forall_mem_cons.1 h
    rw [List.cons_append, classifyAll, classify_plain hname, ih hnames]
    rfl

theorem worth_plain {word : Text} (h : word.Plain) (near : Neighbour) : worth near word = some word := by
  unfold worth
  rw [if_neg]
  rintro ⟨rfl, -⟩
  exact h (by decide)

/-- Plain words find their places, as long as there is room for them. -/
theorem walk_plain (h : ∀ name ∈ names, name.Plain) (hne : names ≠ []) {p : Parse}
    (hroom : p.arguments.length + names.length ≤ g.positionals.length) {near : Neighbour}
    {more : List Word} : g.walk p near (names.map .argument ++ more) =
      g.walk { p with arguments := p.arguments ++ names.map some } .argument more := by
  induction names generalizing p near with
  | nil => exact absurd rfl hne
  | cons name names ih =>
    obtain ⟨hname, hnames⟩ := List.forall_mem_cons.1 h
    rw [List.length_cons] at hroom
    have hhas : g.hasRoom p = true := by
      simp only [hasRoom, decide_eq_true_eq]
      omega
    rw [List.map_cons, List.cons_append, walk, if_pos hhas, worth_plain hname]
    cases names with
    | nil => rfl
    | cons =>
      rw [ih hnames (by simp) (by simp only [List.length_append, List.length_singleton]; omega)]
      simp

/-- The defaults that stand for the switches that are not used. -/
def unused (defaults stored : List (String × Value)) : List (String × Value) :=
  defaults.filter fun (dest, _) => !stored.any fun (used, _) => used = dest

/-- As many plain words as there are places, with switches behind them, are taken for the names. -/
theorem parse_plain (names : List Text) (h : ∀ name ∈ names, name.Plain) (hne : names ≠ [])
    (hlength : names.length = g.positionals.length) (hrest : Word.ambiguous ∉ g.classifyAll rest)
    {stored defaults converted : List (String × Value)}
    (hwalk : g.walk { arguments := names.map some } .argument (g.classifyAll rest) =
      .ok { stored, arguments := names.map some })
    (hdefaults : (unused defaults stored).mapM g.convertDefault = some converted) :
    g.parse defaults (names ++ rest) = .run stored converted (names.map some) := by
  have hclear : (g.classifyAll (names ++ rest)).contains .ambiguous = false := by
    rw [classifyAll_plain h]
    simpa using hrest
  have hall : g.walk {} .other (g.classifyAll (names ++ rest)) =
      .ok { stored, arguments := names.map some } := by
    rw [classifyAll_plain h, walk_plain h hne (by simp [hlength])]
    exact hwalk
  have hfull : (g.hasRoom { stored, arguments := names.map some }) = false := by
    simp [hasRoom, hlength]
  unfold unused at hdefaults
  simp only [parse, hclear, hall, hfull, hdefaults, Bool.false_eq_true, if_false, Bool.or_false]

end Grammar

namespace Program

/-- The options of a run that stores only these. -/
def storing (stored : List (String × Value)) : Options := ⟨stored, Grammar.unused Program.defaults stored⟩

theorem takes_update {source commands result delta : Text}
    (h : ∀ name ∈ [source, commands, result, delta], name.Plain) :
    update.Takes [source, commands, "-o", result, "--diff-output", delta, "--no-diff"]
      (storing [("show_diff", .bool false), ("diff_output", .str delta), ("output", .str result)])
      [source, commands] := by
  simp only [List.forall_mem_cons] at h
  obtain ⟨hsource, hcommands, hresult, hdelta, -⟩ := h
  have hrest : update.grammar.classifyAll ["-o", result, "--diff-output", delta, "--no-diff"] =
      [.switches [] ⟨["-o", "--output"], .text "output"⟩ none, .argument result,
        .switches [] ⟨["--diff-output"], .text "diff_output"⟩ none, .argument delta,
        .switches [] ⟨["--no-diff"], .flag "show_diff" false⟩ none] := by
    have h1 : update.grammar.classify "-o" = .switches [] ⟨["-o", "--output"], .text "output"⟩ none := by
      decide
    have h2 : update.grammar.classify "--diff-output" =
        .switches [] ⟨["--diff-output"], .text "diff_output"⟩ none := by decide
    have h3 : update.grammar.classify "--no-diff" =
        .switches [] ⟨["--no-diff"], .flag "show_diff" false⟩ none := by decide
    simp only [Grammar.classifyAll, h1, h2, h3, Grammar.classify_plain hresult, Grammar.classify_plain hdelta]
  refine Grammar.parse_plain [source, commands] ?_ (by simp) rfl ?_ ?_ ?_
  · simp [hsource, hcommands]
  · rw [hrest]
    simp
  · rw [hrest]
    rfl
  · rfl

theorem takes_merge {before after stored merging net : Text}
    (h : ∀ name ∈ [before, after, stored, merging, net], name.Plain) :
    mergeDiff.Takes [before, after, stored, merging, "-o", net] (storing [("output", .str net)])
      [before, after, stored, merging] := by
  simp only [List.forall_mem_cons] at h
  obtain ⟨hbefore, hafter, hstored, hmerging, hnet, -⟩ := h
  have hrest : mergeDiff.grammar.classifyAll ["-o", net] =
      [.switches [] ⟨["-o", "--output"], .text "output"⟩ none, .argument net] := by
    have h1 : mergeDiff.grammar.classify "-o" = .switches [] ⟨["-o", "--output"], .text "output"⟩ none := by
      decide
    simp only [Grammar.classifyAll, h1, Grammar.classify_plain hnet]
  refine Grammar.parse_plain [before, after, stored, merging] ?_ (by simp) rfl ?_ ?_ ?_
  · simp [hbefore, hafter, hstored, hmerging]
  · rw [hrest]
    simp
  · rw [hrest]
    rfl
  · rfl

end Program

end TreeDelta
