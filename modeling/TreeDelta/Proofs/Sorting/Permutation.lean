import TreeDelta.Sorting.Adaptive
/-!
# Sorting loses nothing

Whatever the comparison says, and however the runs fall, an adaptive sort that ends returns the
items it was given. Items are counted: for every property, each step keeps the number of items
that have it, in the runs and in what is merged so far taken together.
-/

namespace TreeDelta.Sorting

variable {α : Type} (p : α → Bool)

def Halves.count (h : Halves α) : Nat := h.left.countP p + h.right.countP p + h.merged.countP p

def Progress.count : Progress α → Nat
  | .done items => items.countP p
  | .working h => h.count p

theorem countP_take_drop (k : Nat) (items : List α) :
    (items.take k).countP p + (items.drop k).countP p = items.countP p := by
  rw [← List.countP_append, List.take_append_drop]

variable {p} {lt : α → α → Option Bool}

namespace Up

theorem count_finish (merged rest : List α) :
    (finish merged rest).count p = merged.countP p + rest.countP p := by
  simp [finish, Progress.count]

theorem count_single {patience fuel wonLeft wonRight : Nat} {h : Halves α} {r : Progress α}
    (hr : single lt patience fuel wonLeft wonRight h = some r) : r.count p = h.count p := by
  induction fuel generalizing wonLeft wonRight h with
  | zero => cases hr; simp [count_finish, Halves.count]; omega
  | succ fuel ih =>
    obtain ⟨left, right, merged⟩ := h
    unfold single at hr
    split at hr
    · rename_i x left y right hl hr'
      subst hl hr'
      obtain ⟨b, -, hr⟩ := Option.bind_eq_some_iff.1 hr
      split at hr
      · split at hr
        · cases hr
          rename_i he
          simp [count_finish, Halves.count, List.countP_cons, List.isEmpty_iff.1 he]; omega
        · split at hr
          · cases hr
            simp [Progress.count, Halves.count, List.countP_cons]; omega
          · rw [ih hr]
            simp [Halves.count, List.countP_cons]; omega
      · split at hr
        · cases hr
          simp [count_finish, Halves.count, List.countP_cons]; omega
        · split at hr
          · cases hr
            simp [Progress.count, Halves.count, List.countP_cons]; omega
          · rw [ih hr]
            simp [Halves.count, List.countP_cons]; omega
    · cases hr; simp [count_finish, Halves.count]; omega

theorem count_many {fuel patience rest : Nat} {h : Halves α} {r : Progress α}
    (hr : many lt fuel patience h = some (r, rest)) : r.count p = h.count p := by
  induction fuel generalizing patience h with
  | zero => cases hr; simp [count_finish, Halves.count]; omega
  | succ fuel ih =>
    obtain ⟨left, right, merged⟩ := h
    simp only [many] at hr
    split at hr
    · cases hr; simp [count_finish, Halves.count]; omega
    · rename_i y right
      obtain ⟨k, -, hr⟩ := Option.bind_eq_some_iff.1 hr
      have hk := countP_take_drop p k left
      split at hr
      · cases hr
        simp [count_finish, Halves.count, List.countP_cons]; omega
      · split at hr
        · rename_i he
          cases hr
          rw [List.isEmpty_iff.1 he] at hk
          simp [count_finish, Halves.count, List.countP_cons] at hk ⊢; omega
        · split at hr
          · rename_i he
            cases hr
            rw [he] at hk
            simp [count_finish, Halves.count, List.countP_cons] at hk ⊢; omega
          · rename_i x left' he
            rw [he] at hk
            simp only [List.countP_cons] at hk
            split at hr
            · rename_i hn
              cases hr
              simp [count_finish, Halves.count, List.countP_cons, List.isEmpty_iff.1 hn]; omega
            · obtain ⟨j, -, hr⟩ := Option.bind_eq_some_iff.1 hr
              have hj := countP_take_drop p j right
              split at hr
              · rename_i hn
                cases hr
                rw [List.isEmpty_iff.1 hn] at hj
                simp [count_finish, Halves.count, List.countP_cons] at hj ⊢; omega
              · split at hr
                · cases hr
                  simp [count_finish, Halves.count, List.countP_cons]; omega
                · split at hr
                  · rw [ih hr]
                    simp [Halves.count, List.countP_cons]; omega
                  · cases hr
                    simp [Progress.count, Halves.count, List.countP_cons]; omega

theorem count_both {fuel patience rest : Nat} {h : Halves α} {items : List α}
    (hr : both lt fuel patience h = some (items, rest)) : items.countP p = h.count p := by
  induction fuel generalizing patience h with
  | zero => cases hr; simp [Halves.count]; omega
  | succ fuel ih =>
    obtain ⟨r, hs, hr⟩ := Option.bind_eq_some_iff.1 hr
    have h1 := count_single (p := p) hs
    split at hr
    · cases hr; exact h1
    · obtain ⟨⟨r, rest'⟩, hm, hr⟩ := Option.bind_eq_some_iff.1 hr
      have h2 := count_many (p := p) hm
      split at hr
      · rename_i he
        cases he; cases hr
        exact h2.trans h1
      · rename_i he
        cases he
        rw [ih hr]; exact h2.trans h1

end Up

theorem count_mergeUp {patience rest : Nat} {left right items : List α}
    (hr : mergeUp lt patience left right = some (items, rest)) :
    items.countP p = left.countP p + right.countP p := by
  unfold mergeUp at hr
  split at hr
  · cases hr; simp
  · split at hr
    · rename_i he
      cases hr
      simp [List.countP_cons, List.isEmpty_iff.1 he]
    · split at hr
      · cases hr; simp [List.countP_cons]; omega
      · rw [Up.count_both hr]
        simp [Halves.count, List.countP_cons]; omega

namespace Down

theorem count_finish (rest merged : List α) :
    (finish rest merged).count p = rest.countP p + merged.countP p := by
  simp [finish, Progress.count]

theorem count_single {patience fuel wonLeft wonRight : Nat} {h : Halves α} {r : Progress α}
    (hr : single lt patience fuel wonLeft wonRight h = some r) : r.count p = h.count p := by
  induction fuel generalizing wonLeft wonRight h with
  | zero => cases hr; simp [count_finish, Halves.count]; omega
  | succ fuel ih =>
    obtain ⟨left, right, merged⟩ := h
    unfold single at hr
    split at hr
    · rename_i x left y right hl hr'
      subst hl hr'
      obtain ⟨b, -, hr⟩ := Option.bind_eq_some_iff.1 hr
      split at hr
      · split at hr
        · cases hr
          rename_i he
          simp [count_finish, Halves.count, List.countP_cons, List.isEmpty_iff.1 he]; omega
        · split at hr
          · cases hr
            simp [Progress.count, Halves.count, List.countP_cons]; omega
          · rw [ih hr]
            simp [Halves.count, List.countP_cons]; omega
      · split at hr
        · cases hr
          simp [count_finish, Halves.count, List.countP_cons]; omega
        · split at hr
          · cases hr
            simp [Progress.count, Halves.count, List.countP_cons]; omega
          · rw [ih hr]
            simp [Halves.count, List.countP_cons]; omega
    · cases hr; simp [count_finish, Halves.count]; omega

theorem count_many {fuel patience rest : Nat} {h : Halves α} {r : Progress α}
    (hr : many lt fuel patience h = some (r, rest)) : r.count p = h.count p := by
  induction fuel generalizing patience h with
  | zero => cases hr; simp [count_finish, Halves.count]; omega
  | succ fuel ih =>
    obtain ⟨left, right, merged⟩ := h
    simp only [many] at hr
    split at hr
    · cases hr; simp [count_finish, Halves.count]
    · rename_i y right
      obtain ⟨g, -, hr⟩ := Option.bind_eq_some_iff.1 hr
      have hk := countP_take_drop p (left.length - g) left
      split at hr
      · rename_i he
        cases hr
        rw [he] at hk
        simp [count_finish, Halves.count, List.countP_cons] at hk ⊢; omega
      · rename_i x left' he
        rw [he] at hk
        simp only [List.countP_cons] at hk
        split at hr
        · cases hr
          simp [count_finish, Halves.count, List.countP_cons]; omega
        · obtain ⟨g', -, hr⟩ := Option.bind_eq_some_iff.1 hr
          have hj := countP_take_drop p (right.length - g') right
          split at hr
          · rename_i hn
            cases hr
            rw [List.isEmpty_iff.1 hn] at hj
            simp [count_finish, Halves.count, List.countP_cons] at hj ⊢; omega
          · split at hr
            · cases hr
              simp [count_finish, Halves.count, List.countP_cons]; omega
            · split at hr
              · rename_i hn
                cases hr
                rw [List.isEmpty_iff.1 hn] at hk
                simp [count_finish, Halves.count, List.countP_cons] at hk ⊢; omega
              · split at hr
                · rw [ih hr]
                  simp [Halves.count, List.countP_cons]; omega
                · cases hr
                  simp [Progress.count, Halves.count, List.countP_cons]; omega

theorem count_both {fuel patience rest : Nat} {h : Halves α} {items : List α}
    (hr : both lt fuel patience h = some (items, rest)) : items.countP p = h.count p := by
  induction fuel generalizing patience h with
  | zero => cases hr; simp [Halves.count]; omega
  | succ fuel ih =>
    obtain ⟨r, hs, hr⟩ := Option.bind_eq_some_iff.1 hr
    have h1 := count_single (p := p) hs
    split at hr
    · cases hr; exact h1
    · obtain ⟨⟨r, rest'⟩, hm, hr⟩ := Option.bind_eq_some_iff.1 hr
      have h2 := count_many (p := p) hm
      split at hr
      · rename_i he
        cases he; cases hr
        exact h2.trans h1
      · rename_i he
        cases he
        rw [ih hr]; exact h2.trans h1

end Down

theorem count_mergeDown {patience rest : Nat} {left right items : List α}
    (hr : mergeDown lt patience left right = some (items, rest)) :
    items.countP p = left.countP p + right.countP p := by
  have hl : left.reverse.countP p = left.countP p := List.countP_reverse
  unfold mergeDown at hr
  split at hr
  · rename_i he
    cases hr
    rw [he, List.countP_nil] at hl
    omega
  · rename_i x before he
    rw [he] at hl
    simp only [List.countP_cons] at hl
    split at hr
    · rename_i hn
      cases hr
      rw [List.isEmpty_iff.1 hn] at hl
      simp [List.countP_cons] at hl ⊢; omega
    · split at hr
      · cases hr; simp [List.countP_cons]; omega
      · rw [Down.count_both hr]
        simp [Halves.count, List.countP_cons]; omega

/-! ## Runs -/

theorem count_mergeRuns {patience rest : Nat} {left right items : List α}
    (hr : mergeRuns lt patience left right = some (items, rest)) :
    items.countP p = left.countP p + right.countP p := by
  unfold mergeRuns at hr
  split at hr
  · cases hr; simp
  · rename_i y tail
    obtain ⟨k, -, hr⟩ := Option.bind_eq_some_iff.1 hr
    have hk := countP_take_drop p k left
    dsimp only at hr
    split at hr
    · rename_i he
      cases hr
      rw [List.getLast?_eq_none_iff.1 he] at hk
      simp at hk ⊢; omega
    · obtain ⟨j, -, hr⟩ := Option.bind_eq_some_iff.1 hr
      have hj := countP_take_drop p j (y :: tail)
      split at hr
      · rename_i hn
        cases hr
        rw [List.isEmpty_iff.1 hn] at hj
        simp at hj ⊢; omega
      · split at hr
        · obtain ⟨⟨merged, rest'⟩, hm, hr⟩ := Option.bind_eq_some_iff.1 hr
          cases hr
          have := count_mergeUp (p := p) hm
          simp only [List.countP_append]; omega
        · obtain ⟨⟨merged, rest'⟩, hm, hr⟩ := Option.bind_eq_some_iff.1 hr
          cases hr
          have := count_mergeDown (p := p) hm
          simp only [List.countP_append]; omega

theorem count_runBehind {falling : Bool} {last : α} {items run after : List α}
    (hr : runBehind lt falling last items = some (run, after)) :
    run.countP p + after.countP p = items.countP p := by
  induction items generalizing last run after with
  | nil => cases hr; rfl
  | cons x rest ih =>
    obtain ⟨b, -, hr⟩ := Option.bind_eq_some_iff.1 hr
    split at hr
    · obtain ⟨⟨run', after'⟩, hb, hr⟩ := Option.bind_eq_some_iff.1 hr
      cases hr
      have := ih hb
      simp only [List.countP_cons]; omega
    · cases hr; simp

theorem count_firstRun {items run after : List α} (hr : firstRun lt items = some (run, after)) :
    run.countP p + after.countP p = items.countP p := by
  unfold firstRun at hr
  split at hr
  · cases hr; rfl
  · cases hr; simp
  · obtain ⟨falling, -, hr⟩ := Option.bind_eq_some_iff.1 hr
    obtain ⟨⟨run', after'⟩, hb, hr⟩ := Option.bind_eq_some_iff.1 hr
    have h1 := count_runBehind (p := p) hb
    cases hr
    split <;> simp only [List.countP_reverse, List.countP_cons] <;> omega

theorem count_insertAll {sorted items r : List α} (hr : insertAll lt sorted items = some r) :
    r.countP p = sorted.countP p + items.countP p := by
  induction items generalizing sorted with
  | nil => cases hr; simp
  | cons x rest ih =>
    obtain ⟨place, -, hr⟩ := Option.bind_eq_some_iff.1 hr
    have hs := countP_take_drop p place sorted
    rw [ih hr]
    simp only [List.countP_append, List.countP_cons]; omega

/-- The number of items in runs that wait. -/
def held (p : α → Bool) : List (Pending α) → Nat
  | [] => 0
  | r :: runs => r.items.countP p + held p runs

theorem countP_runs (runs : List (Pending α)) :
    (runs.reverse.flatMap Pending.items).countP p = held p runs := by
  induction runs with
  | nil => rfl
  | cons r runs ih =>
    rw [List.reverse_cons, List.flatMap_append, List.countP_append, ih, List.flatMap_singleton, held]
    omega

theorem count_merge {patience rest : Nat} {left right run : Pending α}
    (hr : left.merge lt patience right = some (run, rest)) :
    run.items.countP p = left.items.countP p + right.items.countP p := by
  obtain ⟨⟨items, rest'⟩, hm, hr⟩ := Option.bind_eq_some_iff.1 hr
  cases hr
  exact count_mergeRuns hm

theorem count_settle {depth fuel patience rest : Nat} {runs settled : List (Pending α)}
    (hr : settle lt depth fuel patience runs = some (settled, rest)) :
    held p settled = held p runs := by
  induction fuel generalizing patience runs with
  | zero => cases hr; rfl
  | succ fuel ih =>
    rcases runs with _ | ⟨last, _ | ⟨before, runs⟩⟩
    · cases hr; rfl
    · cases hr; rfl
    · rw [settle] at hr
      split at hr
      · obtain ⟨⟨run, rest'⟩, hm, hr⟩ := Option.bind_eq_some_iff.1 hr
        have := count_merge (p := p) hm
        rw [ih hr]
        simp only [held]; omega
      · cases hr; rfl

theorem count_collapse {fuel patience : Nat} {runs : List (Pending α)} {items : List α}
    (hr : collapse lt fuel patience runs = some items) : items.countP p = held p runs := by
  induction fuel generalizing patience runs with
  | zero => cases hr; exact countP_runs runs
  | succ fuel ih =>
    rcases runs with _ | ⟨last, _ | ⟨middle, _ | ⟨first, runs⟩⟩⟩
    · cases hr; exact countP_runs _
    · cases hr; exact countP_runs _
    · rw [collapse] at hr
      obtain ⟨⟨run, rest'⟩, hm, hr⟩ := Option.bind_eq_some_iff.1 hr
      have := count_merge (p := p) hm
      rw [ih hr]
      simp only [held]; omega
    · rw [collapse] at hr
      split at hr
      · obtain ⟨⟨run, rest'⟩, hm, hr⟩ := Option.bind_eq_some_iff.1 hr
        have := count_merge (p := p) hm
        rw [ih hr]
        simp only [held]; omega
      · obtain ⟨⟨run, rest'⟩, hm, hr⟩ := Option.bind_eq_some_iff.1 hr
        have := count_merge (p := p) hm
        rw [ih hr]
        simp only [held]; omega

theorem count_sortRuns {n least fuel patience start : Nat} {runs : List (Pending α)}
    {rest items : List α} (hr : sortRuns lt n least fuel patience start runs rest = some items) :
    items.countP p = held p runs + rest.countP p := by
  induction fuel generalizing patience start runs rest with
  | zero => cases hr; rw [List.countP_append, countP_runs]
  | succ fuel ih =>
    unfold sortRuns at hr
    split at hr
    · rename_i he
      rw [count_collapse hr, List.isEmpty_iff.1 he]; rfl
    · obtain ⟨⟨run, after⟩, hf, hr⟩ := Option.bind_eq_some_iff.1 hr
      have h1 := count_firstRun (p := p) hf
      obtain ⟨run', hi, hr⟩ := Option.bind_eq_some_iff.1 hr
      have h2 := count_insertAll (p := p) hi
      have h3 := countP_take_drop p (least - run.length) after
      split at hr
      · rw [ih hr]
        simp only [held]; omega
      · obtain ⟨⟨settled, rest'⟩, hs, hr⟩ := Option.bind_eq_some_iff.1 hr
        have h4 := count_settle (p := p) hs
        split at hr
        · rename_i he
          cases he
          rw [ih hr]
          simp only [held] at h4 ⊢; omega
        · rename_i he
          cases he
          rw [ih hr]
          simp only [held] at h4 ⊢; omega

/-- An adaptive sort that ends returns the items it was given. -/
theorem perm_adaptiveSort {items sorted : List α} (h : adaptiveSort lt items = some sorted) :
    sorted.Perm items := by
  classical
  rw [List.perm_iff_count]
  intro a
  have := count_sortRuns (p := (· == a)) h
  simpa [held, List.count] using this

end TreeDelta.Sorting
