import TreeDelta.Proofs.Update.Idempotent
/-!
# A command at the end of a path

`Command.along` wraps a command in a descent for each key of a path, as the shortcuts do; keys are never
read as operations there. It succeeds where the path is open (`Slot.OpenTo`) and the command succeeds on
what stands at its end. Then the end holds what the command leaves (`Does.at_end`), every place apart from
the path is as it was (`Does.apart_along`), and what changed is told at the path alone (`exists_carried`).
-/

namespace TreeDelta

/-- One gets down the path: a mapping, null or nothing stands at each place on it, short of its end. -/
inductive Slot.OpenTo : Slot → List Key → Prop where
  | here (slot : Slot) : OpenTo slot []
  | down {slot : Slot} {fields : List (Key × Value)} {k : Key} {path : List Key}
      (opens : slot.Opens fields) (rest : OpenTo (slot.child k) path) : OpenTo slot (k :: path)

/-- Neither path is a prefix of the other. -/
def Key.Apart (p q : List Key) : Prop :=
  ¬ p.map Key.canon <+: q.map Key.canon ∧ ¬ q.map Key.canon <+: p.map Key.canon

instance (p q : List Key) : Decidable (Key.Apart p q) := inferInstanceAs (Decidable (_ ∧ _))

theorem Key.Apart.tail {k l : Key} {p q : List Key} (h : Apart (k :: p) (l :: q))
    (hs : l.same k = true) : Apart p q := by
  simpa [Apart, List.cons_prefix_cons, Key.same_iff.1 hs] using h

/-- A delta at the end of a path. -/
def Delta.along (path : List Key) (d : Delta) : Delta := path.foldr (fun k inner => .tree [(k, inner)]) d

theorem Delta.along_isNothing {d : Delta} (h : d.isNothing = false) (path : List Key) :
    (along path d).isNothing = false := by
  cases path with
  | nil => exact h
  | cons k path => rfl

/-- The path to something is open. -/
theorem Slot.openTo_of_at {path : List Key} :
    ∀ {slot : Slot} {v : Value}, slot.at_ path = some v → slot.OpenTo path := by
  induction path with
  | nil => intro slot v _; exact .here slot
  | cons k path ih =>
    intro slot v h
    obtain ⟨id, fields, rfl⟩ := exists_map_of_at h
    exact .down (.mapping rfl) (ih h)

namespace Command

/-- The command at the end of a path. -/
def along (path : List Key) (c : Command) : Command :=
  path.foldr (fun k inner => .descend [(k, inner)]) c

theorem along_cons (k : Key) (path : List Key) (c : Command) :
    along (k :: path) c = .descend [(k, along path c)] := rfl

theorem parse_nest {v : Value} {c : Command} (h : ∀ trail, parse trail v = .ok c) (path : List Key) :
    ∀ trail, parse trail (nest path v) = .ok (along path c) := by
  induction path with
  | nil => exact h
  | cons k path ih =>
    intro trail
    have e : nest (k :: path) v = .descend (.map default [(k, nest path v)]) := rfl
    rw [e, parse, parseChildren, ih]
    rfl

/-! ## What is done below a path -/

variable {call : Functions} {run : Nat} {c : Command} {path : List Key} {slot : Slot} {o : Outcome}

/-- A descent into one key does there what its child does, and nothing elsewhere. -/
theorem Does.single {k : Key} (h : (descend [(k, c)]).Does call slot o) :
    (∃ p, c.Does call (slot.child k) p ∧ Slot.child (o.after slot) k = p.after (slot.child k)) ∧
      ∀ l, l.same k = false → Slot.child (o.after slot) l = slot.child l := by
  have hd : Fields.Distinct [(k, c)] := Fields.distinct_single k _
  refine ⟨?_, fun l hl => (h.other hd (by simp [Fields.get?_cons, hl])).1⟩
  obtain ⟨p, hp, e, -⟩ := h.child hd (k := k) (c := c) (by simp [Fields.get?_cons])
  exact ⟨p, hp, e⟩

theorem Does.openTo (h : (along path c).Does call slot o) : slot.OpenTo path := by
  induction path generalizing slot o with
  | nil => exact .here slot
  | cons k path ih =>
    obtain ⟨fields, hopen⟩ := h.opens
    obtain ⟨⟨p, hp, -⟩, -⟩ := h.single
    exact .down hopen (ih hp)

/-- The path stays open. -/
theorem Does.openTo_after (h : (along path c).Does call slot o) : Slot.OpenTo (o.after slot) path := by
  induction path generalizing slot o with
  | nil => exact .here _
  | cons k path ih =>
    obtain ⟨⟨p, hp, e⟩, -⟩ := h.single
    obtain ⟨run, place, trail, key, ha⟩ := h
    obtain ⟨fields, hopen⟩ := exists_opens_after ha
    exact .down hopen (e ▸ ih hp)

theorem Does.at_end (h : (along path c).Does call slot o) :
    ∃ p, c.Does call (slot.at_ path) p ∧ Slot.at_ (o.after slot) path = p.after (slot.at_ path) := by
  induction path generalizing slot o with
  | nil => exact ⟨o, h, rfl⟩
  | cons k path ih =>
    obtain ⟨⟨p, hp, e⟩, -⟩ := h.single
    obtain ⟨q, hq, e'⟩ := ih hp
    exact ⟨q, hq, by rw [Slot.at_cons, e]; exact e'⟩

theorem Does.apart_along {q : List Key} (h : (along path c).Does call slot o) (hq : Key.Apart path q) :
    Slot.at_ (o.after slot) q = slot.at_ q := by
  induction path generalizing slot o q with
  | nil => exact absurd (List.nil_prefix) hq.1
  | cons k path ih =>
    cases q with
    | nil => exact absurd (List.nil_prefix) hq.2
    | cons l q =>
      obtain ⟨⟨p, hp, e⟩, other⟩ := h.single
      rw [Slot.at_cons, Slot.at_cons]
      cases hs : l.same k with
      | true =>
        rw [Slot.child_congr hs, Slot.child_congr hs, e]
        exact ih hp (hq.tail hs)
      | false => rw [other l hs]

theorem can_along (hopen : slot.OpenTo path) (h : c.Can call (slot.at_ path)) :
    (along path c).Can call slot := by
  induction hopen with
  | here => exact h
  | @down slot fields k path opens rest ih =>
    refine can_descend opens (Fields.distinct_single k _) fun l d hl => ?_
    rw [Fields.get?_cons] at hl
    split at hl
    · rename_i hs
      cases hl
      rw [Slot.child_congr hs]
      exact ih h
    · cases hl

/-! ## Two commands at the end of one path -/

/-- Commands that do the same at the end of a path do the same by that path. -/
theorem apply_along_congr {d : Command} {place : List Key}
    (h : ∀ trail key, c.apply call run (path.reverse ++ place) trail ⟨key, slot.at_ path⟩ =
      d.apply call run (path.reverse ++ place) trail ⟨key, slot.at_ path⟩) (trail : Trail) (key : Key) :
    (along path c).apply call run place trail ⟨key, slot⟩ =
      (along path d).apply call run place trail ⟨key, slot⟩ := by
  induction path generalizing place trail key slot with
  | nil => exact h trail key
  | cons k path ih =>
    have child := @ih (slot.child k) (k :: place) (by simpa using h) (trail ++ [k.plain]) k
    -- both descents start with the entries that the place has, if it has any
    have each : ∀ fields, slot.Opens fields →
        applyAll call run place trail (.start fields) [(k, along path c)] =
          applyAll call run place trail (.start fields) [(k, along path d)] := by
      intro fields hopen
      have hsite : (Draft.start fields).site k = ⟨k, slot.child k⟩ := by rw [hopen.child]; rfl
      rw [applyAll, applyAll, hsite, child]
    simp only [along_cons, apply, descendInto]
    split
    · rename_i fields hf
      rw [each fields]
      split at hf
      · rename_i ha; cases hf; exact .absent ha
      · exact .mapping hf
    · rfl

/-- Commands that leave one value at the end of an open path leave one value around it, and tell at the path
what they tell of its end. -/
theorem exists_carried {place : List Key} (hopen : slot.OpenTo path) (v : Value) :
    ∃ w, ∀ (c : Command) (d : Delta), d.isNothing = false →
      (∀ trail key, c.apply call run (path.reverse ++ place) trail ⟨key, slot.at_ path⟩ = .ok ⟨v, d⟩) →
      ∀ trail key, (along path c).apply call run place trail ⟨key, slot⟩ = .ok ⟨w, .along path d⟩ := by
  induction hopen generalizing place with
  | here slot => exact ⟨v, fun c d _ h => h⟩
  | @down slot fields k path opens rest ih =>
    obtain ⟨w, hw⟩ := @ih (k :: place)
    refine ⟨.map ⟨run, place⟩ (Fields.put k w fields), fun c d hd h trail key => ?_⟩
    have child := hw c d hd (by simpa using h) (trail ++ [k.plain]) k
    have hall : applyAll call run place trail (.start fields) [(k, along path c)] =
        .ok ((Draft.start fields).take k ⟨w, .along path d⟩) := by
      have hsite : (Draft.start fields).site k = ⟨k, slot.child k⟩ := by rw [opens.child]; rfl
      rw [applyAll, hsite, child]
      rfl
    have hs : Slot.Opens (Site.mk key slot).slot fields := opens
    obtain ⟨source, ha⟩ := apply_descend hs hall
    rw [along_cons, ha, Draft.take, if_neg (by simp [Delta.along_isNothing hd])]
    rfl

end Command

/-! ## Updates at the end of a path -/

variable {call : Functions} {run : Nat} {source : Value} {path : List Key}

theorem Value.updateAt_eq {kind : Operation} {argument : Value} :
    Value.updateAt call run source path kind argument =
      (Command.along path (.op kind argument)).applyRoot call run source := by
  refine update_of_parse (Command.parse_nest (fun trail => ?_) path [])
  rw [Command.parse, Command.ofOp, Operation.ofValue?_name]

/-- A root that is not null is a place like any other. -/
theorem Command.applyRoot_of_present {c : Command} (h : source.isAbsent = false) :
    c.applyRoot call run source = c.apply call run [] [] ⟨rootKey, some source⟩ := by
  cases c with
  | op | unknown => rfl
  | descend children =>
    have hc : (Site.mk rootKey (some source)).current.isAbsent = false := h
    rw [applyRoot, apply, if_neg (by simp [hc])]
    rfl

end TreeDelta
