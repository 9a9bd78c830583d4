import Mathlib.Tactic.MkIffOfInductiveProp
import TreeDelta.Program.Disk
import TreeDelta.Proofs.Except
/-!
# Reading what has been written

Writing a file changes what is at its place and nothing else (`textAt?_put`), and whatever could be
reached before is still reached (`locate_put`). A name under which a file can be written leads to
that file (`locate_of_placeFor`), so what is written under a name is read under it.
-/

namespace TreeDelta

namespace Disk

variable {disk : Disk} {name text : Text} {place other : Location}

/-! ## Parts of names -/

/-- The name is one part that leads on, and every system accepts it. -/
@[mk_iff]
structure IsBare (name : Text) : Prop where
  encoded : (nameBytes? name).isNone = false
  without_zero : Sign.char '\x00' ∉ name
  short : isLongerThan 255 name = false
  relative : name.startsWith "/" = false
  one_part : name.splitOn (.char '/') = [name]
  ne_nil : name ≠ []
  ne_dot : name ≠ "."
  ne_dots : name ≠ ".."

instance : DecidablePred IsBare := fun name => decidable_of_iff _ (isBare_iff name).symm

theorem step_empty (h : disk.isDirectory place = true) : disk.step place [] = .ok place := by
  simp [step, h]

theorem step_bare (hd : disk.isDirectory place = true) (h : IsBare name) :
    disk.step place name = .ok (place ++ [name]) := by
  simp only [step, hd, h.short, h.ne_nil, h.ne_dot, h.ne_dots, or_self, Bool.not_true,
    Bool.false_eq_true, if_false]

theorem isLongerThan_mono {most most' : Nat} (hle : most ≤ most') (h : isLongerThan most name = false) :
    isLongerThan most' name = false := by
  unfold isLongerThan at h ⊢
  cases hb : nameBytes? name with
  | none => simp [hb] at h
  | some bytes =>
    simp only [hb, Option.all_some, decide_eq_false_iff_not, Nat.not_lt] at h ⊢
    omega

theorem partsOf_bare (h : IsBare name) : disk.partsOf name = .ok (disk.working, [name]) := by
  have hlong : isLongerThan 4095 name = false := isLongerThan_mono (by omega) h.short
  simp only [partsOf, h.encoded, h.without_zero, h.ne_nil, hlong, h.relative, h.one_part,
    Bool.false_eq_true, if_false]

theorem isDirectory_working (disk : Disk) : disk.isDirectory disk.working = true := by
  simp [isDirectory]

theorem isDirectory_root (disk : Disk) : disk.isDirectory [] = true := by
  simp [isDirectory]

theorem isDirectory_dev (disk : Disk) : disk.isDirectory ["dev"] = true := by
  have hin : ((["dev"] : Location).length < nullPlace.length &&
      List.isPrefixOf (["dev"] : Location) nullPlace) = true := by decide
  simp only [isDirectory, List.any_cons, hin, Bool.true_or, Bool.or_true]

theorem locate_nullFile (disk : Disk) : disk.locate nullFile = .ok nullPlace := by
  have hparts : disk.partsOf nullFile = .ok ([], ["", "dev", "null"]) := by
    have hbytes : (nameBytes? nullFile).isNone = false := by decide
    have hzero : Sign.char '\x00' ∉ nullFile := by decide
    have hempty : nullFile ≠ [] := by decide
    have hlong : isLongerThan 4095 nullFile = false := by decide +kernel
    have hroot : Text.startsWith nullFile "/" = true := by decide
    have hsplit : Text.splitOn (.char '/') nullFile = (["", "dev", "null"] : List Text) := by decide
    simp only [partsOf, hbytes, hzero, hempty, hlong, hroot, hsplit, Bool.false_eq_true, if_false, if_true]
  have hempty : disk.step [] "" = .ok [] := step_empty disk.isDirectory_root
  have hdev : disk.step [] "dev" = .ok ["dev"] := step_bare disk.isDirectory_root (by decide +kernel)
  have hnull : disk.step ["dev"] "null" = .ok nullPlace := step_bare disk.isDirectory_dev (by decide +kernel)
  simp only [locate, hparts, bind, Except.bind, follow, List.foldlM_cons, hempty, hdev, hnull, List.foldlM_nil]
  rfl

/-! ## Files that hold a text -/

/-- The name leads to a file with the text, which is not the null file. -/
def Keeps (disk : Disk) (name text : Text) : Prop :=
  ∃ place, disk.locate name = .ok place ∧ place ≠ nullPlace ∧ disk.textAt? place = some text

theorem Keeps.ne_nullFile (h : disk.Keeps name text) : name ≠ nullFile := by
  rintro rfl
  obtain ⟨place, hplace, hne, -⟩ := h
  rw [locate_nullFile] at hplace
  cases hplace
  exact hne rfl

theorem Keeps.read (h : disk.Keeps name text) : disk.read name = .ok text := by
  obtain ⟨place, hplace, -, htext⟩ := h
  simp only [Disk.read, hplace, bind, Except.bind, htext]

theorem Keeps.unique {found : Text} (h : disk.Keeps name text) (h' : disk.Keeps name found) :
    text = found := Except.ok.inj (h.read.symm.trans h'.read)

theorem Keeps.contains (h : disk.Keeps name text) : disk.contains name = true := by
  obtain ⟨place, hplace, -, htext⟩ := h
  simp [Disk.contains, hplace, htext]

/-! ## What a write changes -/

theorem lookup_map (files : List (Location × Text)) (place other : Location) (text : Text)
    (h : (files.lookup place).isSome = true) :
    (files.map fun (q, old) => (q, if q = place then text else old)).lookup other =
      if other = place then some text else files.lookup other := by
  by_cases ho : other = place
  · subst ho
    rw [if_pos rfl]
    induction files with
    | nil => cases h
    | cons file files ih =>
      obtain ⟨q, old⟩ := file
      rw [List.map_cons, List.lookup_cons]
      by_cases hq : q = other
      · simp [hq]
      · rw [List.lookup_cons, beq_eq_false_iff_ne.2 (Ne.symm hq)] at h
        simp only [beq_eq_false_iff_ne.2 (Ne.symm hq)]
        exact ih h
  · rw [if_neg ho]
    clear h
    induction files with
    | nil => rfl
    | cons file files ih =>
      obtain ⟨q, old⟩ := file
      rw [List.map_cons, List.lookup_cons, List.lookup_cons, ih]
      by_cases hq : other = q
      · simp [hq, hq ▸ ho]
      · simp [beq_eq_false_iff_ne.2 hq]

theorem lookup_append (files : List (Location × Text)) (place other : Location) (text : Text)
    (h : files.lookup place = none) :
    (files ++ [(place, text)]).lookup other =
      if other = place then some text else files.lookup other := by
  rw [List.lookup_append]
  by_cases ho : other = place
  · rw [if_pos ho, ho, h]
    simp
  · rw [if_neg ho, List.lookup_cons, beq_eq_false_iff_ne.2 ho]
    simp

/-- After a write its place holds the text, and all other files hold what they held. -/
theorem textAt?_put (disk : Disk) (h : place ≠ nullPlace) (other : Location) (text : Text) :
    (disk.put place text).textAt? other = if other = place then some text else disk.textAt? other := by
  have hplace : disk.textAt? place = disk.files.lookup place := if_neg h
  have hlookup : (disk.put place text).files.lookup other =
      if other = place then some text else disk.files.lookup other := by
    unfold put
    rw [if_neg h, hplace]
    split
    · exact lookup_map _ _ _ _ ‹_›
    · exact lookup_append _ _ _ _ (Option.not_isSome_iff_eq_none.1 ‹¬ _›)
  by_cases ho : other = nullPlace
  · rw [textAt?, if_pos ho, if_neg (fun e : other = place => h (e ▸ ho)), textAt?, if_pos ho]
  · rw [textAt?, if_neg ho, hlookup, textAt?, if_neg ho]

@[simp] theorem working_put (disk : Disk) (place : Location) (text : Text) :
    (disk.put place text).working = disk.working := by
  unfold put
  split
  · rfl
  · split <;> rfl

/-- A write makes directories of those places only that lie on the way to its own. -/
theorem isDirectory_put (disk : Disk) (place other : Location) (text : Text) :
    (disk.put place text).isDirectory other =
      (disk.isDirectory other || (decide (other.length < place.length) && other.isPrefixOf place)) := by
  have habsorb : place ∈ nullPlace :: disk.files.map (·.1) → disk.isDirectory other =
      (disk.isDirectory other || (decide (other.length < place.length) && other.isPrefixOf place)) := by
    intro hm
    cases hp : decide (other.length < place.length) && other.isPrefixOf place with
    | false => rw [Bool.or_false]
    | true =>
      have hany : ((nullPlace :: disk.files.map (·.1)).any fun q =>
          other.length < q.length && other.isPrefixOf q) = true := List.any_eq_true.2 ⟨place, hm, hp⟩
      rw [Bool.or_true, isDirectory, hany, Bool.or_true]
  unfold put
  split
  · rename_i h
    exact habsorb (by simp [h])
  · rename_i h
    split
    · rename_i hsome
      have hm : place ∈ nullPlace :: disk.files.map (·.1) := by
        rw [textAt?, if_neg h] at hsome
        obtain ⟨file, hfile, hplace⟩ := List.lookup_isSome_iff.1 hsome
        exact List.mem_cons_of_mem _ (List.mem_map.2 ⟨file, hfile, (eq_of_beq hplace).symm⟩)
      rw [← habsorb hm]
      simp [isDirectory, Function.comp_def]
    · simp [isDirectory, Bool.or_assoc]

/-! ## Where names lead -/

theorem isDirectory_of_step {part : Text} {next : Location} (h : disk.step place part = .ok next) :
    disk.isDirectory place = true := by
  by_contra hn
  rw [step, if_pos (by simpa using hn)] at h
  cases h

/-- Empty parts lead nowhere, as long as one that is not empty follows. -/
theorem follow_filter {parts : List Text} {last : Location} (hlast : parts.getLast? ≠ some [])
    (h : disk.follow place (parts.filter (· ≠ [])) = .ok last) : disk.follow place parts = .ok last := by
  induction parts generalizing place with
  | nil => exact h
  | cons part parts ih =>
    have hrest : parts.getLast? ≠ some [] := by
      cases parts with
      | nil => simp
      | cons => rwa [List.getLast?_cons_cons] at hlast
    by_cases hp : part = []
    · subst hp
      rw [List.filter_cons_of_neg (by simp)] at h
      obtain ⟨part, more, hmore⟩ : ∃ part more, parts.filter (· ≠ []) = part :: more := by
        refine List.exists_cons_of_ne_nil fun hnil => ?_
        cases hg : parts.getLast? with
        | none =>
          rw [List.getLast?_eq_none_iff] at hg
          subst hg
          exact hlast rfl
        | some q =>
          have hq : q ∈ parts.filter (· ≠ []) :=
            List.mem_filter.2 ⟨List.mem_of_getLast? hg, by simpa using fun e : q = [] => hrest (e ▸ hg)⟩
          rw [hnil] at hq
          cases hq
      have hd : disk.isDirectory place = true := by
        have hfirst := h
        rw [hmore, follow] at hfirst
        obtain ⟨next, hnext, -⟩ := foldlM_cons_ok.1 hfirst
        exact isDirectory_of_step hnext
      exact foldlM_cons_ok.2 ⟨place, step_empty hd, ih hrest h⟩
    · rw [List.filter_cons_of_pos (by simpa using hp)] at h
      obtain ⟨next, hnext, h⟩ := foldlM_cons_ok.1 h
      exact foldlM_cons_ok.2 ⟨next, hnext, ih hrest h⟩

/-- What it takes to write a file of a name. -/
theorem placeFor_ok : disk.placeFor name = .ok place ↔
    ∃ start parts directory, disk.partsOf name = .ok (start, parts) ∧
      disk.follow start (parts.filter (· ≠ [])).dropLast = .ok directory ∧
      disk.step directory ((parts.filter (· ≠ [])).getLast?.getD []) = .ok place ∧
      parts.getLast? ≠ some [] ∧ disk.isDirectory place = false := by
  simp only [placeFor, bind_eq_ok, Prod.exists]
  refine exists_congr fun start => exists_congr fun parts => ?_
  constructor
  · rintro ⟨hparts, directory, hfollow, last, hstep, h⟩
    split at h
    · cases h
    · rename_i hn
      cases h
      obtain ⟨hlast, hd⟩ := not_or.1 hn
      exact ⟨directory, hparts, hfollow, hstep, hlast, by simpa using hd⟩
  · rintro ⟨directory, hparts, hfollow, hstep, hlast, hd⟩
    refine ⟨hparts, directory, hfollow, place, hstep, if_neg ?_⟩
    rintro (h | h)
    · exact hlast h
    · rw [hd] at h
      cases h

/-- Where a file of a name can be written, there the name leads. -/
theorem locate_of_placeFor (h : disk.placeFor name = .ok place) : disk.locate name = .ok place := by
  obtain ⟨start, parts, directory, hparts, hfollow, hstep, hlast, hd⟩ := placeFor_ok.1 h
  have hall : disk.follow start (parts.filter (· ≠ [])) = .ok place := by
    cases hsteps : (parts.filter (· ≠ [])).getLast? with
    | none =>
      -- a name without parts would lead to a directory
      rw [hsteps, Option.getD_none] at hstep
      have hdir := isDirectory_of_step hstep
      rw [step_empty hdir, Except.ok.injEq] at hstep
      rw [hstep, hd] at hdir
      cases hdir
    | some part =>
      rw [hsteps, Option.getD_some] at hstep
      rw [← List.dropLast_append_getLast? part hsteps]
      exact foldlM_append_ok.2 ⟨directory, hfollow, foldlM_cons_ok.2 ⟨place, hstep, rfl⟩⟩
  exact bind_eq_ok.2 ⟨(start, parts), hparts, follow_filter hlast hall⟩

/-! ## Where names lead after a write -/

theorem step_put {part : Text} {next : Location} (h : disk.step other part = .ok next)
    (place : Location) (text : Text) : (disk.put place text).step other part = .ok next := by
  have hd := isDirectory_of_step h
  have hd' : (disk.put place text).isDirectory other = true := by rw [isDirectory_put, hd, Bool.true_or]
  simp only [step, hd, hd', Bool.not_true, Bool.false_eq_true, if_false] at h ⊢
  exact h

theorem follow_put {parts : List Text} {last : Location} (h : disk.follow other parts = .ok last)
    (place : Location) (text : Text) : (disk.put place text).follow other parts = .ok last := by
  induction parts generalizing other with
  | nil => exact h
  | cons part parts ih =>
    obtain ⟨next, hnext, h⟩ := foldlM_cons_ok.1 h
    exact foldlM_cons_ok.2 ⟨next, step_put hnext place text, ih h⟩

theorem partsOf_put (disk : Disk) (name : Text) (place : Location) (text : Text) :
    (disk.put place text).partsOf name = disk.partsOf name := by
  simp only [partsOf, working_put]

/-- A name leads where it led before. -/
theorem locate_put (h : disk.locate name = .ok other) (place : Location) (text : Text) :
    (disk.put place text).locate name = .ok other := by
  obtain ⟨⟨start, parts⟩, hparts, h⟩ := bind_eq_ok.1 h
  exact bind_eq_ok.2 ⟨(start, parts), (partsOf_put disk name place text).trans hparts, follow_put h place text⟩

/-- A file can be written again under its name. -/
theorem placeFor_put (h : disk.placeFor name = .ok place) (text : Text) :
    (disk.put place text).placeFor name = .ok place := by
  obtain ⟨start, parts, directory, hparts, hfollow, hstep, hlast, hd⟩ := placeFor_ok.1 h
  refine placeFor_ok.2 ⟨start, parts, directory, ?_, ?_, ?_, hlast, ?_⟩
  · rw [partsOf_put, hparts]
  · exact follow_put hfollow place text
  · exact step_put hstep place text
  · rw [isDirectory_put, hd]
    simp

/-! ## Names of one part -/

theorem locate_bare (h : IsBare name) : disk.locate name = .ok (disk.working ++ [name]) :=
  bind_eq_ok.2 ⟨_, partsOf_bare h, foldlM_cons_ok.2 ⟨_, step_bare disk.isDirectory_working h, rfl⟩⟩

/-- A file of such a name can be written unless a directory has it. -/
theorem placeFor_bare (h : IsBare name) (hd : disk.isDirectory (disk.working ++ [name]) = false) :
    disk.placeFor name = .ok (disk.working ++ [name]) := by
  have hparts : [name].filter (· ≠ []) = [name] := by simp [h.ne_nil]
  refine placeFor_ok.2 ⟨_, _, disk.working, partsOf_bare h, ?_, ?_, by simpa using h.ne_nil, hd⟩
  · rw [hparts]
    rfl
  · rw [hparts]
    exact step_bare disk.isDirectory_working h

/-! ## Files that are written -/

/-- A file of the name can be written, and will be kept. -/
def Offers (disk : Disk) (name : Text) : Prop :=
  ∃ place, disk.placeFor name = .ok place ∧ place ≠ nullPlace

/-- The file of the name is emptied and then gets the text. -/
def Writes (disk : Disk) (name text : Text) (after : Disk) : Prop :=
  ∃ place, disk.placeFor name = .ok place ∧ after = (disk.put place []).put place text

variable {after : Disk} {found : Text}

theorem writes_put (h : disk.placeFor name = .ok place) (text : Text) :
    disk.Writes name text ((disk.put place []).put place text) := ⟨place, h, rfl⟩

/-- Whatever was reached is still reached. -/
theorem Writes.locate (h : disk.Writes name text after) {name : Text} {place : Location}
    (hl : disk.locate name = .ok place) : after.locate name = .ok place := by
  obtain ⟨q, -, rfl⟩ := h
  exact locate_put (locate_put hl q []) q text

theorem Writes.locate_self (h : disk.Writes name text after) (hp : disk.placeFor name = .ok place) :
    after.locate name = .ok place := h.locate (locate_of_placeFor hp)

theorem Writes.textAt? (h : disk.Writes name text after) (hp : disk.placeFor name = .ok place)
    (hnull : place ≠ nullPlace) (other : Location) :
    after.textAt? other = if other = place then some text else disk.textAt? other := by
  obtain ⟨q, hq, rfl⟩ := h
  rw [hp] at hq
  cases hq
  rw [textAt?_put _ hnull, textAt?_put _ hnull]
  split <;> rfl

/-- What has been written is there. -/
theorem Writes.keeps (h : disk.Writes name text after) (ho : disk.Offers name) : after.Keeps name text := by
  obtain ⟨place, hplace, hnull⟩ := ho
  exact ⟨place, h.locate_self hplace, hnull, by rw [h.textAt? hplace hnull, if_pos rfl]⟩

/-- What is found where a text has been written is that text. -/
theorem Writes.keeps_self (h : disk.Writes name text after) (hk : after.Keeps name found) :
    found = text := by
  have ⟨place, hplace, _⟩ := h
  obtain ⟨q, hq, hnull, hfound⟩ := hk
  rw [h.locate_self hplace] at hq
  cases hq
  rw [h.textAt? hplace hnull, if_pos rfl] at hfound
  exact (Option.some.inj hfound).symm

/-- All other names keep what they kept. -/
theorem Writes.keeps_other (h : disk.Writes name text after) {other : Text} {place : Location}
    (hother : disk.locate other = .ok place) (hne : after.locate name ≠ after.locate other) :
    after.Keeps other found ↔ disk.Keeps other found := by
  have hl := h.locate hother
  have ⟨p, hp, hafter⟩ := h
  have hpq : place ≠ p := by
    rintro rfl
    exact hne ((h.locate_self hp).trans hl.symm)
  have htext : after.textAt? place = disk.textAt? place := by
    by_cases hnull : p = nullPlace
    · have hput : ∀ (disk : Disk) (t : Text), disk.put p t = disk := fun disk t => if_pos hnull
      rw [hafter, hput, hput]
    · rw [h.textAt? hp hnull, if_neg hpq]
  simp only [Keeps, hl, hother, Except.ok.injEq, exists_eq_left', htext]

end Disk

end TreeDelta
