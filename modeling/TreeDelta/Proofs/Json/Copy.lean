import TreeDelta.Proofs.Delta.Listing
import TreeDelta.Proofs.Equality
import TreeDelta.Proofs.Json.Read
/-!
# Values that come back

`Value.IsJson` is the data that JSON text holds, and `Value.Copy` what a value becomes on the way:
other objects, the entries of mappings in another order, and the rest as it was. A value of the
first kind has a document (`toJson_holds`), and what the text of it is read as is a copy of the
value (`readJson_written`).
-/

namespace TreeDelta

/-- A name that comes back when it is read. -/
def Key.IsName (k : Key) : Prop := ∃ s, k = .str s ∧ Text.Unpaired s

theorem Key.IsName.isText {k : Key} (h : k.IsName) : k.IsText :=
  let ⟨s, hs, _⟩ := h
  ⟨s, hs⟩

namespace Value

/-- Data of JSON: scalars other than NaN, lists, and mappings from names. -/
inductive IsJson : Value → Prop
  | null : IsJson null
  | bool (b : Bool) : IsJson (bool b)
  | int {i : Int} (short : Json.Short i) : IsJson (int i)
  | float (x : Double) : IsJson (float x)
  | str {s : Text} (unpaired : Text.Unpaired s) : IsJson (str s)
  | list {id : Ident} {items : List Value} (below : ∀ v ∈ items, IsJson v) : IsJson (list id items)
  | map {id : Ident} {fields : List (Key × Value)} (distinct : Fields.Distinct fields)
      (names : ∀ k v, (k, v) ∈ fields → k.IsName) (below : ∀ k v, (k, v) ∈ fields → IsJson v) :
      IsJson (map id fields)

/-- The second value is the first one again, up to what objects its containers are and the order of
entries. -/
inductive Copy : Value → Value → Prop
  | null : Copy null null
  | bool (b : Bool) : Copy (bool b) (bool b)
  | int (i : Int) : Copy (int i) (int i)
  | float (x : Double) : Copy (float x) (float x)
  | str (s : Text) : Copy (str s) (str s)
  | list {i j : Ident} {as bs : List Value} (length : as.length = bs.length)
      (below : ∀ (n : Nat) (a b : Value), as[n]? = some a → bs[n]? = some b → Copy a b) :
      Copy (list i as) (list j bs)
  | map {i j : Ident} {as bs : List (Key × Value)} (left : Fields.Distinct as)
      (right : Fields.Distinct bs)
      (keys : ∀ k, (Fields.get? k as).isSome = (Fields.get? k bs).isSome)
      (below : ∀ k a b, Fields.get? k as = some a → Fields.get? k bs = some b → Copy a b) :
      Copy (map i as) (map j bs)

/-! ## Copies -/

theorem copy_list {i j : Ident} {as bs : List Value} (h : List.Forall₂ Copy as bs) :
    Copy (list i as) (list j bs) := by
  refine .list h.length_eq fun n a b ha hb => ?_
  obtain ⟨hn, rfl⟩ := List.getElem?_eq_some_iff.1 ha
  obtain ⟨hm, rfl⟩ := List.getElem?_eq_some_iff.1 hb
  exact h.get hn hm

theorem copy_map {i j : Ident} {as bs : List (Key × Value)} (ha : Fields.Distinct as)
    (hb : Fields.Distinct bs) (h : ∀ k, Option.Rel Copy (Fields.get? k as) (Fields.get? k bs)) :
    Copy (map i as) (map j bs) := by
  refine .map ha hb (fun k => ?_) fun k a b hka hkb => ?_
  · have hk := h k
    generalize Fields.get? k as = a at hk
    generalize Fields.get? k bs = b at hk
    cases hk <;> rfl
  · have hk := h k
    rw [hka, hkb] at hk
    cases hk with
    | some hab => exact hab

theorem Copy.items {i : Ident} {as : List Value} {w : Value} (h : Copy (.list i as) w) :
    ∃ j bs, w = .list j bs ∧ List.Forall₂ Copy as bs := by
  cases h with
  | @list _ j _ bs length below =>
    refine ⟨j, bs, rfl, List.forall₂_iff_get.2 ⟨length, fun n hn hm => ?_⟩⟩
    exact below n _ _ (List.getElem?_eq_getElem hn) (List.getElem?_eq_getElem hm)

theorem Copy.fields {i : Ident} {as : List (Key × Value)} {w : Value} (h : Copy (.map i as) w) :
    ∃ j bs, w = .map j bs ∧ Fields.Distinct bs ∧
      ∀ k, Option.Rel Copy (Fields.get? k as) (Fields.get? k bs) := by
  cases h with
  | @map _ j _ bs left right keys below =>
    refine ⟨j, bs, rfl, right, fun k => ?_⟩
    have hk := keys k
    cases ha : Fields.get? k as with
    | none =>
      rw [ha, Option.isSome_none] at hk
      rw [Option.isSome_eq_false_iff.1 hk.symm |> Option.isNone_iff_eq_none.1]
      exact .none
    | some a =>
      rw [ha, Option.isSome_some] at hk
      obtain ⟨b, hb⟩ := Option.isSome_iff_exists.1 hk.symm
      rw [hb]
      exact .some (below k a b ha hb)

theorem equalItems_of {as bs : List Value}
    (h : List.Forall₂ (fun a b => equalItem a b = true) as bs) : equalItems as bs = true := by
  induction h with
  | nil => rw [equalItems]
  | cons hab _ ih => rw [equalItems, hab, ih]; rfl

/-- A copy is equal to the value. -/
theorem Copy.equal {a b : Value} (h : Copy a b) : a.equal b = true := by
  induction h with
  | list length below ih =>
    rw [Value.equal]
    refine equalItems_of (List.forall₂_iff_get.2 ⟨length, fun n hn hm => ?_⟩)
    exact equalItem_iff.2 (Or.inr (ih n _ _ (List.getElem?_eq_getElem hn) (List.getElem?_eq_getElem hm)))
  | map left right keys _ ih =>
    refine (equal_map left right).2 ⟨keys, fun k a b hka hkb => ?_⟩
    exact equalItem_iff.2 (Or.inr (ih k a b hka hkb))
  | _ => simp [Value.equal, numeric?, number?]

/-- What a value is a copy of is a copy of it. -/
theorem Copy.symm {a b : Value} (h : Copy a b) : Copy b a := by
  induction h with
  | list length _ ih => exact .list length.symm fun n b a hb ha => ih n a b ha hb
  | map left right keys _ ih =>
    exact .map right left (fun k => (keys k).symm) fun k b a hkb hka => ih k a b hka hkb
  | null => exact .null
  | bool b => exact .bool b
  | int i => exact .int i
  | float x => exact .float x
  | str s => exact .str s

end Value

/-! ## Indentation -/

/-- The indentation is none, or a number that fits into a word. -/
def FitsIndent (indent : Option Int) : Prop := ∀ n, indent = some n → -2 ^ 63 ≤ n ∧ n < 2 ^ 63

theorem checkIndent_ok {indent : Option Int} : checkIndent indent = .ok () ↔ FitsIndent indent := by
  cases indent with
  | none => simp [checkIndent, FitsIndent]
  | some n =>
    have h63 : ((Nat.pow 2 63 : Nat) : Int) = 2 ^ 63 := rfl
    simp only [checkIndent, h63, FitsIndent, Option.some.injEq, forall_eq']
    split
    · simp; omega
    · simp; omega

/-! ## Documents of values -/

namespace Json

/-- The document holds the value: it can be read back, as a copy of the value. -/
structure Holds (v : Value) (j : Json) : Prop where
  readable : j.Readable
  copy : ∀ run place, v.Copy (.ofJson run place j)

/-- Entries whose keys are names have an order by key. -/
theorem exists_sorted {α : Type} {fields : List (Key × α)}
    (h : ∀ k a, (k, a) ∈ fields → k.IsName) :
    ∃ sorted, sortFields? fields = some sorted ∧ sorted.Perm fields := by
  have hsort := sortFields?_of_texts fun k a hm => (h k a hm).isText
  exact ⟨_, hsort, perm_sortBy hsort⟩

/-- Entries as the members of an object, whose names are their keys. -/
def named (members : List (Text × Json)) : List (Key × Json) :=
  members.map fun (name, j) => (.str name, j)

theorem memberNames {fields : List (Key × Json)} (h : ∀ k j, (k, j) ∈ fields → k.IsName) :
    ∃ members, (fields.mapM fun (k, j) => k.memberName.map fun name => (name, j)) = .ok members ∧
      named members = fields := by
  induction fields with
  | nil => exact ⟨[], rfl, rfl⟩
  | cons f fields ih =>
    obtain ⟨k, j⟩ := f
    obtain ⟨s, rfl, -⟩ := h k j (by simp)
    obtain ⟨members, hm, hn⟩ := ih fun l i hl => h l i (by simp [hl])
    refine ⟨(s, j) :: members, ?_, ?_⟩
    · rw [List.mapM_cons, hm]
      rfl
    · rw [← hn]
      rfl

theorem memberOrder_named {fields : List (Key × Json)} (h : ∀ k j, (k, j) ∈ fields → k.IsName) :
    ∃ members, memberOrder true fields = .ok members ∧ (named members).Perm fields := by
  obtain ⟨sorted, hs, hp⟩ := exists_sorted h
  obtain ⟨members, hm, hn⟩ := memberNames fun k j hj => h k j (hp.mem_iff.1 hj)
  refine ⟨members, ?_, hn ▸ hp⟩
  rw [memberOrder, if_pos rfl, hs]
  exact hm

/-- The value is what the document stands for, in some place. -/
def Stands (j : Json) (v : Value) : Prop := ∃ run place, v = .ofJson run place j

theorem ofMembers_rel (run : Nat) (place : List Key) (n : Nat) (members : List (Text × Json)) :
    List.Forall₂ (fun f g => f.1 = g.1 ∧ Stands f.2 g.2) (named members)
      (Value.ofMembers run place n members) := by
  induction members generalizing n with
  | nil => exact .nil
  | cons m members ih => exact .cons ⟨rfl, run, _, rfl⟩ (ih (n + 1))

theorem distinct_named {members : List (Text × Json)} :
    Fields.Distinct (named members) ↔ (members.map (·.1)).Nodup := by
  have hkeys : (Fields.keys (named members)).map Key.canon = (members.map (·.1)).map Key.str := by
    simp [Fields.keys, named, Key.canon]
  rw [Fields.Distinct, hkeys, List.nodup_map_iff fun s t h => Key.str.inj h]

theorem mem_named {members : List (Text × Json)} {name : Text} {j : Json} :
    (Key.str name, j) ∈ named members ↔ (name, j) ∈ members := by
  simp [named]

end Json

namespace Value

open Json (Holds named)

theorem toJsonItems_holds {items : List Value}
    (h : ∀ v ∈ items, ∃ j, v.toJson true = .ok j ∧ Holds v j) :
    ∃ js, toJsonItems true items = .ok js ∧ List.Forall₂ Holds items js := by
  induction items with
  | nil => exact ⟨[], rfl, .nil⟩
  | cons v items ih =>
    obtain ⟨j, hj, hv⟩ := h v (by simp)
    obtain ⟨js, hjs, hvs⟩ := ih fun w hw => h w (by simp [hw])
    refine ⟨j :: js, ?_, .cons hv hvs⟩
    rw [toJsonItems, hj, hjs]
    rfl

theorem toJsonFields_holds {fields : List (Key × Value)}
    (h : ∀ k v, (k, v) ∈ fields → ∃ j, v.toJson true = .ok j ∧ Holds v j) :
    ∃ js, toJsonFields true fields = .ok js ∧
      List.Forall₂ (fun f g => f.1 = g.1 ∧ Holds f.2 g.2) fields js := by
  induction fields with
  | nil => exact ⟨[], rfl, .nil⟩
  | cons f fields ih =>
    obtain ⟨k, v⟩ := f
    obtain ⟨j, hj, hv⟩ := h k v (by simp)
    obtain ⟨js, hjs, hvs⟩ := ih fun l w hw => h l w (by simp [hw])
    refine ⟨(k, j) :: js, ?_, .cons ⟨rfl, hv⟩ hvs⟩
    rw [toJsonFields, hj, hjs]
    rfl

theorem ofItems_copy {items : List Value} {js : List Json} (h : List.Forall₂ Holds items js)
    (run : Nat) (place : List Key) (n : Nat) :
    List.Forall₂ Copy items (Value.ofItems run place n js) := by
  induction h generalizing n with
  | nil => exact .nil
  | cons hv _ ih => exact .cons (hv.copy run _) (ih (n + 1))

theorem holds_list {id : Ident} {items : List Value} {js : List Json}
    (h : List.Forall₂ Holds items js) : Holds (.list id items) (.arr js) := by
  refine ⟨.arr fun j hj => ?_, fun run place => copy_list (ofItems_copy h run place 0)⟩
  induction h with
  | nil => cases hj
  | cons hv _ ih =>
    rcases List.mem_cons.1 hj with rfl | hj
    · exact hv.readable
    · exact ih hj

/-- The members of an object, in whatever order, hold the entries of a mapping. -/
theorem holds_map {id : Ident} {fields : List (Key × Value)} (hd : Fields.Distinct fields)
    (hn : ∀ k v, (k, v) ∈ fields → k.IsName) {js : List (Key × Json)}
    (h : List.Forall₂ (fun f g => f.1 = g.1 ∧ Holds f.2 g.2) fields js) {members : List (Text × Json)}
    (hp : (named members).Perm js) : Holds (.map id fields) (.obj members) := by
  have hkeys := Fields.keys_rel h
  have hdj : Fields.Distinct js := by rwa [Fields.Distinct, ← hkeys]
  have hdm : Fields.Distinct (named members) := Fields.distinct_perm hp hdj
  -- the entry of a name among the members
  have hget : ∀ name j, (name, j) ∈ members →
      ∃ v, Fields.get? (.str name) fields = some v ∧ Holds v j := by
    intro name j hm
    have hj : Fields.get? (.str name) js = some j :=
      Fields.get?_of_mem hdj (hp.mem_iff.1 (Json.mem_named.2 hm))
    have hrel := Fields.get?_rel h (.str name)
    rw [hj] at hrel
    cases hrel' : Fields.get? (.str name) fields with
    | none => rw [hrel'] at hrel; cases hrel
    | some v =>
      rw [hrel'] at hrel
      cases hrel with
      | some hv => exact ⟨v, rfl, hv⟩
  refine ⟨.obj (Json.distinct_named.1 hdm) (fun name j hm => ?_) fun name j hm => ?_, fun run place => ?_⟩
  · obtain ⟨v, hv, -⟩ := hget name j hm
    obtain ⟨k, hk, hs⟩ := Fields.exists_mem_of_get? hv
    obtain ⟨s, rfl, hu⟩ := hn k v hk
    cases Key.same_iff.1 hs
    exact hu
  · obtain ⟨v, -, hv⟩ := hget name j hm
    exact hv.readable
  · have hvalues := Json.ofMembers_rel run place 0 members
    have hdv : Fields.Distinct (Value.ofMembers run place 0 members) := by
      rwa [Fields.Distinct, ← Fields.keys_rel hvalues]
    refine copy_map hd hdv fun k => ?_
    have h1 := Fields.get?_rel h k
    have h2 := Fields.get?_rel hvalues k
    rw [Fields.get?_perm hdj hp] at h2
    generalize Fields.get? k fields = written at h1
    generalize Fields.get? k js = found at h1 h2
    generalize Fields.get? k (Value.ofMembers run place 0 members) = got at h2
    cases h1 with
    | none => cases h2; exact .none
    | some hv =>
      cases h2 with
      | some hw =>
        obtain ⟨run', place', rfl⟩ := hw
        exact .some (hv.copy run' place')

theorem checkDigits_short {i : Int} (h : Json.Short i) : checkDigits i = .ok () := by
  have hlength : (toString i.natAbs).length = (Nat.toDigits 10 i.natAbs).length := by
    rw [Nat.toString_eq_ofList_toDigits, String.length_ofList]
  have : ¬ Text.mostDigits < (toString i.natAbs).length := by
    rw [hlength]
    exact Nat.not_lt.2 h
  rw [checkDigits, if_neg this]

/-- Data of JSON has a document. -/
theorem toJson_holds {v : Value} (h : v.IsJson) : ∃ j, v.toJson true = .ok j ∧ Holds v j := by
  induction h with
  | null => exact ⟨.null, rfl, .null, fun _ _ => .null⟩
  | bool b => exact ⟨.bool b, rfl, .bool b, fun _ _ => .bool b⟩
  | @int i short =>
    refine ⟨.int i, ?_, .int short, fun _ _ => .int i⟩
    rw [toJson, checkDigits_short short]
    rfl
  | float x => exact ⟨.float x, rfl, .float x, fun _ _ => .float x⟩
  | @str s unpaired => exact ⟨.str s, rfl, .str unpaired, fun _ _ => .str s⟩
  | list _ ih =>
    obtain ⟨js, hjs, hall⟩ := toJsonItems_holds ih
    refine ⟨.arr js, ?_, holds_list hall⟩
    rw [toJson, hjs]
    rfl
  | map distinct names _ ih =>
    obtain ⟨js, hjs, hall⟩ := toJsonFields_holds ih
    have hnames : ∀ k j, (k, j) ∈ js → k.IsName := by
      intro k j hm
      have hk : k ∈ Fields.keys js := List.mem_map_of_mem (f := (·.1)) hm
      rw [← Fields.keys_rel hall] at hk
      obtain ⟨⟨l, v⟩, hl, rfl⟩ := List.mem_map.1 hk
      exact names l v hl
    obtain ⟨members, hm, hp⟩ := Json.memberOrder_named hnames
    refine ⟨.obj members, ?_, holds_map distinct names hall hp⟩
    rw [toJson, hjs]
    simp only [bind, Except.bind, hm]

/-! ## Text -/

/-- Data of JSON can be written, and what the text is read as is a copy of it. -/
theorem readJson_written {v : Value} (h : v.IsJson) {indent : Option Int} (hi : FitsIndent indent) :
    ∃ text, writeJson indent v = .ok text ∧
      ∀ run, ∃ w, readJson run text = .ok w ∧ v.Copy w := by
  obtain ⟨j, hj, hv⟩ := toJson_holds h
  refine ⟨Json.text indent j ++ "\n", ?_, fun run => ⟨.ofJson run [] j, ?_, hv.copy run []⟩⟩
  · rw [writeJson, jsonText, checkIndent_ok.2 hi, hj]
    rfl
  · rw [readJson, Json.parse_text hv.readable]

/-- What has been written is read as a copy of the data. -/
theorem readJson_of_written {v : Value} (h : v.IsJson) {indent : Option Int} {text : Text}
    (hw : writeJson indent v = .ok text) (run : Nat) : ∃ w, readJson run text = .ok w ∧ v.Copy w := by
  have hi : FitsIndent indent := by
    cases hc : checkIndent indent with
    | ok => exact checkIndent_ok.1 hc
    | error f =>
      rw [writeJson, jsonText, hc] at hw
      cases hw
  obtain ⟨text', htext, hread⟩ := readJson_written h hi
  rw [hw] at htext
  cases htext
  exact hread run

end Value

end TreeDelta
