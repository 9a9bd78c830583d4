import TreeDelta.Proofs.Delta.Refused
/-!
# The list of changes is exact

A walk over a delta takes each tree's keys once, so no two of the paths that it comes to are alike and
none is the beginning of another (`Delta.steps_part`): they part at the key where the walk took two
entries. Where all keys are texts it takes them in increasing order, and so are the paths
(`Delta.steps_increase`). With `Delta.changes_listed` this says of `Delta.changes` what it lists, how
often and in which order, for deltas of any shape (`Delta.changes_enumerate`).
-/

namespace TreeDelta

namespace Delta

/-! ## Deltas of changes below keys -/

/-- A delta of changes that are `Q`, below keys that are `P`. -/
inductive Consists (P : Key → Prop) (Q : Change → Prop) : Delta → Prop where
  | nothing : Consists P Q .nothing
  | node {c : Change} (holds : Q c) : Consists P Q (.node c)
  | tree {entries : List (Key × Delta)} (keys : ∀ k d, (k, d) ∈ entries → P k)
      (below : ∀ k d, (k, d) ∈ entries → Consists P Q d) : Consists P Q (.tree entries)

variable {P : Key → Prop} {Q : Change → Prop} {d : Delta} {a : Arrangement}

theorem Consists.stray_none (h : d.Consists P Q) : d.stray? = none := by
  induction h with
  | nothing | node => rfl
  | tree _ _ ih => exact stray?_tree.2 ih

theorem Consists.stands (h : d.Consists P Q) {p : List Key} {c : Change} (hs : d.Stands p c) :
    (∀ k ∈ p, P k) ∧ Q c := by
  induction hs with
  | here => cases h with | node holds => exact ⟨by simp, holds⟩
  | down entry _ ih =>
    cases h with
    | tree keys below =>
      obtain ⟨path, change⟩ := ih (below _ _ entry)
      exact ⟨List.forall_mem_cons.2 ⟨keys _ _ entry, path⟩, change⟩

theorem Consists.mono {Q' : Change → Prop} (h : d.Consists P Q) (hQ : ∀ c, Q c → Q' c) :
    d.Consists P Q' := by
  induction h with
  | nothing => exact .nothing
  | node holds => exact .node (hQ _ holds)
  | tree keys _ ih => exact .tree keys ih

theorem stepsIn_eq_map (a : Arrangement) (entries : List (Key × Delta)) :
    stepsIn a entries = entries.map fun (k, d) => (k, d.steps a) := by
  induction entries with
  | nil => rfl
  | cons entry rest ih => rw [stepsIn, ih]; rfl

theorem distinct_stepsIn {entries : List (Key × Delta)} (distinct : Fields.Distinct entries) :
    Fields.Distinct (stepsIn a entries) := by
  have keys : Fields.keys (stepsIn a entries) = Fields.keys entries := by
    rw [stepsIn_eq_map, Fields.keys, List.map_map]
    rfl
  rwa [Fields.Distinct, keys]

theorem Keyed.of_mem {entries : List (Key × Delta)} {k : Key} (h : (tree entries).Keyed)
    (hm : (k, d) ∈ entries) : d.Keyed := by
  have := h.child k
  rwa [child_tree, Fields.get?_of_mem (h [] entries rfl) hm, Option.getD_some] at this

/-! ## Two paths of a walk -/

/-- The paths part at some key: neither is the beginning of the other, however it is spelled. -/
def Part (p q : List Key) : Prop := ∀ r, ¬ SamePath (p ++ r) q ∧ ¬ SamePath p (q ++ r)

theorem part_of_head {k l : Key} (h : k.same l = false) (p q : List Key) : Part (k :: p) (l :: q) := by
  intro r
  constructor <;>
  · intro hs
    cases hs with
    | cons same _ => rw [h] at same; cases same

theorem Part.cons {p q : List Key} (h : Part p q) (k : Key) : Part (k :: p) (k :: q) := by
  intro r
  constructor
  · intro hs
    cases hs with | cons _ rest => exact (h r).1 rest
  · intro hs
    cases hs with | cons _ rest => exact (h r).2 rest

theorem Part.ne {p q : List Key} (h : Part p q) : p ≠ q := by
  rintro rfl
  exact (h []).2 (by rw [List.append_nil]; exact List.forall₂_same.2 fun k _ => k.same_self)

/-- What holds of any two paths that go on below one key, and of any two below different entries, holds
of any two paths of a walk over a tree. -/
theorem pairwise_steps_tree {R : List Key → List Key → Prop} {entries : List (Key × Delta)}
    (ha : a.Permutes) (below : ∀ k d, (k, d) ∈ entries →
      (d.steps a).Pairwise fun x y => R (k :: x.1) (k :: y.1))
    (apart : (a.fields (stepsIn a entries)).Pairwise fun x y => ∀ p q, R (x.1 :: p) (y.1 :: q)) :
    ((tree entries).steps a).Pairwise fun x y => R x.1 y.1 := by
  rw [steps, List.pairwise_flatMap]
  constructor
  · rintro ⟨k, steps⟩ hm
    obtain ⟨d, hd, rfl⟩ := mem_stepsIn.1 ((ha _).mem_iff.1 hm)
    exact List.pairwise_map.2 (below k d hd)
  · refine apart.imp ?_
    rintro ⟨k, left⟩ ⟨l, right⟩ hR ⟨p, x⟩ hx ⟨q, y⟩ hy
    obtain ⟨p, rfl, -⟩ := mem_under.1 hx
    obtain ⟨q, rfl, -⟩ := mem_under.1 hy
    exact hR p q

/-- Any two paths of a walk part. -/
theorem steps_part (ha : a.Permutes) (h : d.stray? = none) (hk : d.Keyed) :
    (d.steps a).Pairwise fun x y => Part x.1 y.1 := by
  induction d using Delta.induction with
  | nothing => rw [steps]; exact .nil
  | node c => rw [steps]; exact List.pairwise_singleton _ _
  | tree entries ih =>
    refine pairwise_steps_tree ha (fun k d hm => ?_) ?_
    · exact (ih k d hm (stray?_tree.1 h k d hm) (hk.of_mem hm)).imp fun hp => hp.cons k
    · have distinct := Fields.distinct_perm (ha _) (distinct_stepsIn (a := a) (hk [] entries rfl))
      rw [Fields.Distinct, Fields.keys, List.map_map] at distinct
      refine (List.pairwise_map.1 distinct).imp fun {x y} hne p q => part_of_head ?_ p q
      exact decide_eq_false hne
  | other v items => rw [stray?] at h; cases h

/-- The path comes before the other, key by key. -/
def Before (p q : List Key) : Prop := List.Lex (fun k l => Key.lt? k l = some true) p q

/-- The paths of a walk that takes keys in order increase, if all keys are texts. -/
theorem steps_increase (h : d.Consists Key.IsText Q) (hk : d.Keyed) :
    (d.steps .sorted).Pairwise fun x y => Before x.1 y.1 := by
  induction h with
  | nothing => rw [steps]; exact .nil
  | node => rw [steps]; exact List.pairwise_singleton _ _
  | @tree entries keys _ ih =>
    refine pairwise_steps_tree permutes_sorted (fun k d hm => ?_) ?_
    · exact (ih k d hm (hk.of_mem hm)).imp fun hp => .cons hp
    · have texts : ∀ k below, (k, below) ∈ stepsIn .sorted entries → k.IsText := by
        intro k below hm
        obtain ⟨d, hd, -⟩ := mem_stepsIn.1 hm
        exact keys k d hd
      exact (increasing_sortedFields (distinct_stepsIn (hk [] entries rfl)) texts).imp fun hlt p q =>
        .rel hlt

/-! ## What is listed -/

variable {nodes : List (List Key × Change)}

/-- What holds of any two paths of the steps holds of any two of the changes that they meet. -/
theorem pairwise_of_steps {R : List Key → List Key → Prop} (hn : d.steps a = stepsOver nodes)
    (h : (d.steps a).Pairwise fun x y => R x.1 y.1) : nodes.Pairwise fun x y => R x.1 y.1 := by
  rw [hn, stepsOver, List.pairwise_map] at h
  exact h

/-- Changes of known kinds are counted, each once. -/
theorem exists_tally (n : Counts) (h : ∀ p c, (p, c) ∈ nodes → c.kind?.isSome = true) :
    ∃ m, (stepsOver nodes).foldlM (fun n (_, met) => do n.tally (← met)) n = .ok m ∧
      m.total = n.total + nodes.length := by
  induction nodes generalizing n with
  | nil => exact ⟨n, rfl, rfl⟩
  | cons node rest ih =>
    obtain ⟨p, c⟩ := node
    obtain ⟨kind, hk⟩ := Option.isSome_iff_exists.1 (h p c (by simp))
    have step : n.tally c = .ok (n.count kind) := by rw [Counts.tally, hk]
    obtain ⟨m, hm, ht⟩ := ih (n.count kind) fun q d hq => h q d (by simp [hq])
    refine ⟨m, ?_, ?_⟩
    · rw [stepsOver] at hm
      rw [stepsOver, List.map_cons, List.foldlM_cons]
      simp only [bind, Except.bind, step] at hm ⊢
      exact hm
    · rw [ht, Counts.total_count, List.length_cons]
      omega

/-- Which changes stand at the end of a path, whatever its spelling. -/
theorem at_node_iff (hk : d.Keyed) {p : List Key} {c : Change} :
    d.at_ p = .node c ↔ ∃ q, SamePath p q ∧ d.Stands q c := by
  refine ⟨exists_stands, ?_⟩
  rintro ⟨q, same, hs⟩
  induction hs generalizing p with
  | here => cases same; rfl
  | @down entries k d q c entry rest ih =>
    cases same with
    | @cons l _ p _ hl same =>
      rw [at_cons, child_tree, Fields.get?_congr hl, Fields.get?_of_mem (hk [] entries rfl) entry]
      exact ih (hk.of_mem entry) same

/-- The changes of a delta are listed exactly: the list holds a change with a path if and only if the path
leads to it from the root, no path of the list is the beginning of another or the same, with keys that
are texts the paths increase, and with changes of known kinds their counts add up to the length of the
list. -/
theorem changes_enumerate (h : d.stray? = none) (hk : d.Keyed) :
    ∃ nodes, d.changes = .ok nodes ∧
      (∀ p c, (p, c) ∈ nodes ↔ d.Stands p c) ∧
      (∀ p c, d.at_ p = .node c ↔ ∃ q, SamePath p q ∧ (q, c) ∈ nodes) ∧
      (nodes.Pairwise fun x y => Part x.1 y.1) ∧
      (d.Consists Key.IsText (fun _ => True) → nodes.Pairwise fun x y => Before x.1 y.1) ∧
      ((∀ p c, (p, c) ∈ nodes → c.kind?.isSome = true) →
        ∃ n, d.count = .ok n ∧ n.total = nodes.length) := by
  obtain ⟨nodes, hn, stands⟩ := steps_listed permutes_sorted h
  refine ⟨nodes, by rw [changes, hn, mapM_stepsOver], stands, fun p c => ?_, ?_, fun texts => ?_,
    fun kinds => ?_⟩
  · rw [at_node_iff hk]
    simp only [stands]
  · exact pairwise_of_steps hn (steps_part permutes_sorted h hk)
  · exact pairwise_of_steps hn (steps_increase texts hk)
  · obtain ⟨n, hc, ht⟩ := exists_tally {} kinds
    refine ⟨n, by rw [count, hn, hc], ?_⟩
    rw [ht]
    exact Nat.zero_add _

/-- Changes on three levels with an empty tree beside them; the keys of no tree come in order. -/
theorem changes_enumerate_of_nested :
    let added (n : Int) : Delta := .node (.of .add .absent (.int n))
    let deep : Delta := .tree [(.str "y", added 1), (.str "", added 2)]
    let d : Delta := .tree [(.str "b", .tree [(.str "x", deep), (.str "e", .tree [])]), (.str "a", added 3)]
    d.stray? = none ∧ d.Keyed ∧ d.Consists Key.IsText (fun c => c.kind?.isSome = true) ∧
      ∃ nodes, d.changes = .ok nodes ∧ (∀ p c, (p, c) ∈ nodes ↔ d.Stands p c) ∧
        (∀ p c, d.at_ p = .node c ↔ ∃ q, SamePath p q ∧ (q, c) ∈ nodes) ∧
        (nodes.Pairwise fun x y => Part x.1 y.1) ∧ (nodes.Pairwise fun x y => Before x.1 y.1) ∧
        ∃ n, d.count = .ok n ∧ n.total = nodes.length := by
  intro added deep d
  have text : ∀ s : Text, Key.IsText (.str s) := fun s => ⟨s, rfl⟩
  have node : ∀ n, (added n).Consists Key.IsText fun c => c.kind?.isSome = true := fun n =>
    .node (by rw [Change.kind?_of]; rfl)
  have pair : ∀ {s t : Text} {e f : Delta}, e.Consists Key.IsText (fun c => c.kind?.isSome = true) →
      f.Consists Key.IsText (fun c => c.kind?.isSome = true) →
        (tree [(.str s, e), (.str t, f)]).Consists Key.IsText fun c => c.kind?.isSome = true := by
    intro s t e f he hf
    exact .tree (Fields.forall_cons.2 ⟨text s, Fields.forall_cons.2 ⟨text t, by simp⟩⟩)
      (Fields.forall_cons.2 ⟨he, Fields.forall_cons.2 ⟨hf, by simp⟩⟩)
  have keyed_pair : ∀ {s t : Text} {e f : Delta}, s ≠ t → e.Keyed → f.Keyed →
      (tree [(.str s, e), (.str t, f)]).Keyed := by
    intro s t e f hst he hf
    refine throughout_tree ?_ (Fields.forall_cons.2 ⟨he, Fields.forall_cons.2 ⟨hf, by simp⟩⟩)
    simp [Fields.Distinct, Fields.keys, Key.canon, hst]
  have hd : d.Consists Key.IsText fun c => c.kind?.isSome = true :=
    pair (pair (pair (node 1) (node 2)) (.tree (by simp) (by simp))) (node 3)
  have keyed : d.Keyed :=
    keyed_pair (by decide) (keyed_pair (by decide)
      (keyed_pair (by decide) (throughout_node _ _) (throughout_node _ _))
      (throughout_tree .nil (by simp))) (throughout_node _ _)
  obtain ⟨nodes, listed, stands, at_, part, before, counts⟩ := changes_enumerate hd.stray_none keyed
  exact ⟨hd.stray_none, keyed, hd, nodes, listed, stands, at_, part, before (hd.mono fun _ _ => trivial),
    counts fun p c hm => (hd.stands ((stands p c).1 hm)).2⟩

end Delta

end TreeDelta
