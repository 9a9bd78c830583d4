import TreeDelta.Proofs.Delta.Enumeration
import TreeDelta.Report.Delta
/-!
# What a report goes through

A report goes down the delta by itself, with the text of the path so far, and takes the keys of a tree by
their texts; the list of changes takes them as they compare. A report is the blocks of the changes that a
walk meets in the order of the texts (`Report.delta_eq_blocks`). Where all keys are texts the two orders are
one (`steps_byText`), so the report is the blocks of the listed changes, each at its path, and the summary
counts the same list (`Report.printed_as_listed`).
-/

namespace TreeDelta

namespace Report

open Delta

/-! ## The walk of a report -/

/-- Keys go by their texts. -/
def byText : Arrangement where
  fields entries := entries.mergeSort fun a b => Text.le a.1.plain b.1.plain
  elements vs := vs.mergeSort fun a b => Text.le a.plain b.plain

/-- The text of a path that starts at another; the root has a slash. -/
def pathText (start : Text) (path : List Key) : Text :=
  let text := start ++ Text.joined (path.map fun k => "/" ++ k.plain)
  if text = [] then "/" else text

/-- Blocks up to the first step that cannot be printed. -/
def blocks (style : Style) (start : Text) : List Step → Text × Option Fault
  | [] => ([], none)
  | (path, met) :: rest =>
    match met.bind (block style (pathText start path)) with
    | .ok text =>
      let (more, fault) := blocks style start rest
      (text ++ more, fault)
    | .error fault => ([], some fault)

theorem pathText_nil (start : Text) : pathText start [] = (if start = [] then "/" else start : Text) := by
  simp [pathText, Text.joined]

theorem pathText_cons (start : Text) (k : Key) (path : List Key) :
    pathText start (k :: path) = pathText (below start k) path := by
  simp [pathText, below, Text.joined]

section
variable (style : Style)

theorem blocks_under (start : Text) (k : Key) (steps : List Step) :
    blocks style start (under k steps) = blocks style (below start k) steps := by
  induction steps with
  | nil => rfl
  | cons step rest ih =>
    obtain ⟨path, met⟩ := step
    rw [under] at ih
    rw [under, List.map_cons, blocks, blocks, pathText_cons, ih]

theorem blocks_append (start : Text) (first rest : List Step) (more : List (Text × Option Fault))
    (h : blocks style start rest = inTurn more) :
    blocks style start (first ++ rest) = inTurn (blocks style start first :: more) := by
  induction first with
  | nil => simp [blocks, inTurn, h]
  | cons step steps ih =>
    obtain ⟨path, met⟩ := step
    rw [List.cons_append, blocks, blocks, ih]
    cases met.bind (block style (pathText start path)) with
    | error fault => rfl
    | ok text =>
      obtain ⟨printed, fault⟩ := blocks style start steps
      cases fault <;> simp [inTurn]

theorem blocks_flatMap {α : Type} (start : Text) (f : α → List Step) (xs : List α) :
    blocks style start (xs.flatMap f) = inTurn (xs.map fun x => blocks style start (f x)) := by
  induction xs with
  | nil => rfl
  | cons x xs ih => rw [List.flatMap_cons, List.map_cons, blocks_append style start _ _ _ ih]

theorem itemNamed_map {α β : Type} (f : α → β) (v : Value) (items : List α) (element : Value) :
    itemNamed v (items.map f) element = (itemNamed v items element).map fun (k, a) => (k, f a) := by
  unfold itemNamed
  split
  · rename_i k i _ _
    have item : itemAt? (items.map f) i = (itemAt? items i).map f := by
      simp only [itemAt?, List.length_map, List.getElem?_map]
      split
      · rfl
      · split <;> rfl
    rw [item]
    cases itemAt? items i <;> rfl
  · rfl

theorem stray_eq_blocks (start : Text) (v : Value) (items : List (List Step)) :
    stray start v (items.map fun steps path => blocks style path steps) =
      blocks style start (straySteps byText v items) := by
  unfold stray straySteps
  cases v.elements? with
  | none => rfl
  | some elements =>
    dsimp only
    rw [blocks_flatMap]
    congr 1
    refine List.map_congr_left fun element _ => ?_
    rw [itemNamed_map]
    cases itemNamed v items element with
    | error fault => rfl
    | ok named => exact (blocks_under style start named.1 named.2).symm

mutual
/-- The report of a delta is the blocks of what a walk over it meets, keys taken by their texts. -/
theorem delta_eq_blocks (path : Text) : ∀ d : Delta, delta style path d = blocks style path (d.steps byText)
  | .nothing => by rw [delta, steps]; rfl
  | .node c => by
    rw [delta, steps, blocks, pathText_nil]
    simp only [Except.bind]
    cases block style (if path = [] then "/" else path) c <;> simp [blocks]
  | .tree entries => by
    have sorted := List.map_mergeSort (r := fun a b => Text.le a.1.plain b.1.plain)
      (s := fun a b => Text.le a.1.plain b.1.plain) (l := stepsIn byText entries)
      (f := fun (entry : Key × List Step) => (entry.1, blocks style (below path entry.1) entry.2))
      fun _ _ _ _ => rfl
    rw [delta, steps, blocks_flatMap, deltasBelow_eq path entries, ← sorted, List.map_map]
    simp only [blocks_under]
    rfl
  | .other v items => by rw [delta, steps, deltasOf_eq items, stray_eq_blocks]

theorem deltasBelow_eq (path : Text) : ∀ entries : List (Key × Delta), deltasBelow style path entries =
    (stepsIn byText entries).map fun entry => (entry.1, blocks style (below path entry.1) entry.2)
  | [] => by rw [deltasBelow, stepsIn]; rfl
  | (k, d) :: rest => by
    rw [deltasBelow, stepsIn, List.map_cons, delta_eq_blocks (below path k) d, deltasBelow_eq path rest]

theorem deltasOf_eq : ∀ items : List Delta, deltasOf style items =
    (stepsOf byText items).map fun steps path => blocks style path steps
  | [] => by rw [deltasOf, stepsOf]; rfl
  | d :: rest => by
    rw [deltasOf, stepsOf, List.map_cons, deltasOf_eq rest]
    congr 1
    funext path
    exact delta_eq_blocks path d
end

end

end Report

namespace Delta

variable {Q : Change → Prop} {d : Delta}

/-- Keys that are texts are met in the order of the texts. -/
theorem steps_byText (h : d.Consists Key.IsText Q) : d.steps Report.byText = d.steps .sorted := by
  induction h with
  | nothing | node => rw [steps, steps]
  | @tree entries keys below ih =>
    have inner : stepsIn Report.byText entries = stepsIn .sorted entries := by
      rw [stepsIn_eq_map, stepsIn_eq_map]
      refine List.map_congr_left ?_
      rintro ⟨k, d⟩ hm
      exact congrArg (k, ·) (ih k d hm)
    have texts : ∀ k below, (k, below) ∈ stepsIn .sorted entries → k.IsText := by
      intro k below hm
      obtain ⟨d, hd, -⟩ := mem_stepsIn.1 hm
      exact keys k d hd
    have order : Arrangement.sorted.fields (stepsIn .sorted entries) =
        Report.byText.fields (stepsIn .sorted entries) := by
      change sortedFields _ = _
      rw [sortedFields, sortFields?_of_texts texts]
      rfl
    rw [steps, steps, inner, order]

/-- A walk comes to no path twice. -/
theorem nodup_paths {a : Arrangement} (ha : a.Permutes) (h : d.stray? = none) (hk : d.Keyed) :
    ((d.steps a).map (·.1)).Nodup :=
  List.pairwise_map.2 ((steps_part ha h hk).imp Part.ne)

end Delta

namespace Report

open Delta

/-- The text of a change's path. -/
def location (path : List Key) : Text := "/" ++ Text.intercalate "/" (path.map Key.plain)

/-- How many of the changes are of a kind. -/
def tallyOf (kind : ChangeKind) (nodes : List (List Key × Change)) : Nat :=
  nodes.countP fun (_, c) => c.kind? = some kind

variable {nodes : List (List Key × Change)}

theorem permutes_byText : byText.Permutes := fun _ => List.mergeSort_perm _ _

theorem pathText_root (path : List Key) : pathText [] path = location path := by
  have slashes : ∀ (k : Key) (rest : List Key),
      Text.joined ((k :: rest).map fun k => "/" ++ k.plain) = location (k :: rest) := by
    intro k rest
    induction rest generalizing k with
    | nil => simp [location, Text.joined, Text.intercalate]
    | cons l rest ih =>
      have := ih l
      simp only [location, Text.joined, Text.intercalate, List.map_cons, List.flatten_cons,
        List.intersperse_cons_cons] at this ⊢
      rw [this]
      simp [List.append_assoc]
  cases path with
  | nil => rfl
  | cons k rest =>
    rw [pathText, List.nil_append, slashes]
    exact if_neg (by simp [location, Text.ofString, Text.ofChars])

theorem exists_block (style : Style) (path : Text) {c : Change} (h : c.kind?.isSome = true) :
    ∃ text, block style path c = .ok text := by
  obtain ⟨kind, hk⟩ := Option.isSome_iff_exists.1 h
  simp only [block, hk]
  cases kind <;> exact ⟨_, rfl⟩

/-- Changes of known kinds are printed block by block. -/
theorem blocks_stepsOver (style : Style) (start : Text) (h : ∀ p c, (p, c) ∈ nodes → c.kind?.isSome = true) :
    ∃ texts, (nodes.mapM fun node => block style (pathText start node.1) node.2) = .ok texts ∧
      blocks style start (stepsOver nodes) = (Text.joined texts, none) := by
  induction nodes with
  | nil => exact ⟨[], rfl, rfl⟩
  | cons node rest ih =>
    obtain ⟨p, c⟩ := node
    obtain ⟨text, ht⟩ := exists_block style (pathText start p) (h p c (by simp))
    obtain ⟨texts, hm, hb⟩ := ih fun q d hq => h q d (by simp [hq])
    refine ⟨text :: texts, ?_, ?_⟩
    · rw [List.mapM_cons, ht, hm]
      rfl
    · rw [stepsOver] at hb
      rw [stepsOver, List.map_cons, blocks, hb]
      simp only [Except.bind, ht]
      rfl

theorem tally_stepsOver (n : Counts) (h : ∀ p c, (p, c) ∈ nodes → c.kind?.isSome = true) :
    (stepsOver nodes).foldlM (fun n (_, met) => do n.tally (← met)) n =
      .ok ⟨n.added + tallyOf .add nodes, n.changed + tallyOf .change nodes,
        n.removed + tallyOf .remove nodes⟩ := by
  induction nodes generalizing n with
  | nil => rfl
  | cons node rest ih =>
    obtain ⟨p, c⟩ := node
    obtain ⟨kind, hk⟩ := Option.isSome_iff_exists.1 (h p c (by simp))
    have step : n.tally c = .ok (n.count kind) := by rw [Counts.tally, hk]
    have hrest := ih (n.count kind) fun q d hq => h q d (by simp [hq])
    rw [stepsOver] at hrest
    rw [stepsOver, List.map_cons, List.foldlM_cons]
    simp only [bind, Except.bind, step] at hrest ⊢
    rw [hrest]
    cases kind <;> simp [Counts.count, tallyOf, hk] <;> omega

/-- The report of a delta is the blocks of its changes, in the order in which they are listed and each
at its path, and the summary counts the changes of this list by kind. Every change stands in the list,
and no place twice. -/
theorem printed_as_listed {d : Delta}
    (h : d.Consists Key.IsText fun c => c.kind?.isSome = true) (style : Style) :
    ∃ nodes texts, d.changes = .ok nodes ∧ (∀ p c, (p, c) ∈ nodes ↔ d.Stands p c) ∧
      (d.Keyed → (nodes.map (·.1)).Nodup) ∧
      (nodes.mapM fun node => block style (location node.1) node.2) = .ok texts ∧
      delta style "" d = (Text.joined texts, none) ∧
      summary style d = .ok (style.marks.info ++ toString (tallyOf .add nodes) ++ " added, " ++
        toString (tallyOf .change nodes) ++ " changed, " ++
        toString (tallyOf .remove nodes) ++ " removed" ++ style.marks.reset ++ "\n") := by
  obtain ⟨nodes, hsteps, stands⟩ := steps_listed permutes_sorted h.stray_none
  have kinds : ∀ p c, (p, c) ∈ nodes → c.kind?.isSome = true :=
    fun p c hm => (h.stands ((stands p c).1 hm)).2
  obtain ⟨texts, hm, hb⟩ := blocks_stepsOver style [] kinds
  have count := tally_stepsOver {} kinds
  simp only [Nat.zero_add] at count
  refine ⟨nodes, texts, ?_, stands, fun keyed => ?_, ?_, ?_, ?_⟩
  · rw [changes, hsteps, mapM_stepsOver]
  · have paths := nodup_paths permutes_sorted h.stray_none keyed
    rw [hsteps, stepsOver, List.map_map] at paths
    exact paths
  · simpa only [pathText_root] using hm
  · rw [delta_eq_blocks, steps_byText h, hsteps]
    exact hb
  · rw [summary, Delta.count, hsteps, count]
    rfl

/-- Two changes on different levels, one of them below the empty key. -/
theorem printed_as_listed_of_empty_key :
    let d : Delta := .tree [(.str "b", .tree [(.str "", .node (.of .add .absent (.int 1)))]),
      (.str "a", .node (.of .remove (.str "x") .absent))]
    (d.Consists Key.IsText fun c => c.kind?.isSome = true) ∧ d.Keyed ∧
      ∃ nodes texts, d.changes = .ok nodes ∧ (∀ p c, (p, c) ∈ nodes ↔ d.Stands p c) ∧
        (nodes.map (·.1)).Nodup ∧
        (nodes.mapM fun node => block (.of .standard true false) (location node.1) node.2) = .ok texts ∧
        delta (.of .standard true false) "" d = (Text.joined texts, none) := by
  intro d
  have inner : (Delta.tree [(.str "", .node (.of .add .absent (.int 1)))]).Consists Key.IsText
      fun c => c.kind?.isSome = true :=
    .tree (Fields.forall_cons.2 ⟨⟨_, rfl⟩, by simp⟩)
      (Fields.forall_cons.2 ⟨.node (by rw [Change.kind?_of]; rfl), by simp⟩)
  have consists : d.Consists Key.IsText fun c => c.kind?.isSome = true :=
    .tree (Fields.forall_cons.2 ⟨⟨_, rfl⟩, Fields.forall_cons.2 ⟨⟨_, rfl⟩, by simp⟩⟩)
      (Fields.forall_cons.2 ⟨inner, Fields.forall_cons.2 ⟨.node (by rw [Change.kind?_of]; rfl), by simp⟩⟩)
  have keyed : d.Keyed :=
    throughout_tree (by decide) (Fields.forall_cons.2
      ⟨throughout_tree (by decide) (Fields.forall_cons.2 ⟨throughout_node _ _, by simp⟩),
        Fields.forall_cons.2 ⟨throughout_node _ _, by simp⟩⟩)
  obtain ⟨nodes, texts, changes, stands, paths, blocks, report, -⟩ :=
    printed_as_listed consists (.of .standard true false)
  exact ⟨consists, keyed, nodes, texts, changes, stands, paths keyed, blocks, report⟩

end Report

end TreeDelta
