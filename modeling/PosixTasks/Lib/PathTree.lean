import Mathlib

/-!
# Trees of nodes addressed by path

A tree is the list of its nodes, each with its path from the root and an identity that it keeps
when it is moved. The order of the list is the order in which the children of a node are
enumerated.

## Main results

* `PathTree.mem_above`: with a path all paths above it are in the tree;
* `PathTree.mem_add`, `PathTree.mem_remove`, `PathTree.mem_move`: the nodes after adding,
  removing or moving a node;
* `PathTree.mem_move_move`: moving a node back undoes the move.
-/

/-- A finite tree with edges labelled by `α` and nodes identified by `ι`. -/
structure PathTree (α ι : Type*) where
  /-- The nodes with their paths. -/
  nodes : List (List α × ι)
  /-- A path leads to one node. -/
  nodup_paths : (nodes.map Prod.fst).Nodup
  /-- A node has one path. -/
  nodup_ids : (nodes.map Prod.snd).Nodup
  /-- Above every node there is one. -/
  parent_mem : ∀ p x, p ++ [x] ∈ nodes.map Prod.fst → p ∈ nodes.map Prod.fst

namespace PathTree

variable {α ι : Type*} {t : PathTree α ι} {p q : List α} {i j : ι}

/-- The paths of the nodes. -/
def paths (t : PathTree α ι) : List (List α) :=
  t.nodes.map Prod.fst

/-- The identities of the nodes. -/
def ids (t : PathTree α ι) : List ι :=
  t.nodes.map Prod.snd

/-- The edges that lead from `p` to a node. -/
def children [DecidableEq α] (t : PathTree α ι) (p : List α) : List α :=
  t.paths.filterMap fun q => if q.dropLast = p then q.getLast? else none

/-- The node that a path leads to. -/
def idAt [DecidableEq α] (t : PathTree α ι) (p : List α) : Option ι :=
  t.nodes.lookup p

/-- The length of the longest path. -/
def depth (t : PathTree α ι) : ℕ :=
  (t.paths.map List.length).foldr max 0

/-! ## Nodes and paths -/

theorem mem_paths_of_mem (h : (p, i) ∈ t.nodes) : p ∈ t.paths :=
  List.mem_map_of_mem (f := Prod.fst) h

theorem mem_ids_of_mem (h : (p, i) ∈ t.nodes) : i ∈ t.ids :=
  List.mem_map_of_mem (f := Prod.snd) h

theorem mem_paths_iff : p ∈ t.paths ↔ ∃ i, (p, i) ∈ t.nodes := by
  simp [paths]

/-- A path leads to one node. -/
theorem id_unique (hi : (p, i) ∈ t.nodes) (hj : (p, j) ∈ t.nodes) : i = j :=
  congrArg Prod.snd (List.inj_on_of_nodup_map t.nodup_paths hi hj rfl)

/-- A node has one path. -/
theorem path_unique (hp : (p, i) ∈ t.nodes) (hq : (q, i) ∈ t.nodes) : p = q :=
  congrArg Prod.fst (List.inj_on_of_nodup_map t.nodup_ids hp hq rfl)

/-- With a path all paths above it are in the tree. -/
theorem mem_above (h : q ∈ t.paths) (hle : p <+: q) : p ∈ t.paths := by
  obtain ⟨r, rfl⟩ := hle
  induction r using List.reverseRecOn with
  | nil => simpa using h
  | append_singleton r x ih =>
    rw [← List.append_assoc] at h
    exact ih (t.parent_mem _ _ h)

theorem idAt_eq_some_iff [DecidableEq α] : t.idAt p = some i ↔ (p, i) ∈ t.nodes := by
  constructor
  · intro h
    obtain ⟨l, l', hnodes, -⟩ := List.lookup_eq_some_iff.mp h
    rw [hnodes]
    simp
  · intro h
    cases hat : t.idAt p with
    | none =>
      have := (List.lookup_eq_none_iff.mp hat) _ h
      simp at this
    | some j =>
      obtain ⟨l, l', hnodes, -⟩ := List.lookup_eq_some_iff.mp hat
      have hj : (p, j) ∈ t.nodes := by
        rw [hnodes]
        simp
      rw [id_unique h hj]

theorem idAt_eq_none_iff [DecidableEq α] : t.idAt p = none ↔ p ∉ t.paths := by
  rw [Option.eq_none_iff_forall_ne_some, mem_paths_iff]
  simp only [ne_eq, idAt_eq_some_iff, not_exists]

theorem mem_children [DecidableEq α] {x : α} : x ∈ t.children p ↔ p ++ [x] ∈ t.paths := by
  simp only [children, List.mem_filterMap, Option.ite_none_right_eq_some,
    List.getLast?_eq_some_iff]
  constructor
  · rintro ⟨_, hq, hparent, r, rfl⟩
    rw [List.dropLast_concat] at hparent
    exact hparent ▸ hq
  · intro h
    exact ⟨_, h, List.dropLast_concat, p, rfl⟩

theorem length_le_depth (h : p ∈ t.paths) : p.length ≤ t.depth := by
  rw [depth]
  generalize t.paths = l at h
  induction l with
  | nil => cases h
  | cons r l ih =>
    rw [List.map_cons, List.foldr_cons]
    rcases List.mem_cons.mp h with rfl | h
    · exact le_max_left _ _
    · exact (ih h).trans (le_max_right _ _)

/-! ## Adding, removing and moving nodes -/

/-- The tree with a root only. -/
def single (i : ι) : PathTree α ι where
  nodes := [([], i)]
  nodup_paths := List.nodup_singleton _
  nodup_ids := List.nodup_singleton _
  parent_mem p x h := by simp at h

/-- Add a node below `p`. -/
def add (t : PathTree α ι) (p : List α) (x : α) (i : ι) (hp : p ∈ t.paths)
    (hnew : p ++ [x] ∉ t.paths) (hi : i ∉ t.ids) : PathTree α ι where
  nodes := (p ++ [x], i) :: t.nodes
  nodup_paths := List.nodup_cons.mpr ⟨hnew, t.nodup_paths⟩
  nodup_ids := List.nodup_cons.mpr ⟨hi, t.nodup_ids⟩
  parent_mem q y h := by
    rw [List.map_cons, List.mem_cons] at h ⊢
    right
    rcases h with h | h
    · rw [(List.append_inj' h rfl).1]
      exact hp
    · exact t.parent_mem q y h

theorem mem_add {x : α} (hp : p ∈ t.paths) (hnew : p ++ [x] ∉ t.paths) (hi : i ∉ t.ids) :
    (q, j) ∈ (t.add p x i hp hnew hi).nodes ↔ q = p ++ [x] ∧ j = i ∨ (q, j) ∈ t.nodes := by
  simp [add]

/-- Remove the node at `p`, which has no children. -/
def remove [DecidableEq α] (t : PathTree α ι) (p : List α) (hleaf : t.children p = []) :
    PathTree α ι where
  nodes := t.nodes.filter (·.1 ≠ p)
  nodup_paths := t.nodup_paths.sublist (List.filter_sublist.map _)
  nodup_ids := t.nodup_ids.sublist (List.filter_sublist.map _)
  parent_mem q x h := by
    obtain ⟨⟨_, i⟩, hmem, rfl⟩ := List.mem_map.mp h
    have hchild : x ∈ t.children q :=
      mem_children.mpr (mem_paths_of_mem (List.mem_filter.mp hmem).1)
    obtain ⟨j, hj⟩ := mem_paths_iff.mp (t.parent_mem q x (mem_children.mp hchild))
    refine List.mem_map.mpr ⟨(q, j), List.mem_filter.mpr ⟨hj, ?_⟩, rfl⟩
    have hne : q ≠ p := by
      rintro rfl
      rw [hleaf] at hchild
      cases hchild
    simpa using hne

theorem mem_remove [DecidableEq α] (hleaf : t.children p = []) :
    (q, j) ∈ (t.remove p hleaf).nodes ↔ (q, j) ∈ t.nodes ∧ q ≠ p := by
  simp [remove]

/-- The path of a node after what is at `p` has been moved to `q`. -/
def movePath [DecidableEq α] (p q r : List α) : List α :=
  if p <+: r then q ++ r.drop p.length else r

theorem movePath_append [DecidableEq α] (p q r : List α) : movePath p q (p ++ r) = q ++ r := by
  rw [movePath, if_pos (List.prefix_append p r), List.drop_left]

theorem movePath_self [DecidableEq α] (p q : List α) : movePath p q p = q := by
  simpa using movePath_append p q []

theorem movePath_of_not_below [DecidableEq α] {r : List α} (h : ¬ p <+: r) :
    movePath p q r = r :=
  if_neg h

/-- What is at `p` may be moved to `q`: there is a node to put it under, `q` is not below `p`, and
if there is a node at `q` it has no children. -/
def CanMove [DecidableEq α] (t : PathTree α ι) (p q : List α) : Prop :=
  p ∈ t.paths ∧ q ≠ [] ∧ q.dropLast ∈ t.paths ∧ ¬ p <+: q ∧ t.children q = []

instance [DecidableEq α] (t : PathTree α ι) (p q : List α) : Decidable (t.CanMove p q) :=
  inferInstanceAs (Decidable (_ ∧ _ ∧ _ ∧ _ ∧ _))

section Move

variable [DecidableEq α]

/-- Below a node without children there is none. -/
theorem not_mem_below (hleaf : t.children q = []) {r : List α} (hr : r ≠ []) :
    q ++ r ∉ t.paths := by
  intro h
  obtain ⟨x, r', rfl⟩ := List.exists_cons_of_ne_nil hr
  have hx : x ∈ t.children q :=
    mem_children.mpr (mem_above h ⟨r', by simp⟩)
  rw [hleaf] at hx
  cases hx

/-- Different nodes are moved to different paths. -/
theorem movePath_inj (hmove : t.CanMove p q) {r r' : List α} (hr : r ∈ t.paths)
    (hr' : r' ∈ t.paths) (hne : r ≠ q) (hne' : r' ≠ q)
    (h : movePath p q r = movePath p q r') : r = r' := by
  obtain ⟨-, -, -, -, hleaf⟩ := hmove
  -- a moved path below `q` is no path of the tree, other than `q` itself
  have hclash : ∀ {r r' : List α}, r' ∈ t.paths → r' ≠ q → p <+: r → ¬ p <+: r' →
      movePath p q r ≠ movePath p q r' := by
    rintro _ r' hr' hne' ⟨s, rfl⟩ hnot heq
    rw [movePath_append, movePath_of_not_below hnot] at heq
    rcases eq_or_ne s [] with rfl | hs
    · exact hne' (by simpa using heq.symm)
    · exact not_mem_below hleaf hs (heq ▸ hr')
  by_cases hp : p <+: r <;> by_cases hp' : p <+: r'
  · obtain ⟨s, rfl⟩ := hp
    obtain ⟨s', rfl⟩ := hp'
    rw [movePath_append, movePath_append] at h
    rw [List.append_cancel_left h]
  · exact (hclash hr' hne' hp hp' h).elim
  · exact (hclash hr hne hp' hp h.symm).elim
  · rwa [movePath_of_not_below hp, movePath_of_not_below hp'] at h

/-- The nodes after a move: a node at `q` is replaced. -/
def movedNodes (t : PathTree α ι) (p q : List α) : List (List α × ι) :=
  (t.nodes.filter (·.1 ≠ q)).map fun n => (movePath p q n.1, n.2)

theorem mem_movedNodes {r : List α} :
    (r, j) ∈ t.movedNodes p q ↔ ∃ r₀, (r₀, j) ∈ t.nodes ∧ r₀ ≠ q ∧ movePath p q r₀ = r := by
  simp [movedNodes, and_assoc]

/-- A path that is in the tree, not replaced and not below `p` is still there. -/
theorem mem_movedPaths {r : List α} (hr : r ∈ t.paths) (hne : r ≠ q) :
    movePath p q r ∈ (t.movedNodes p q).map Prod.fst := by
  obtain ⟨j, hj⟩ := mem_paths_iff.mp hr
  exact List.mem_map.mpr ⟨_, mem_movedNodes.mpr ⟨r, hj, hne, rfl⟩, rfl⟩

/-- Move what is at `p` to `q`. -/
def move (t : PathTree α ι) (p q : List α) (hmove : t.CanMove p q) : PathTree α ι where
  nodes := t.movedNodes p q
  nodup_paths := by
    have hpaths : (t.movedNodes p q).map Prod.fst =
        ((t.nodes.filter (·.1 ≠ q)).map Prod.fst).map (movePath p q) := by
      simp [movedNodes]
    rw [hpaths]
    refine List.Nodup.map_on ?_ (t.nodup_paths.sublist (List.filter_sublist.map _))
    intro r hr r' hr' h
    obtain ⟨n, hn, rfl⟩ := List.mem_map.mp hr
    obtain ⟨n', hn', rfl⟩ := List.mem_map.mp hr'
    simp only [List.mem_filter, decide_eq_true_eq] at hn hn'
    exact movePath_inj hmove (mem_paths_of_mem hn.1) (mem_paths_of_mem hn'.1) hn.2 hn'.2 h
  nodup_ids := by
    have hids : (t.movedNodes p q).map Prod.snd = (t.nodes.filter (·.1 ≠ q)).map Prod.snd := by
      simp [movedNodes]
    rw [hids]
    exact t.nodup_ids.sublist (List.filter_sublist.map _)
  parent_mem r x h := by
    obtain ⟨-, hq, hparent, hnot, hleaf⟩ := hmove
    obtain ⟨⟨_, j⟩, hmem, rfl⟩ := List.mem_map.mp h
    obtain ⟨r₀, hj, hne, heq⟩ := mem_movedNodes.mp hmem
    have hr₀ := mem_paths_of_mem hj
    by_cases hp : p <+: r₀
    · obtain ⟨s, rfl⟩ := hp
      rw [movePath_append] at heq
      rcases List.eq_nil_or_concat s with rfl | ⟨s, y, rfl⟩
      · -- the root of what is moved gets the parent of `q`
        have hr : r = q.dropLast := by simp_all
        have hkeep : ¬ p <+: q.dropLast := fun h => hnot (h.trans (List.dropLast_prefix q))
        have hne' : q.dropLast ≠ q := by
          intro h
          have := congrArg List.length h
          rw [List.length_dropLast] at this
          have := List.length_pos_of_ne_nil hq
          omega
        rw [hr, ← movePath_of_not_below (q := q) hkeep]
        exact mem_movedPaths hparent hne'
      · -- the parent is moved too
        rw [List.concat_eq_append, ← List.append_assoc] at heq hr₀
        obtain ⟨rfl, -⟩ := List.append_inj' heq rfl
        rw [← movePath_append]
        refine mem_movedPaths (t.parent_mem _ _ hr₀) ?_
        rintro rfl
        exact hnot (List.prefix_append _ _)
    · -- the parent is not moved, and not replaced, for it has a child
      rw [movePath_of_not_below hp] at heq
      subst heq
      have hkeep : ¬ p <+: r := fun h => hp (h.trans (List.prefix_append _ _))
      rw [← movePath_of_not_below (q := q) hkeep]
      refine mem_movedPaths (t.parent_mem _ _ hr₀) ?_
      rintro rfl
      exact not_mem_below hleaf (List.cons_ne_nil _ _) hr₀

theorem mem_move (hmove : t.CanMove p q) {r : List α} :
    (r, j) ∈ (t.move p q hmove).nodes ↔
      ∃ r₀, (r₀, j) ∈ t.nodes ∧ r₀ ≠ q ∧ movePath p q r₀ = r :=
  mem_movedNodes

/-- Moving back undoes the move of a path that is not below `q`. -/
theorem movePath_movePath {r : List α} (h : ¬ q <+: r) : movePath q p (movePath p q r) = r := by
  by_cases hp : p <+: r
  · obtain ⟨s, rfl⟩ := hp
    rw [movePath_append, movePath_append]
  · rw [movePath_of_not_below hp, movePath_of_not_below h]

/-- There is no node left where one has been moved away. -/
theorem not_mem_move (hmove : t.CanMove p q) : (p, j) ∉ (t.move p q hmove).nodes := by
  obtain ⟨hp, -, -, hnot, hleaf⟩ := hmove
  intro h
  obtain ⟨r, -, -, heq⟩ := (mem_move _).mp h
  by_cases hle : p <+: r
  · obtain ⟨s, rfl⟩ := hle
    rw [movePath_append] at heq
    rcases eq_or_ne s [] with rfl | hs
    · exact hnot ⟨[], by simpa using heq.symm⟩
    · exact not_mem_below hleaf hs (heq ▸ hp)
  · rw [movePath_of_not_below hle] at heq
    exact hle (heq ▸ List.prefix_rfl)

/-- After a move to where no node was and the move back, the nodes are the same. -/
theorem mem_move_move (hmove : t.CanMove p q) (hback : (t.move p q hmove).CanMove q p)
    (hfree : q ∉ t.paths) {r : List α} :
    (r, j) ∈ ((t.move p q hmove).move q p hback).nodes ↔ (r, j) ∈ t.nodes := by
  have hapart : ∀ {r : List α}, (r, j) ∈ t.nodes → ¬ q <+: r := fun hr hle =>
    hfree (mem_above (mem_paths_of_mem hr) hle)
  rw [mem_move]
  constructor
  · rintro ⟨r₁, hr₁, -, rfl⟩
    obtain ⟨r₀, hr₀, -, rfl⟩ := (mem_move hmove).mp hr₁
    rwa [movePath_movePath (hapart hr₀)]
  · intro hr
    have hmoved : (movePath p q r, j) ∈ (t.move p q hmove).nodes :=
      (mem_move hmove).mpr ⟨r, hr, fun heq => hapart hr (heq ▸ List.prefix_rfl), rfl⟩
    refine ⟨_, hmoved, fun heq => ?_, movePath_movePath (hapart hr)⟩
    exact not_mem_move hmove (heq ▸ hmoved)

end Move

/-- The same tree with its nodes enumerated in another order. -/
def reorder (t : PathTree α ι) (nodes : List (List α × ι)) (h : nodes.Perm t.nodes) :
    PathTree α ι where
  nodes := nodes
  nodup_paths := (h.map _).nodup_iff.mpr t.nodup_paths
  nodup_ids := (h.map _).nodup_iff.mpr t.nodup_ids
  parent_mem p x hmem :=
    (h.map _).mem_iff.mpr (t.parent_mem p x ((h.map _).mem_iff.mp hmem))

theorem mem_reorder {nodes : List (List α × ι)} (h : nodes.Perm t.nodes) :
    (q, j) ∈ (t.reorder nodes h).nodes ↔ (q, j) ∈ t.nodes :=
  h.mem_iff

end PathTree
