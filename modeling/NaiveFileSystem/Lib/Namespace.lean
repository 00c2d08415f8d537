import Mathlib.Data.List.Nodup

/-!
# Trees of names

A namespace has live nodes, some of which are branches and list entries, each a name
with a node. It is a tree if everything live is reached from the root and every node
but the root has exactly one entry. A tree grows by an entry for a new node, and is
pruned by dropping the entry of a node that is no branch.
-/

structure Namespace (Node Name : Type) where
  live : Node → Prop
  branch : Node → Prop
  entries : Node → List (Name × Node)

namespace Namespace

variable {Node Name : Type} {space next : Namespace Node Name} {root parent child node : Node}
  {name : Name}

inductive Reached (space : Namespace Node Name) (root : Node) : Node → Prop
  | root : Reached space root root
  | entry {branch : Node} {entry : Name × Node} : Reached space root branch →
      space.branch branch → entry ∈ space.entries branch → Reached space root entry.2

structure Tree (root : Node) (space : Namespace Node Name) : Prop where
  rooted : space.branch root
  branches : ∀ node, space.branch node → space.live node
  named : ∀ branch, space.branch branch → ∀ entry ∈ space.entries branch,
    space.live entry.2 ∧ entry.2 ≠ root
  names : ∀ branch, space.branch branch → ((space.entries branch).map (·.1)).Nodup
  nodes : ∀ branch, space.branch branch → ((space.entries branch).map (·.2)).Nodup
  single : ∀ one other, space.branch one → space.branch other → ∀ entry ∈ space.entries one,
    ∀ entry' ∈ space.entries other, entry.2 = entry'.2 → one = other
  reached : ∀ node, space.live node → Reached space root node

theorem Tree.seed (rooted : space.branch root)
    (branches : ∀ node, space.branch node → space.live node)
    (only : ∀ node, space.live node → node = root) (empty : space.entries root = []) :
    Tree root space := by
  have bare : ∀ branch, space.branch branch → space.entries branch = [] := by
    intro branch isBranch
    rw [only branch (branches branch isBranch)]
    exact empty
  refine ⟨rooted, branches, fun branch isBranch => ?_, fun branch isBranch => ?_,
    fun branch isBranch => ?_, fun one _ isBranch _ => ?_, fun node live => only node live ▸ .root⟩
  · simp [bare branch isBranch]
  · simp [bare branch isBranch]
  · simp [bare branch isBranch]
  · simp [bare one isBranch]

theorem Reached.mono (reached : Reached space root node)
    (kept : ∀ branch, space.branch branch → next.branch branch ∧
      ∀ entry ∈ space.entries branch, entry ∈ next.entries branch) : Reached next root node := by
  induction reached with
  | root => exact .root
  | entry _ branch inside ih => exact .entry ih (kept _ branch).1 ((kept _ branch).2 _ inside)

theorem Reached.cases (reached : Reached space root node) :
    node = root ∨ ∃ branch entry, space.branch branch ∧ entry ∈ space.entries branch ∧
      entry.2 = node := by
  cases reached with
  | root => exact .inl rfl
  | entry _ branch inside => exact .inr ⟨_, _, branch, inside, rfl⟩

/-- No branch lists itself, since a path from the root never comes to it then. -/
theorem Tree.not_self (tree : Tree root space) (branch : space.branch node) (entry : Name × Node)
    (inside : entry ∈ space.entries node) : entry.2 ≠ node := by
  intro self
  have never : ∀ other, Reached space root other → other ≠ node := by
    intro other reached
    induction reached with
    | root =>
      intro same
      exact (tree.named node branch entry inside).2 (self.trans same.symm)
    | entry _ above inside' ih =>
      intro same
      exact ih (tree.single _ _ above branch _ inside' _ inside (same.trans self.symm))
  exact never node (tree.reached node (tree.branches node branch)) rfl

/-- The one place of a live node. -/
theorem Tree.place (tree : Tree root space) (live : space.live node) (different : node ≠ root) :
    ∃ branch, space.branch branch ∧ (∃ entry ∈ space.entries branch, entry.2 = node) ∧
      ∀ other, space.branch other → other ≠ branch → ∀ entry ∈ space.entries other,
        entry.2 ≠ node := by
  rcases (tree.reached node live).cases with same | ⟨branch, entry, isBranch, inside, rfl⟩
  · exact absurd same different
  · refine ⟨branch, isBranch, ⟨entry, inside, rfl⟩, ?_⟩
    intro other isBranch' apart entry' inside' same
    exact apart (tree.single _ _ isBranch' isBranch _ inside' _ inside same)

/-- The namespace after an entry for a new node. -/
structure Grows (space next : Namespace Node Name) (parent : Node) (name : Name) (child : Node) :
    Prop where
  live : ∀ node, next.live node ↔ space.live node ∨ node = child
  kept : ∀ node, space.branch node → next.branch node
  branch : ∀ node, next.branch node → space.branch node ∨ node = child
  here : next.entries parent = space.entries parent ++ [(name, child)]
  new : next.branch child → next.entries child = []
  others : ∀ node, space.branch node → node ≠ parent → next.entries node = space.entries node

theorem Grows.entries (grows : Grows space next parent name child) {branch : Node}
    (isBranch : next.branch branch) {entry : Name × Node} (inside : entry ∈ next.entries branch) :
    (space.branch branch ∧ entry ∈ space.entries branch) ∨
      (branch = parent ∧ entry = (name, child)) := by
  rcases grows.branch branch isBranch with old | rfl
  · by_cases same : branch = parent
    · subst same
      rw [grows.here, List.mem_append, List.mem_singleton] at inside
      exact inside.imp (fun before => ⟨old, before⟩) fun added => ⟨rfl, added⟩
    · rw [grows.others branch old same] at inside
      exact .inl ⟨old, inside⟩
  · rw [grows.new isBranch] at inside
    cases inside

theorem Grows.nodup {Value : Type} (grows : Grows space next parent name child)
    (value : Name × Node → Value)
    (distinct : ∀ branch, space.branch branch → ((space.entries branch).map value).Nodup)
    (above : space.branch parent) (absent : value (name, child) ∉ (space.entries parent).map value)
    {branch : Node} (isBranch : next.branch branch) : ((next.entries branch).map value).Nodup := by
  rcases grows.branch branch isBranch with old | rfl
  · by_cases same : branch = parent
    · subst same
      rw [grows.here, List.map_append, List.map_singleton, ← List.concat_eq_append]
      exact .concat absent (distinct branch above)
    · rw [grows.others branch old same]
      exact distinct branch old
  · rw [grows.new isBranch]
    exact List.nodup_nil

theorem Tree.grow (tree : Tree root space) (grows : Grows space next parent name child)
    (above : space.branch parent) (fresh : ¬ space.live child)
    (absent : name ∉ (space.entries parent).map (·.1)) : Tree root next := by
  have other : ∀ branch, space.branch branch → ∀ entry ∈ space.entries branch, entry.2 ≠ child := by
    intro branch isBranch entry inside same
    exact fresh (same ▸ (tree.named branch isBranch entry inside).1)
  have kept : ∀ branch, space.branch branch → next.branch branch ∧
      ∀ entry ∈ space.entries branch, entry ∈ next.entries branch := by
    intro branch isBranch
    refine ⟨grows.kept branch isBranch, fun entry inside => ?_⟩
    by_cases same : branch = parent
    · subst same
      rw [grows.here]
      exact List.mem_append_left _ inside
    · rwa [grows.others branch isBranch same]
  refine ⟨grows.kept root tree.rooted, fun node isBranch => ?_, fun branch isBranch entry inside => ?_,
    fun branch isBranch => grows.nodup (·.1) tree.names above absent isBranch,
    fun branch isBranch => grows.nodup (·.2) tree.nodes above ?_ isBranch,
    fun one two isBranch isBranch' entry inside entry' inside' same => ?_, fun node live => ?_⟩
  · exact (grows.live node).mpr ((grows.branch node isBranch).imp_left (tree.branches node))
  · rcases grows.entries isBranch inside with ⟨old, before⟩ | ⟨rfl, rfl⟩
    · obtain ⟨live, notRoot⟩ := tree.named branch old entry before
      exact ⟨(grows.live _).mpr (.inl live), notRoot⟩
    · refine ⟨(grows.live _).mpr (.inr rfl), ?_⟩
      rintro rfl
      exact fresh (tree.branches _ tree.rooted)
  · intro inside
    obtain ⟨entry, before, same⟩ := List.mem_map.mp inside
    exact other parent above entry before same
  · rcases grows.entries isBranch inside with ⟨old, before⟩ | ⟨rfl, rfl⟩
    · rcases grows.entries isBranch' inside' with ⟨old', before'⟩ | ⟨rfl, rfl⟩
      · exact tree.single one two old old' entry before entry' before' same
      · exact absurd same (other one old entry before)
    · rcases grows.entries isBranch' inside' with ⟨old', before'⟩ | ⟨rfl, _⟩
      · exact absurd same.symm (other two old' entry' before')
      · rfl
  · rcases (grows.live node).mp live with old | rfl
    · exact (tree.reached node old).mono kept
    · have above' := (tree.reached parent (tree.branches parent above)).mono kept
      have listed : (name, node) ∈ next.entries parent := by
        rw [grows.here]
        exact List.mem_append_right _ (List.mem_singleton_self _)
      exact .entry above' (grows.kept parent above) listed

variable [DecidableEq Name]

/-- The namespace after the entry of a node is dropped. -/
structure Prunes (space next : Namespace Node Name) (parent : Node) (name : Name) (child : Node) :
    Prop where
  live : ∀ node, next.live node ↔ space.live node ∧ node ≠ child
  branch : ∀ node, next.branch node ↔ space.branch node
  here : next.entries parent = (space.entries parent).filter (·.1 ≠ name)
  others : ∀ node, space.branch node → node ≠ parent → next.entries node = space.entries node

theorem Prunes.sublist (prunes : Prunes space next parent name child) {branch : Node}
    (isBranch : next.branch branch) : (next.entries branch).Sublist (space.entries branch) := by
  by_cases same : branch = parent
  · subst same
    rw [prunes.here]
    exact List.filter_sublist
  · rw [prunes.others branch ((prunes.branch branch).mp isBranch) same]

theorem Tree.prune (tree : Tree root space) (prunes : Prunes space next parent name child)
    (above : space.branch parent) (inside : (name, child) ∈ space.entries parent)
    (leaf : ¬ space.branch child) : Tree root next := by
  have before : ∀ {branch}, next.branch branch → space.branch branch :=
    fun isBranch => (prunes.branch _).mp isBranch
  -- An entry that is gone was that of the child.
  have stays : ∀ branch, space.branch branch → ∀ entry ∈ space.entries branch,
      entry.2 ≠ child → entry ∈ next.entries branch := by
    intro branch isBranch entry member different
    by_cases same : branch = parent
    · subst same
      rw [prunes.here, List.mem_filter]
      refine ⟨member, ?_⟩
      simp only [ne_eq, decide_not, Bool.not_eq_true', decide_eq_false_iff_not]
      intro named
      have only := List.inj_on_of_nodup_map (tree.names branch isBranch) member inside named
      exact different (congrArg Prod.snd only)
    · rwa [prunes.others branch isBranch same]
  refine ⟨(prunes.branch root).mpr tree.rooted, fun node isBranch => ?_,
    fun branch isBranch entry member => ?_, fun branch isBranch => ?_, fun branch isBranch => ?_,
    fun one two isBranch isBranch' entry member entry' member' same => ?_, fun node live => ?_⟩
  · refine (prunes.live node).mpr ⟨tree.branches node (before isBranch), ?_⟩
    rintro rfl
    exact leaf (before isBranch)
  · have old := (prunes.sublist isBranch).subset member
    obtain ⟨live, notRoot⟩ := tree.named branch (before isBranch) entry old
    refine ⟨(prunes.live _).mpr ⟨live, fun same => ?_⟩, notRoot⟩
    -- The child had its only entry in the parent, under the name.
    obtain rfl := tree.single _ _ (before isBranch) above _ old _ inside same
    obtain rfl := List.inj_on_of_nodup_map (tree.nodes branch above) old inside same
    rw [prunes.here, List.mem_filter] at member
    simp at member
  · exact (tree.names branch (before isBranch)).sublist ((prunes.sublist isBranch).map _)
  · exact (tree.nodes branch (before isBranch)).sublist ((prunes.sublist isBranch).map _)
  · exact tree.single one two (before isBranch) (before isBranch') entry
      ((prunes.sublist isBranch).subset member) entry' ((prunes.sublist isBranch').subset member') same
  · obtain ⟨old, different⟩ := (prunes.live node).mp live
    have reached := tree.reached node old
    -- Paths go through branches, so none goes through the child.
    induction reached with
    | root => exact .root
    | @entry branch entry earlier isBranch member ih =>
      have alive := tree.branches branch isBranch
      have apart : branch ≠ child := by
        rintro rfl
        exact leaf isBranch
      exact .entry (ih ((prunes.live branch).mpr ⟨alive, apart⟩) alive apart)
        ((prunes.branch branch).mpr isBranch) (stays branch isBranch entry member different)

end Namespace
