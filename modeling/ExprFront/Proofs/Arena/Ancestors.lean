import ExprFront.Proofs.Arena.Linked
import Mathlib.Data.Set.Card

/-!
# Ancestors

Going up from a node follows the parents, each of which is settled by the node
before it. Where the links have no cycle, the ancestors of the parent are fewer
than those of the node, so the way up ends within as many steps as there are
nodes. The search for an ancestor of a kind then finds the nearest one, or none
if there is none.
-/

namespace ExprFront.Arena

variable {a : Arena} {id above : NodeId} {kind : NodeKind}

/-- The second node is the parent of the first. -/
def Rises (a : Arena) (id above : NodeId) : Prop := a.parent id = some above

/-- The node is in the arena and has the kind. -/
def HasKind (a : Arena) (id : NodeId) (kind : NodeKind) : Prop :=
  ∃ n, a.node? id = some n ∧ n.kind = kind

/-- What is found is the nearest proper ancestor of the kind; nothing is found if there is none. -/
def IsNearest (a : Arena) (kind : NodeKind) (id : NodeId) : Option NodeId → Prop
  | some found => Relation.TransGen a.Rises id found ∧ a.HasKind found kind ∧
      ∀ between, Relation.TransGen a.Rises id between → Relation.TransGen a.Rises between found →
        ¬ a.HasKind between kind
  | none => ∀ above, Relation.TransGen a.Rises id above → ¬ a.HasKind above kind

/-! ## Ways up -/

/-- With mutual links, a way up is a way down. -/
theorem Mutual.transGen_rises_iff
    (h : a.Mutual) :
    Relation.TransGen a.Rises id above ↔
      Relation.TransGen (fun id child => child ∈ a.children id) above id := by
  have hswap : a.Rises = Function.swap fun id child => child ∈ a.children id := by
    funext id above
    exact propext h.mem_children_iff.symm
  rw [hswap]
  exact Relation.transGen_swap

theorem Linked.not_rises_self
    (h : a.Linked) (id : NodeId) : ¬ Relation.TransGen a.Rises id id := by
  rw [(linked_iff.mp h).1.transGen_rises_iff]
  exact h.acyclic id

/-- The way up from a node goes on from its parent. -/
theorem transGen_rises_iff_of_parent
    {next : NodeId} (hparent : a.parent id = some next) :
    Relation.TransGen a.Rises id above ↔ above = next ∨ Relation.TransGen a.Rises next above := by
  rw [Relation.TransGen.head'_iff]
  constructor
  · rintro ⟨first, hfirst, hway⟩
    obtain rfl : next = first := Option.some.inj (hparent.symm.trans hfirst)
    exact Relation.reflTransGen_iff_eq_or_transGen.mp hway
  · intro hway
    exact ⟨next, hparent, Relation.reflTransGen_iff_eq_or_transGen.mpr hway⟩

theorem not_transGen_rises_of_parent
    (hparent : a.parent id = none) : ¬ Relation.TransGen a.Rises id above := by
  intro hway
  obtain ⟨first, hfirst, -⟩ := Relation.TransGen.head'_iff.mp hway
  cases hparent.symm.trans hfirst

/-! ## The number of ancestors -/

/-- The proper ancestors of a node. -/
def ancestors (a : Arena) (id : NodeId) : Set NodeId := {above | Relation.TransGen a.Rises id above}

theorem Linked.ancestors_subset
    (h : a.Linked) (id : NodeId) : a.ancestors id ⊆ Finset.range a.size := by
  intro above hway
  obtain ⟨last, -, hlast⟩ := Relation.TransGen.tail'_iff.mp hway
  have hlt := lt_size_of_mem_children (h.mem_children hlast)
  exact Finset.mem_coe.mpr (Finset.mem_range.mpr hlt)

theorem Linked.finite_ancestors
    (h : a.Linked) (id : NodeId) : (a.ancestors id).Finite :=
  (Finset.finite_toSet _).subset (h.ancestors_subset id)

/-- There are no more ancestors than nodes. -/
theorem Linked.ncard_ancestors_le
    (h : a.Linked) (id : NodeId) : (a.ancestors id).ncard ≤ a.size := by
  have hle := Set.ncard_le_ncard (h.ancestors_subset id) (Finset.finite_toSet _)
  rwa [Set.ncard_coe_finset, Finset.card_range] at hle

/-- The parent has fewer ancestors. -/
theorem Linked.ncard_ancestors_lt
    (h : a.Linked) {next : NodeId} (hparent : a.parent id = some next) :
    (a.ancestors next).ncard < (a.ancestors id).ncard := by
  apply Set.ncard_lt_ncard _ (h.finite_ancestors id)
  have hway : ∀ above, above ∈ a.ancestors id ↔ above = next ∨ above ∈ a.ancestors next :=
    fun _ => transGen_rises_iff_of_parent hparent
  refine ⟨fun above habove => (hway above).mpr (.inr habove), fun hsubset => ?_⟩
  exact h.not_rises_self next (hsubset ((hway next).mpr (.inl rfl)))

/-! ## The search -/

theorem any_kind_iff
    {next : NodeId} : (a.node? next).any (·.kind == kind) = true ↔ a.HasKind next kind := by
  cases hnode : a.node? next <;> simp [HasKind, hnode]

theorem ancestorWithin?_succ_of_hasKind
    {next : NodeId} (hparent : a.parent id = some next) (hkind : a.HasKind next kind)
    (steps : Nat) : a.ancestorWithin? kind (steps + 1) id = some next := by
  simp only [ancestorWithin?, hparent, any_kind_iff.mpr hkind, if_true]

theorem ancestorWithin?_succ_of_not_hasKind
    {next : NodeId} (hparent : a.parent id = some next) (hkind : ¬ a.HasKind next kind)
    (steps : Nat) :
    a.ancestorWithin? kind (steps + 1) id = a.ancestorWithin? kind steps next := by
  simp only [ancestorWithin?, hparent, if_neg (mt any_kind_iff.mp hkind)]

theorem isNearest_none_of_parent
    (hparent : a.parent id = none) : a.IsNearest kind id none :=
  fun _ hway => absurd hway (not_transGen_rises_of_parent hparent)

/-- A parent of the kind is the nearest ancestor of the kind. -/
theorem Linked.isNearest_parent
    (h : a.Linked) {next : NodeId} (hparent : a.parent id = some next)
    (hkind : a.HasKind next kind) : a.IsNearest kind id (some next) := by
  refine ⟨.single hparent, hkind, fun between hbetween hnext => ?_⟩
  rcases (transGen_rises_iff_of_parent hparent).mp hbetween with rfl | hway
  · exact absurd hnext (h.not_rises_self between)
  · exact absurd (hway.trans hnext) (h.not_rises_self next)

/-- What is nearest to a parent of another kind is nearest to the node. -/
theorem IsNearest.of_parent
    {next : NodeId} {found : Option NodeId} (hparent : a.parent id = some next)
    (hkind : ¬ a.HasKind next kind) (h : a.IsNearest kind next found) :
    a.IsNearest kind id found := by
  have hway : ∀ above, Relation.TransGen a.Rises id above ↔
      above = next ∨ Relation.TransGen a.Rises next above :=
    fun _ => transGen_rises_iff_of_parent hparent
  cases found with
  | none =>
      intro above habove
      rcases (hway above).mp habove with rfl | habove
      · exact hkind
      · exact h above habove
  | some found =>
      obtain ⟨hfound, hfoundKind, hnot⟩ := h
      refine ⟨(hway found).mpr (.inr hfound), hfoundKind, fun between hbetween hlast => ?_⟩
      rcases (hway between).mp hbetween with rfl | hbetween
      · exact hkind
      · exact hnot between hbetween hlast

/-- With as many steps as there are ancestors the search comes to its end, so that one more step
finds nothing else. -/
theorem Linked.isNearest_and_eq_succ
    (h : a.Linked) {steps : Nat} (hsteps : (a.ancestors id).ncard ≤ steps) :
    a.IsNearest kind id (a.ancestorWithin? kind steps id) ∧
      a.ancestorWithin? kind (steps + 1) id = a.ancestorWithin? kind steps id := by
  induction steps generalizing id with
  | zero =>
      have hparent : a.parent id = none := by
        rw [Option.eq_none_iff_forall_ne_some]
        intro next hparent
        have := h.ncard_ancestors_lt hparent
        omega
      simp only [ancestorWithin?, hparent, and_true]
      exact isNearest_none_of_parent hparent
  | succ steps ih =>
      cases hparent : a.parent id with
      | none =>
          simp only [ancestorWithin?, hparent, and_true]
          exact isNearest_none_of_parent hparent
      | some next =>
          by_cases hkind : a.HasKind next kind
          · simp only [ancestorWithin?_succ_of_hasKind hparent hkind, and_true]
            exact h.isNearest_parent hparent hkind
          · simp only [ancestorWithin?_succ_of_not_hasKind hparent hkind]
            have hlt := h.ncard_ancestors_lt hparent
            have hle : (a.ancestors next).ncard ≤ steps := by omega
            obtain ⟨hnearest, hsame⟩ := ih hle
            exact ⟨hnearest.of_parent hparent hkind, hsame⟩

/-- The nearest ancestor of a kind is found. -/
theorem Linked.isNearest_ancestor?
    (h : a.Linked) (id : NodeId) (kind : NodeKind) : a.IsNearest kind id (a.ancestor? id kind) :=
  (h.isNearest_and_eq_succ (h.ncard_ancestors_le id)).1

/-- The search ends within as many steps as there are nodes. -/
theorem Linked.ancestorWithin?_eq
    (h : a.Linked) (id : NodeId) (kind : NodeKind) {steps : Nat} (hsteps : a.size ≤ steps) :
    a.ancestorWithin? kind steps id = a.ancestor? id kind := by
  induction steps, hsteps using Nat.le_induction with
  | base => rfl
  | succ steps hle ih =>
      rw [← ih]
      exact (h.isNearest_and_eq_succ (Nat.le_trans (h.ncard_ancestors_le id) hle)).2

end ExprFront.Arena
