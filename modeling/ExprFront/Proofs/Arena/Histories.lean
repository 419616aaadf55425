import ExprFront.Proofs.Arena.Edited

/-!
# Histories of two arenas

Two arenas start empty and are edited by any sequence of operations: nodes are
added, attached, cut off, recast and given other ranges, subtrees are copied from
one arena to the other and collapsed. At every point the links are mutual, also
where a node was put below itself, and the only operation that fails is to attach
a node that has a parent. As long as no node was put below itself, there is no
cycle, and the search for ancestors comes to its end.
-/

namespace ExprFront

namespace Arena

/-- An operation on an arena, which may read a second one. -/
inductive Edit where
  | add (kind : NodeKind) (range : TokenRange)
  | pushBack (parent child : NodeId)
  | pushFront (parent child : NodeId)
  | popBack (id : NodeId)
  | popFront (id : NodeId)
  | recast (id : NodeId) (kind : NodeKind) (range : TokenRange)
  | mapRanges (f : TokenRange → TokenRange)
  | copyTree (id : NodeId)
  | simplify (id : NodeId)

variable {other a b : Arena} {parent child above id : NodeId} {e : Edit}

namespace Edit

/-- The arena after the operation. -/
def applyTo (other a : Arena) : Edit → Except Fault Arena
  | add kind range => .ok (a.add kind range).2
  | pushBack parent child => a.pushBack parent child
  | pushFront parent child => a.pushFront parent child
  | popBack id => .ok (a.popBack id).2
  | popFront id => .ok (a.popFront id).2
  | recast id kind range => .ok (a.recast id kind range)
  | mapRanges f => .ok (a.mapRanges f)
  | copyTree id => (a.copyTree other id).map Prod.snd
  | simplify id => a.simplify id

/-- The parent and the child, if the operation attaches a node. -/
def attachment? : Edit → Option (NodeId × NodeId)
  | pushBack parent child | pushFront parent child => some (parent, child)
  | _ => none

/-- The nodes exist, and a subtree that is copied or collapsed has no cycle. -/
def Fits (other a : Arena) : Edit → Prop
  | add _ _ | mapRanges _ => True
  | pushBack parent child | pushFront parent child => parent < a.size ∧ child < a.size
  | popBack id | popFront id | recast id _ _ => id < a.size
  | copyTree id => id < other.size ∧ other.AcyclicBelow id
  | simplify id => id < a.size ∧ a.AcyclicBelow id

/-- No node is attached to itself or to a node below it. -/
def StaysAbove (a : Arena) (e : Edit) : Prop :=
  ∀ parent child, e.attachment? = some (parent, child) → a.parent child = none →
    ¬ a.Reaches child parent

/-! ## One operation -/

/-- What an operation does to the links of an arena. -/
inductive Relinks (a b : Arena) : Option (NodeId × NodeId) → Prop
  | same : a.SameLinks b → Relinks a b none
  | attach {parent child : NodeId} :
      a.Attaches b parent child → Relinks a b (some (parent, child))
  | cut {parent child : NodeId} : b.Attaches a parent child → Relinks a b none
  | copy {c : Arena} : a.SameLinks c → c.Grows b → Relinks a b none
  | rearrange {parent : Option NodeId} {p q : Plot} :
      a.Rearranged b parent p q → Relinks a b none

theorem relinks_of_pop
    (h : b = a ∨ ∃ child, b.Attaches a id child) : Relinks a b none := by
  rcases h with rfl | ⟨child, hcut⟩
  · exact .same ⟨fun _ => rfl, fun _ => rfl⟩
  · exact .cut hcut

/-- Everything that an operation can do to mutual links. -/
theorem relinks_of_applyTo
    (ha : a.Mutual) (hfits : e.Fits other a) (h : e.applyTo other a = .ok b) :
    Relinks a b e.attachment? := by
  cases e with
  | add kind range =>
      cases h
      exact .same (a.sameLinks_add kind range)
  | pushBack parent child => exact .attach (attaches_pushBack h)
  | pushFront parent child => exact .attach (attaches_pushFront h)
  | popBack id =>
      cases h
      exact relinks_of_pop (ha.popBack_cases id)
  | popFront id =>
      cases h
      exact relinks_of_pop (ha.popFront_cases id)
  | recast id kind range =>
      cases h
      exact .same (a.sameLinks_recast id kind range)
  | mapRanges f =>
      cases h
      exact .same (a.sameLinks_mapRanges f)
  | copyTree id =>
      rw [applyTo] at h
      cases hcopy : a.copyTree other id with
      | error f =>
          rw [hcopy] at h
          cases h
      | ok copied =>
          rw [hcopy] at h
          cases h
          obtain ⟨c, hsame, hgrows⟩ := exists_grows_of_copyTree hcopy
          exact .copy hsame hgrows
  | simplify id =>
      obtain ⟨c, p, q, hsimplify, hrearranged⟩ :=
        ha.exists_simplify (ha.linkedBelow hfits.1 hfits.2)
      cases hsimplify.symm.trans h
      exact .rearrange hrearranged

/-- Links stay mutual. -/
theorem keepsMutual
    (ha : a.Mutual) (hfits : e.Fits other a) (h : e.applyTo other a = .ok b) : b.Mutual := by
  have hrelinks := relinks_of_applyTo ha hfits h
  generalize e.attachment? = attachment at hrelinks
  cases hrelinks with
  | same hsame => exact hsame.keepsMutual ha
  | attach hattaches => exact hattaches.keepsMutual ha
  | cut hcut => exact hcut.keepsMutual_before ha
  | copy hsame hgrows => exact hgrows.keepsMutual (hsame.keepsMutual ha)
  | rearrange hrearranged => exact ha.rearrange hrearranged

/-- There is no cycle if none was made by attaching a node. -/
theorem keepsAcyclic
    (ha : a.Mutual) (hacyclic : a.Acyclic) (hfits : e.Fits other a) (habove : e.StaysAbove a)
    (h : e.applyTo other a = .ok b) : b.Acyclic := by
  have hrelinks := relinks_of_applyTo ha hfits h
  generalize hattachment : e.attachment? = attachment at hrelinks
  cases hrelinks with
  | same hsame => exact hsame.keepsAcyclic hacyclic
  | attach hattaches =>
      exact hattaches.keepsAcyclic hacyclic (habove _ _ hattachment hattaches.free)
  | cut hcut => exact hcut.keepsAcyclic_before hacyclic
  | copy hsame hgrows => exact hgrows.keepsAcyclic (hsame.keepsAcyclic hacyclic)
  | rearrange hrearranged => exact hacyclic.rearrange hrearranged

/-- A node with a parent is not attached again. -/
theorem applyTo_eq_error
    (hfits : e.Fits other a) (hattachment : e.attachment? = some (parent, child))
    (hparent : a.parent child = some above) :
    e.applyTo other a = .error (.alreadyAttached child) := by
  cases e <;> cases hattachment
  · rw [applyTo, Arena.pushBack, setParent_of_parent_eq hfits.1 hparent]
    rfl
  · rw [applyTo, Arena.pushFront, setParent_of_parent_eq hfits.1 hparent]
    rfl

/-- Everything else succeeds. -/
theorem exists_applyTo_eq_ok
    (hother : other.Mutual) (ha : a.Mutual) (hfits : e.Fits other a)
    (hfree : ∀ parent child, e.attachment? = some (parent, child) → a.parent child = none) :
    ∃ b, e.applyTo other a = .ok b := by
  cases e with
  | add | popBack | popFront | recast | mapRanges => exact ⟨_, rfl⟩
  | pushBack parent child =>
      rw [applyTo, Arena.pushBack, setParent_of_free hfits.1 hfits.2 (hfree _ _ rfl)]
      exact ⟨_, rfl⟩
  | pushFront parent child =>
      rw [applyTo, Arena.pushFront, setParent_of_free hfits.1 hfits.2 (hfree _ _ rfl)]
      exact ⟨_, rfl⟩
  | copyTree id =>
      obtain ⟨p, rfl, hp, hnodup⟩ := (hother.linkedBelow hfits.1 hfits.2).exists_bears
      obtain ⟨q, b, hcopy, -⟩ := exists_copyTree a hp hnodup
      exact ⟨b, by rw [applyTo, hcopy]; rfl⟩
  | simplify id =>
      obtain ⟨b, -, -, hsimplify, -⟩ := ha.exists_simplify (ha.linkedBelow hfits.1 hfits.2)
      exact ⟨b, hsimplify⟩

end Edit

/-! ## Numbers that grow downwards -/

/-- In the arena, children have greater numbers than their parents. -/
def Descending (a : Arena) : Prop := ∀ id < a.size, ∀ child ∈ a.children id, id < child

instance (a : Arena) : Decidable a.Descending :=
  inferInstanceAs (Decidable (∀ id < a.size, ∀ child ∈ a.children id, id < child))

theorem Descending.lt
    (h : a.Descending) (hchild : child ∈ a.children id) : id < child :=
  h id (lt_size_of_mem_children hchild) child hchild

theorem Descending.le
    (h : a.Descending) (hreaches : a.Reaches id child) : id ≤ child := by
  induction hreaches with
  | refl => exact Nat.le_refl _
  | tail _ hchild ih => exact Nat.le_trans ih (Nat.le_of_lt (h.lt hchild))

theorem Descending.acyclic
    (h : a.Descending) : a.Acyclic := by
  intro id hcycle
  obtain ⟨child, hchild, hback⟩ := Relation.TransGen.head'_iff.mp hcycle
  exact Nat.lt_irrefl id (Nat.lt_of_lt_of_le (h.lt hchild) (h.le hback))

theorem Descending.staysAbove
    (h : a.Descending) (hlt : e.attachment?.all (fun ids => ids.1 < ids.2) = true) :
    e.StaysAbove a := by
  intro parent child hattachment _ hreaches
  rw [hattachment, Option.all_some, decide_eq_true_iff] at hlt
  exact Nat.lt_irrefl parent (Nat.lt_of_lt_of_le hlt (h.le hreaches))

/-! ## Sequences of operations -/

/-- Two arenas, told apart by their sides. -/
abbrev Arenas := Bool → Arena

namespace Arenas

variable {s : Arenas} {side : Bool} {edits : List (Bool × Edit)}
  {P Q : Arenas → Bool → Edit → Prop}

/-- Both arenas without nodes. -/
def empty : Arenas := fun _ => Arena.empty

/-- The arenas after an operation on one of them; nothing changes if it fails. -/
def after (s : Arenas) (side : Bool) (e : Edit) : Arenas :=
  match e.applyTo (s !side) (s side) with
  | .ok a => Function.update s side a
  | .error _ => s

/-- The arenas after operations on one or the other. -/
def run (s : Arenas) (edits : List (Bool × Edit)) : Arenas :=
  edits.foldl (fun s edit => s.after edit.1 edit.2) s

/-- Every operation meets the condition in the arenas that it is made in. -/
def Along (P : Arenas → Bool → Edit → Prop) (s : Arenas) : List (Bool × Edit) → Prop
  | [] => True
  | (side, e) :: edits => P s side e ∧ Along P (s.after side e) edits

instance decidableAlong
    [∀ s side e, Decidable (P s side e)] :
    (s : Arenas) → (edits : List (Bool × Edit)) → Decidable (s.Along P edits)
  | _, [] => isTrue trivial
  | s, (side, e) :: edits =>
      have := decidableAlong (s.after side e) edits
      inferInstanceAs (Decidable (_ ∧ _))

/-- The operation fits the arenas. -/
def Fitting (s : Arenas) (side : Bool) (e : Edit) : Prop := e.Fits (s !side) (s side)

/-- The operation puts no node below itself. -/
def Ordered (s : Arenas) (side : Bool) (e : Edit) : Prop := e.StaysAbove (s side)

theorem Along.and
    (hP : s.Along P edits) (hQ : s.Along Q edits) :
    s.Along (fun s side e => P s side e ∧ Q s side e) edits := by
  induction edits generalizing s with
  | nil => trivial
  | cons edit edits ih => exact ⟨⟨hP.1, hQ.1⟩, ih hP.2 hQ.2⟩

theorem Along.mono
    (hP : s.Along P edits) (himp : ∀ s side e, P s side e → Q s side e) : s.Along Q edits := by
  induction edits generalizing s with
  | nil => trivial
  | cons edit edits ih => exact ⟨himp _ _ _ hP.1, ih hP.2⟩

/-- What every operation keeps is kept throughout. -/
theorem Along.induction
    (hedits : s.Along P edits) (Kept : Arenas → Prop) (hstart : Kept s)
    (hstep : ∀ s side e, P s side e → Kept s → Kept (s.after side e)) : Kept (s.run edits) := by
  induction edits generalizing s with
  | nil => exact hstart
  | cons edit edits ih => exact ih hedits.2 (hstep s edit.1 edit.2 hedits.1 hstart)

/-- An operation that keeps a property of the arena it is made in keeps it in both. -/
theorem forall_after
    (Kept : Arena → Prop) (e : Edit) (hs : ∀ side, Kept (s side))
    (hstep : ∀ b, e.applyTo (s !side) (s side) = .ok b → Kept b) (other : Bool) :
    Kept (s.after side e other) := by
  cases happly : e.applyTo (s !side) (s side) with
  | error f =>
      simp only [after, happly]
      exact hs other
  | ok b =>
      simp only [after, happly]
      by_cases hother : other = side
      · subst hother
        rw [Function.update_self]
        exact hstep b happly
      · rw [Function.update_of_ne hother]
        exact hs other

theorem mutual_empty : Arena.empty.Mutual :=
  ⟨by simp [children, Arena.parent, node?, Arena.empty],
    by simp [children, node?, Arena.empty]⟩

theorem acyclic_empty : Arena.empty.Acyclic := by
  intro id hcycle
  obtain ⟨child, hchild, -⟩ := Relation.TransGen.head'_iff.mp hcycle
  simp [children, node?, Arena.empty] at hchild

/-- Links are mutual throughout. -/
theorem mutual_run
    (h : empty.Along Fitting edits) (side : Bool) : (empty.run edits side).Mutual := by
  refine h.induction (fun s => ∀ side, (s side).Mutual) (fun _ => mutual_empty)
    (fun s side e hfits hs => ?_) side
  exact forall_after Mutual e hs fun b happly => Edit.keepsMutual (hs side) hfits happly

/-- There is no cycle as long as no node is put below itself. -/
theorem acyclic_run
    (h : empty.Along Fitting edits) (habove : empty.Along Ordered edits) (side : Bool) :
    (empty.run edits side).Acyclic := by
  have hkept := (h.and habove).induction (fun s => ∀ side, (s side).Mutual ∧ (s side).Acyclic)
    (fun _ => ⟨mutual_empty, acyclic_empty⟩) fun s side e hedit hs =>
      forall_after (fun a => a.Mutual ∧ a.Acyclic) e hs fun b happly =>
        ⟨Edit.keepsMutual (hs side).1 hedit.1 happly,
          Edit.keepsAcyclic (hs side).1 (hs side).2 hedit.1 hedit.2 happly⟩
  exact (hkept side).2

/-- What holds of one of the arenas at every point: children and parents name each other, each
child is listed once, and of the operations that fit, those that attach a node with a parent fail
and the others succeed. -/
structure Steady (s : Arenas) (side : Bool) : Prop where
  mem_children_iff : ∀ id child,
    child ∈ (s side).children id ↔ (s side).parent child = some id
  count_eq_one : ∀ id child,
    child ∈ (s side).children id → ((s side).children id).count child = 1
  refused : ∀ (e : Edit) parent child, s.Fitting side e → e.attachment? = some (parent, child) →
    (s side).parent child ≠ none →
      e.applyTo (s !side) (s side) = .error (.alreadyAttached child) ∧ s.after side e = s
  accepted : ∀ e : Edit, s.Fitting side e →
    (∀ parent child, e.attachment? = some (parent, child) → (s side).parent child = none) →
      ∃ a, e.applyTo (s !side) (s side) = .ok a ∧ s.after side e = Function.update s side a

/-- What holds of an arena without cycles: no node is above itself, and the search for an ancestor
ends, however many steps it may take, at the nearest one of the kind, if there is any. -/
structure Ascending (a : Arena) : Prop where
  acyclic : ∀ id, ¬ Relation.TransGen a.Rises id id
  nearest : ∀ id kind, a.IsNearest kind id (a.ancestor? id kind)
  ends : ∀ id kind steps, a.size ≤ steps → a.ancestorWithin? kind steps id = a.ancestor? id kind

/-- After any operations that fit, the links agree with each other; if besides no node was put
below itself, every search for an ancestor ends at the right one. -/
theorem steady_and_ascending_of_run
    (edits : List (Bool × Edit)) (h : empty.Along Fitting edits) (side : Bool) :
    (empty.run edits).Steady side ∧
      (empty.Along Ordered edits → Ascending (empty.run edits side)) := by
  have hmutual := mutual_run h
  refine ⟨⟨fun _ _ => (hmutual side).mem_children_iff, fun id child hchild => ?_,
    fun e parent child hfits hattachment hparent => ?_, fun e hfits hfree => ?_⟩, fun habove => ?_⟩
  · exact List.count_eq_one_of_mem ((hmutual side).nodup id) hchild
  · obtain ⟨above, habove⟩ := Option.ne_none_iff_exists'.mp hparent
    have hrefused := Edit.applyTo_eq_error hfits hattachment habove
    exact ⟨hrefused, by rw [after, hrefused]⟩
  · obtain ⟨a, happly⟩ := Edit.exists_applyTo_eq_ok (hmutual !side) (hmutual side) hfits hfree
    exact ⟨a, happly, by rw [after, happly]⟩
  · have hlinked : (empty.run edits side).Linked :=
      linked_iff.mpr ⟨hmutual side, acyclic_run h habove side⟩
    exact ⟨hlinked.not_rises_self, hlinked.isNearest_ancestor?,
      fun id kind steps => hlinked.ancestorWithin?_eq id kind⟩

/-! ## A history -/

/-- A statement `-a` is built on one side, with one attempt too many to attach the operand. It is
copied to the other side and collapsed there, and the operand is moved. -/
def sampleEdits : List (Bool × Edit) :=
  [(false, .add .expression ⟨0, 2⟩), (false, .add (.operation .unaryMinus) ⟨0, 2⟩),
    (false, .add .identifier ⟨1, 2⟩), (false, .pushBack 1 2), (false, .pushFront 0 1),
    (false, .pushBack 0 2), (true, .copyTree 0), (true, .simplify 0), (true, .popBack 0),
    (true, .pushFront 1 2), (true, .mapRanges fun range => ⟨range.start + 1, range.stop + 1⟩),
    (false, .popFront 0), (false, .recast 0 .arguments ⟨0, 0⟩)]

theorem fitting_sampleEdits : empty.Along Fitting sampleEdits := by
  refine ⟨trivial, trivial, trivial, ⟨by decide, by decide⟩, ⟨by decide, by decide⟩,
    ⟨by decide, by decide⟩, ⟨by decide, Acyclic.below (Descending.acyclic ?_) 0⟩,
    ⟨by decide, Acyclic.below (Descending.acyclic ?_) 0⟩, show 0 < Arena.size _ from ?_,
    ⟨by decide, by decide⟩, trivial, show 0 < Arena.size _ from ?_, show 0 < Arena.size _ from ?_,
    trivial⟩
  all_goals decide

theorem ordered_sampleEdits : empty.Along Ordered sampleEdits := by
  have hgrows : empty.Along (fun s side e => (s side).Descending ∧
      e.attachment?.all (fun ids => ids.1 < ids.2) = true) sampleEdits := by
    decide
  exact hgrows.mono fun _ _ _ h => h.1.staysAbove h.2

/-- After the history, the links agree, and above the operand that was moved the minus is found. -/
theorem steady_and_ascending_of_run_sample :
    empty.Along Fitting sampleEdits ∧ empty.Along Ordered sampleEdits ∧
      (empty.run sampleEdits).Steady true ∧ Ascending (empty.run sampleEdits true) ∧
      (empty.run sampleEdits true).ancestor? 2 (.operation .unaryMinus) = some 1 := by
  obtain ⟨hsteady, hascending⟩ :=
    steady_and_ascending_of_run sampleEdits fitting_sampleEdits true
  exact ⟨fitting_sampleEdits, ordered_sampleEdits, hsteady, hascending ordered_sampleEdits,
    by decide +kernel⟩

end Arenas

end Arena

end ExprFront
