import ExprFront.Proofs.Arena.Simplified

/-!
# Arenas one behind the other

Behind the nodes of an arena, a second one keeps its nodes if all their numbers
are raised by the size of the first. Every operation that succeeds on the second
arena alone does the same there: it gives the raised numbers and leaves the
first arena as it is. So what was put into an arena before has no influence on
what is put into it later.
-/

namespace ExprFront

/-- The node with all numbers raised. -/
def Node.raised (offset : Nat) (n : Node) : Node :=
  { n with children := n.children.map (offset + ·), parent := n.parent.map (offset + ·) }

namespace Arena

variable {a f f' : Arena}

/-- The nodes of an arena, and behind them those of another with raised numbers. -/
def append (a f : Arena) : Arena := ⟨a.nodes ++ f.nodes.map (Node.raised a.size)⟩

@[simp] theorem size_append
    (a f : Arena) : (a.append f).size = a.size + f.size := by
  simp [append, size]

@[simp] theorem append_empty
    (a : Arena) : a.append empty = a := by
  simp [append, empty]

/-- The nodes of the first arena stay as they are. -/
theorem extends_append
    (a f : Arena) : a.Extends (a.append f) := by
  intro id hid
  have hlt : id < a.nodes.size := hid
  simp [node?, append, Array.getElem?_append, hlt]

@[simp] theorem node?_append
    (a f : Arena) (id : NodeId) :
    (a.append f).node? (a.size + id) = (f.node? id).map (Node.raised a.size) := by
  simp [node?, append, size, Array.getElem?_append_right]

@[simp] theorem children_append
    (a f : Arena) (id : NodeId) :
    (a.append f).children (a.size + id) = (f.children id).map (a.size + ·) := by
  unfold children
  rw [node?_append]
  cases f.node? id <;> simp [Node.raised]

/-! ## Single nodes -/

theorem modify_append
    (a f : Arena) (id : NodeId) {change raisedChange : Node → Node}
    (hchange : ∀ n, raisedChange (n.raised a.size) = (change n).raised a.size) :
    (a.append f).modify (a.size + id) raisedChange = a.append (f.modify id change) := by
  have hnodes : (a.nodes ++ f.nodes.map (Node.raised a.size)).modify (a.size + id) raisedChange =
      a.nodes ++ (f.nodes.modify id change).map (Node.raised a.size) := by
    apply Array.ext_getElem?
    intro i
    by_cases hi : i < a.nodes.size
    · have hne : a.size + id ≠ i := by
        unfold size
        omega
      rw [Array.getElem?_modify, if_neg hne, Array.getElem?_append_left hi,
        Array.getElem?_append_left hi]
    · obtain ⟨j, rfl⟩ := Nat.exists_eq_add_of_le (Nat.not_lt.mp hi)
      rw [Array.getElem?_modify, Array.getElem?_append_right (Nat.le_add_right _ _),
        Array.getElem?_append_right (Nat.le_add_right _ _), Nat.add_sub_cancel_left,
        Array.getElem?_map, Array.getElem?_map, Array.getElem?_modify]
      by_cases hid : id = j
      · subst hid
        rw [if_pos rfl, if_pos (by rfl), Option.map_map, Option.map_map]
        exact congrArg (Option.map · _) (funext hchange)
      · simp [size, hid]
  simp [modify, append, hnodes]

theorem add_append
    (a f : Arena) (kind : NodeKind) (range : TokenRange) :
    (a.append f).add kind range = (a.size + f.size, a.append (f.add kind range).2) := by
  simp [add, append, size, Node.raised]

theorem clearParent_append
    (a f : Arena) (id : NodeId) :
    (a.append f).clearParent (a.size + id) = a.append (f.clearParent id) :=
  modify_append a f id fun _ => rfl

theorem foldl_clearParent_append
    (a f : Arena) (cut : List NodeId) :
    (cut.map (a.size + ·)).foldl clearParent (a.append f) = a.append (cut.foldl clearParent f) := by
  induction cut generalizing f with
  | nil => rfl
  | cons id cut ih => rw [List.map_cons, List.foldl_cons, List.foldl_cons, clearParent_append, ih]

theorem recast_append
    (a f : Arena) (id : NodeId) (kind : NodeKind) (range : TokenRange) :
    (a.append f).recast (a.size + id) kind range = a.append (f.recast id kind range) :=
  modify_append a f id fun _ => rfl

theorem popBack_append
    (a f : Arena) (id : NodeId) :
    (a.append f).popBack (a.size + id) =
      ((f.popBack id).1.map (a.size + ·), a.append (f.popBack id).2) := by
  have hmodify : (a.append f).modify (a.size + id)
      (fun n => { n with children := n.children.dropLast }) =
        a.append (f.modify id fun n => { n with children := n.children.dropLast }) :=
    modify_append a f id fun n => by simp [Node.raised, List.map_dropLast]
  unfold popBack
  rw [children_append, List.getLast?_map, hmodify]
  cases (f.children id).getLast? with
  | none => rfl
  | some child => simp only [Option.map_some, clearParent_append]

theorem popAll_append
    (a f : Arena) (id : NodeId) :
    (a.append f).popAll (a.size + id) =
      ((f.popAll id).1.map (a.size + ·), a.append (f.popAll id).2) := by
  have hmodify : (a.append f).modify (a.size + id) (fun n => { n with children := [] }) =
      a.append (f.modify id fun n => { n with children := [] }) :=
    modify_append a f id fun _ => rfl
  simp only [popAll, children_append, hmodify, foldl_clearParent_append]

theorem setParent_append
    {parent child : NodeId} (a : Arena) (h : f.setParent parent child = .ok f') :
    (a.append f).setParent (a.size + parent) (a.size + child) = .ok (a.append f') := by
  obtain ⟨⟨c, hchild, hnone⟩, hparent, rfl⟩ := (f.setParent_eq_ok_iff f' parent child).mp h
  refine ((a.append f).setParent_eq_ok_iff _ _ _).mpr ⟨⟨c.raised a.size, ?_, ?_⟩, ?_, ?_⟩
  · rw [node?_append, hchild]
    rfl
  · simp [Node.raised, hnone]
  · simpa using hparent
  · symm
    apply modify_append
    intro n
    rfl

theorem pushBack_append
    {parent child : NodeId} (a : Arena) (h : f.pushBack parent child = .ok f') :
    (a.append f).pushBack (a.size + parent) (a.size + child) = .ok (a.append f') := by
  unfold pushBack at h ⊢
  cases hset : f.setParent parent child with
  | error e =>
      rw [hset] at h
      cases h
  | ok f₁ =>
      rw [hset] at h
      cases h
      rw [setParent_append a hset]
      exact congrArg Except.ok (modify_append a f₁ parent fun n => by simp [Node.raised])

theorem pushBackAll_append
    {parent : NodeId} {ids : List NodeId} (a : Arena) (h : f.pushBackAll parent ids = .ok f') :
    (a.append f).pushBackAll (a.size + parent) (ids.map (a.size + ·)) = .ok (a.append f') := by
  induction ids generalizing f with
  | nil =>
      cases h
      rfl
  | cons id ids ih =>
      rw [pushBackAll] at h
      split at h
      · rename_i f₁ hpush
        rw [List.map_cons, pushBackAll, pushBack_append a hpush]
        exact ih h
      · cases h

/-! ## Building -/

/-- The tree is put behind an arena as it is put into an empty one. -/
def BuildsBehind (t : Tree) : Prop :=
  ∀ (a f f' : Arena) (id : NodeId), f.build t = .ok (id, f') →
    (a.append f).build t = .ok (a.size + id, a.append f')

theorem buildInto_append
    {ts : List Tree} (hts : ∀ t ∈ ts, BuildsBehind t) (a : Arena) {id : NodeId}
    (h : buildInto id f ts = .ok f') :
    buildInto (a.size + id) (a.append f) ts = .ok (a.append f') := by
  induction ts generalizing f with
  | nil =>
      cases h
      rfl
  | cons t ts ih =>
      rw [buildInto] at h
      split at h
      · cases h
      · rename_i child f₁ hbuild
        split at h
        · rename_i f₂ hpush
          rw [buildInto, hts t List.mem_cons_self a f f₁ child hbuild]
          simp only [pushBack_append a hpush]
          exact ih (fun s hs => hts s (List.mem_cons_of_mem t hs)) h
        · cases h

theorem buildAll_append_of_forall
    {ts : List Tree} (hts : ∀ t ∈ ts, BuildsBehind t) (a : Arena) {ids : List NodeId}
    (h : f.buildAll ts = .ok (ids, f')) :
    (a.append f).buildAll ts = .ok (ids.map (a.size + ·), a.append f') := by
  induction ts generalizing f ids with
  | nil =>
      cases h
      rfl
  | cons t ts ih =>
      rw [buildAll] at h
      split at h
      · cases h
      · rename_i child f₁ hbuild
        split at h
        · rename_i rest f₂ hall
          cases h
          rw [buildAll, hts t List.mem_cons_self a f f₁ child hbuild]
          simp only [ih (fun s hs => hts s (List.mem_cons_of_mem t hs)) hall, List.map_cons]
        · cases h

theorem buildsBehind
    (t : Tree) : BuildsBehind t := by
  induction t with
  | node kind range ts ih =>
      intro a f f' id h
      rw [build] at h ⊢
      split at h
      · rename_i hlist
        rw [if_pos hlist, add_append]
        simp only at h ⊢
        split at h
        · rename_i f₁ hinto
          cases h
          rw [add_fst] at hinto ⊢
          rw [buildInto_append ih a hinto]
        · cases h
      · rename_i hlist
        rw [if_neg hlist]
        split at h
        · cases h
        · rename_i ids f₁ hall
          simp only at h
          split at h
          · rename_i f₂ hpush
            cases h
            rw [add_fst] at hpush ⊢
            simp only [buildAll_append_of_forall ih a hall, add_append, pushBackAll_append a hpush]
          · cases h

theorem build_append
    {t : Tree} {id : NodeId} (a : Arena) (h : f.build t = .ok (id, f')) :
    (a.append f).build t = .ok (a.size + id, a.append f') :=
  buildsBehind t a f f' id h

theorem buildAll_append
    {ts : List Tree} {ids : List NodeId} (a : Arena) (h : f.buildAll ts = .ok (ids, f')) :
    (a.append f).buildAll ts = .ok (ids.map (a.size + ·), a.append f') :=
  buildAll_append_of_forall (fun t _ => buildsBehind t) a h

/-! ## Copying -/

theorem copyInto_append
    {source : Arena} {parent : NodeId} {ids : List NodeId} {copied copied' : List (NodeId × NodeId)}
    (a : Arena) (h : copyInto source parent ids copied f = .ok (copied', f')) :
    copyInto source (a.size + parent) ids (copied.map (Prod.map id (a.size + ·))) (a.append f) =
      .ok (copied'.map (Prod.map id (a.size + ·)), a.append f') := by
  induction ids generalizing f copied with
  | nil =>
      cases h
      rfl
  | cons original ids ih =>
      rw [copyInto] at h ⊢
      split at h
      · cases h
      · rename_i n hnode
        simp only at h ⊢
        split at h
        · rename_i f₁ hpush
          rw [add_fst] at hpush h
          simp only [add_append, pushBack_append a hpush]
          exact ih h
        · cases h

theorem copyPending_append
    {source : Arena} {steps : Nat} {pending : List (NodeId × NodeId)} (a : Arena)
    (h : copyPending source steps pending f = .ok f') :
    copyPending source steps (pending.map (Prod.map id (a.size + ·))) (a.append f) =
      .ok (a.append f') := by
  induction steps generalizing f pending with
  | zero =>
      cases pending with
      | nil =>
          cases h
          rfl
      | cons w pending => cases h
  | succ steps ih =>
      cases pending with
      | nil =>
          cases h
          rfl
      | cons w pending =>
          obtain ⟨original, copy⟩ := w
          rw [copyPending] at h
          split at h
          · rename_i copied f₁ hinto
            have hinto' := copyInto_append a hinto
            rw [List.map_nil] at hinto'
            have hrest := ih h
            rw [List.map_append] at hrest
            simp only [List.map_cons, Prod.map, id_eq, copyPending, hinto', hrest]
          · cases h

theorem copyTree_append
    {source : Arena} {original root : NodeId} (a : Arena)
    (h : f.copyTree source original = .ok (root, f')) :
    (a.append f).copyTree source original = .ok (a.size + root, a.append f') := by
  rw [copyTree] at h ⊢
  split at h
  · cases h
  · rename_i n hnode
    simp only at h ⊢
    split at h
    · rename_i f₁ hpending
      cases h
      rw [add_fst] at hpending ⊢
      have hpending' := copyPending_append a hpending
      simp only [List.map_cons, List.map_nil, Prod.map, id_eq] at hpending'
      simp only [add_append, size_append, hpending', add_fst]
    · cases h

/-! ## Collapsing -/

theorem absorb_append
    {id : NodeId} (a : Arena) (h : f.absorb id = .ok f') :
    (a.append f).absorb (a.size + id) = .ok (a.append f') := by
  unfold absorb at h ⊢
  rw [node?_append]
  cases hid : f.node? id with
  | none =>
      rw [hid] at h
      cases h
      rfl
  | some n =>
      rw [hid] at h
      simp only [Option.map_some, Node.raised] at h ⊢
      split at h
      · rename_i child hkind honly
        split at h
        · cases h
        · rename_i c hchild
          simp only [hkind, honly, List.map_cons, List.map_nil, node?_append, hchild,
            Option.map_some, Node.raised, popBack_append, popAll_append, recast_append]
          exact pushBackAll_append a h
      · rename_i hnot
        cases h
        split
        · rename_i child hkind honly
          obtain ⟨child, honly, -⟩ := List.map_eq_singleton_iff.mp honly
          exact absurd honly (hnot child hkind)
        · rfl

theorem absorbAll_raised
    {ids : List NodeId} (a : Arena) (h : f.absorbAll ids = .ok f') :
    (a.append f).absorbAll (ids.map (a.size + ·)) = .ok (a.append f') := by
  induction ids generalizing f with
  | nil =>
      cases h
      rfl
  | cons id ids ih =>
      rw [absorbAll] at h
      split at h
      · rename_i f₁ habsorb
        rw [List.map_cons, absorbAll, absorb_append a habsorb]
        exact ih h
      · cases h

theorem descendants_append
    (a f : Arena) (steps : Nat) (pending seen : List NodeId) :
    (a.append f).descendants steps (pending.map (a.size + ·)) (seen.map (a.size + ·)) =
      (f.descendants steps pending seen).map (a.size + ·) := by
  induction steps generalizing pending seen with
  | zero => rfl
  | succ steps ih =>
      cases pending with
      | nil => rfl
      | cons id pending =>
          rw [List.map_cons, descendants, descendants, ← ih]
          simp

/-- The bound on the number of nodes below a root is larger in the larger arena; for a plot both
are enough. -/
theorem simplify_append
    {parent : Option NodeId} {p : Plot} (a : Arena) (hp : f.Bears parent p) (hnodup : p.ids.Nodup)
    (h : f.simplify p.root = .ok f') :
    (a.append f).simplify (a.size + p.root) = .ok (a.append f') := by
  have hlength := hp.length_ids_le hnodup
  have horder : ∀ steps, p.ids.length ≤ steps →
      f.descendants steps [p.root] [] = p.postorder := by
    intro steps hsteps
    have hps : ∀ q ∈ [p], ∃ parent, f.Bears parent q := by simpa using ⟨parent, hp⟩
    simpa using descendants_eq hps (by simpa using hsteps) []
  have hraised := descendants_append a f (a.size + f.size) [p.root] []
  rw [horder _ (Nat.le_trans hlength (Nat.le_add_left _ _))] at hraised
  rw [simplify, horder _ hlength] at h
  rw [simplify, size_append]
  simp only [List.map_cons, List.map_nil] at hraised
  rw [hraised]
  exact absorbAll_raised a h

end Arena

end ExprFront
