import RowML.Proofs.Journal
import RowML.Proofs.Kind.Composition
import RowML.Proofs.Kind.Conversion

/-!
# The journal of a store of kinds

While a snapshot is open, the trail of a store of kinds records what every operation overwrites.  A
rollback restores what was known of every variable that existed, and leaves nothing known of those
made since.
-/

namespace RowML

namespace KindStore

variable {store store' store'' : KindStore}

/-! ## Entries -/

/-- Undoing the entries gives back what the first store knows of its variables, and leaves nothing
known of other variables of the second one.  The second store has the entries on top of its trail if
the first one has a snapshot open. -/
structure Records (store store' : KindStore) (entries : List (KindVar × KindVarState)) : Prop where
  size : store.vars.size ≤ store'.vars.size
  old : ∀ v, v < store.vars.size → undone entries v (store'.stateOf v) = store.stateOf v
  new : ∀ v, store.vars.size ≤ v →
    ∃ predicate, undone entries v (store'.stateOf v) = .unbound predicate []
  snapshots : store'.snapshots = store.snapshots
  trail : store.snapshots ≠ 0 → store'.trail = entries ++ store.trail

theorem Records.none (store : KindStore) : Records store store [] where
  size := Nat.le_refl _
  old _ _ := rfl
  new _ hv := ⟨.any, stateOf_of_le hv⟩
  snapshots := rfl
  trail _ := rfl

theorem Records.onTop {entries entries' : List (KindVar × KindVarState)}
    (h : Records store store' entries) (h' : Records store' store'' entries') :
    Records store store'' (entries' ++ entries) where
  size := Nat.le_trans h.size h'.size
  old v hv := by
    rw [undone_append, h'.old v (Nat.lt_of_lt_of_le hv h.size), h.old v hv]
  new v hv := by
    rw [undone_append]
    by_cases hlt : v < store'.vars.size
    · rw [h'.old v hlt]
      exact h.new v hv
    · obtain ⟨predicate, hblank⟩ := h'.new v (Nat.le_of_not_lt hlt)
      rcases undone_eq_self_or entries v with hself | hsame
      · exact ⟨predicate, (hself _).trans hblank⟩
      · rw [hsame _ (store'.stateOf v)]
        exact h.new v hv
  snapshots := h'.snapshots.trans h.snapshots
  trail hopen := by
    rw [h'.trail (h.snapshots ▸ hopen), h.trail hopen, List.append_assoc]

def journal : Journal KindStore where
  Entries := List (KindVar × KindVarState)
  none := []
  onTop := (· ++ ·)
  Alike s t := s.vars = t.vars
  Records := Records
  alike_refl _ := rfl
  records_none := .none
  records_onTop := .onTop

/-! ## Elementary computations -/

theorem records_put (store : KindStore) (v : KindVar) (state : KindVarState) :
    Records store (store.put v state) [(v, store.stateOf v)] where
  size := Nat.le_of_eq (size_put store v state).symm
  old u hu := by
    simp only [undone_cons, undone_nil]
    split
    next h => rw [h]
    next h =>
      change ((store.vars.setIfInBounds v state)[u]?).getD _ = _
      rw [Array.getElem?_setIfInBounds, if_neg h]
      rfl
  new u hu := by
    simp only [undone_cons, undone_nil]
    split
    next h => exact ⟨.any, h ▸ stateOf_of_le hu⟩
    next => exact ⟨.any, stateOf_of_le (by rwa [size_put])⟩
  snapshots := rfl
  trail hopen := by
    change (if store.snapshots = 0 then store.trail else _) = _
    rw [if_neg hopen]
    rfl

theorem records_extend (store : KindStore) (predicate : KindPredicate) :
    Records store (store.extend predicate) [] where
  size := by
    rw [size_extend]
    exact Nat.le_succ _
  old v hv := by rw [undone_nil, stateOf_extend, if_neg (Nat.ne_of_lt hv)]
  new v hv := by
    rw [undone_nil, stateOf_extend]
    split
    · exact ⟨predicate, rfl⟩
    · exact ⟨.any, stateOf_of_le hv⟩
  snapshots := rfl
  trail _ := rfl

/-- Whatever is computed with kinds is undone by the entries that it adds to the trail. -/
theorem Composed.exact {α : Type} {x : Fuelled KindStore α} (h : Composed α x) :
    journal.Exact α x := by
  induction h with
  | pure a => exact Compositional.pure a
  | bind _ _ ihx ihf => exact Compositional.bind ihx ihf
  | outOfFuel => exact Journal.exact_outOfFuel
  | read _ same ih => exact Journal.exact_read ih same
  | setVar v state =>
    refine fun s => .inr ⟨(), s.put v state, [(v, s.stateOf v)], fun t ht => ?_⟩
    have ht : s.vars = t.vars := ht
    refine ⟨t.put v state, rfl, ?_, ?_⟩
    · change s.vars.setIfInBounds v state = t.vars.setIfInBounds v state
      rw [ht]
    · rw [stateOf_congr ht]
      exact records_put t v state
  | fresh predicate =>
    refine fun s => .inr ⟨.mvar s.vars.size, s.extend predicate, [], fun t ht => ?_⟩
    have ht : s.vars = t.vars := ht
    refine ⟨t.extend predicate, ?_, ?_, records_extend t predicate⟩
    · rw [ht]
      rfl
    · change s.vars.push _ = t.vars.push _
      rw [ht]

/-! ## Snapshots -/

/-- The store with a snapshot open. -/
def opened (store : KindStore) : KindStore := (snapshot.run store).2

/-- The store that a rollback leaves. -/
def rolledBack (store : KindStore) (mark : Nat) : KindStore := ((rollback mark).run store).2

/-- The store after a commit. -/
def committed (store : KindStore) : KindStore := (commit.run store).2

theorem getElem?_foldl_setIfInBounds (entries : List (KindVar × KindVarState))
    (vars : Array KindVarState) (v : KindVar) :
    (entries.foldl (fun vars (v, state) => vars.setIfInBounds v state) vars)[v]? =
      (vars[v]?).map (undone entries v) := by
  induction entries generalizing vars with
  | nil => exact (Option.map_id_apply).symm
  | cons entry entries ih =>
    rw [List.foldl_cons, ih, Array.getElem?_setIfInBounds]
    by_cases h : entry.1 = v
    · subst h
      by_cases hlt : entry.1 < vars.size
      · simp [hlt]
      · simp [hlt]
    · simp only [if_neg h]
      refine congrArg (fun f => Option.map f vars[v]?) (funext fun state => ?_)
      rw [undone_cons, if_neg h]

theorem stateOf_unwind (count : Nat) {v : KindVar} (hv : v < store.vars.size) :
    (store.unwind count).stateOf v = undone (store.trail.take count) v (store.stateOf v) := by
  change ((List.foldl _ _ _ : Array KindVarState)[v]?).getD _ = _
  rw [getElem?_foldl_setIfInBounds, stateOf, Array.getElem?_eq_getElem hv]
  rfl

theorem size_unwind (count : Nat) : (store.unwind count).vars.size = store.vars.size := by
  have h : ∀ (entries : List (KindVar × KindVarState)) (vars : Array KindVarState),
      (entries.foldl (fun vars (v, state) => vars.setIfInBounds v state) vars).size =
        vars.size := by
    intro entries
    induction entries with
    | nil => exact fun _ => rfl
    | cons entry entries ih => exact fun vars => (ih _).trans Array.size_setIfInBounds
  exact h _ _

/-- The second store knows what the first one knows, and has variables on top of which nothing is
known. -/
structure Restores (store store' : KindStore) : Prop where
  size : store.vars.size ≤ store'.vars.size
  old : ∀ v, v < store.vars.size → store'.stateOf v = store.stateOf v
  new : ∀ v, store.vars.size ≤ v → ∃ predicate, store'.stateOf v = .unbound predicate []
  snapshots : store'.snapshots = store.snapshots
  trail : store'.trail = store.trail

/-- A rollback undoes everything since the snapshot. -/
theorem restores_rolledBack {entries : List (KindVar × KindVarState)}
    (h : Records store.opened store' entries) :
    Restores store (store'.rolledBack store.trail.length) := by
  have htrail : store'.trail = entries ++ store.trail := h.trail (Nat.succ_ne_zero _)
  have hlength : store'.trail.length - store.trail.length = entries.length := by
    rw [htrail, List.length_append, Nat.add_sub_cancel]
  have hstate : ∀ v, v < store'.vars.size →
      (store'.rolledBack store.trail.length).stateOf v = undone entries v (store'.stateOf v) := by
    intro v hv
    change (store'.unwind _).stateOf v = _
    rw [stateOf_unwind _ hv, hlength, htrail, List.take_left]
  have hsize : (store'.rolledBack store.trail.length).vars.size = store'.vars.size :=
    size_unwind _
  constructor
  · rw [hsize]
    exact h.size
  · intro v hv
    rw [hstate v (Nat.lt_of_lt_of_le hv h.size), h.old v hv]
    rfl
  · intro v hv
    by_cases hlt : v < store'.vars.size
    · rw [hstate v hlt]
      exact h.new v hv
    · exact ⟨.any, stateOf_of_le (by rw [hsize]; exact Nat.le_of_not_lt hlt)⟩
  · change store'.snapshots - 1 = _
    rw [h.snapshots]
    rfl
  · change store'.trail.drop _ = _
    rw [hlength, htrail, List.drop_left]

/-- A rollback leaves the same whatever the trail held before the snapshot. -/
theorem vars_rolledBack_congr {s s' t t' : KindStore} {entries : List (KindVar × KindVarState)}
    (h : Records s.opened s' entries) (h' : Records t.opened t' entries)
    (hvars : s'.vars = t'.vars) :
    (s'.rolledBack s.trail.length).vars = (t'.rolledBack t.trail.length).vars := by
  have hrolled : ∀ {u u' : KindStore}, Records u.opened u' entries →
      (u'.rolledBack u.trail.length).vars =
        entries.foldl (fun vars (v, state) => vars.setIfInBounds v state) u'.vars := by
    intro u u' h
    have htrail : u'.trail = entries ++ u.trail := h.trail (Nat.succ_ne_zero _)
    change (u'.trail.take (u'.trail.length - u.trail.length)).foldl _ _ = _
    rw [htrail, List.length_append, Nat.add_sub_cancel, List.take_left]
  rw [hrolled h, hrolled h', hvars]

/-- A commit keeps everything since the snapshot, and an outer snapshot can still undo it. -/
theorem records_committed {entries : List (KindVar × KindVarState)}
    (h : Records store.opened store' entries) : Records store store'.committed entries where
  size := h.size
  old := h.old
  new := h.new
  snapshots := by
    change store'.snapshots - 1 = _
    rw [h.snapshots]
    rfl
  trail hopen := by
    have hsnapshots : store'.snapshots = store.snapshots + 1 := h.snapshots
    change (if store'.snapshots - 1 = 0 then [] else store'.trail) = _
    rw [hsnapshots, Nat.add_sub_cancel, if_neg hopen]
    exact h.trail (Nat.succ_ne_zero _)

theorem Restores.records (h : Restores store store') : Records store store' [] where
  size := h.size
  old := h.old
  new := h.new
  snapshots := h.snapshots
  trail _ := h.trail

end KindStore

end RowML
