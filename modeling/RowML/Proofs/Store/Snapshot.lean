import RowML.Proofs.Store.Integrity

/-!
# Snapshots

A snapshot counts, a commit forgets the trail once nobody can need it, and a rollback puts the
solutions back that the trail holds.  The solutions fit the cells after any number of steps back, so
they do after a rollback.  A computation between a snapshot and its rollback leaves nothing behind
but unsolved cells.
-/

namespace RowML

namespace Store

variable {store store' : Store}

/-! ## Putting solutions back -/

/-- The store with another solution or none in one cell, and no record of it. -/
private def restored (store : Store) (entry : MetaId × Option Con) : Store :=
  { store with cells := store.cells.modify entry.1 ({ · with solution := entry.2 }) }

private theorem cell_restored {entry : MetaId × Option Con} (h : entry.1 < store.cells.size)
    (i : MetaId) :
    (store.restored entry).cell i =
      if i = entry.1 then { store.cell i with solution := entry.2 } else store.cell i := by
  change ((store.cells.modify entry.1 _)[i]?).getD _ = _
  rw [Array.getElem?_modify]
  by_cases hi : i = entry.1
  · subst hi
    simp [cell, h]
  · rw [if_neg (Ne.symm hi), if_neg hi]
    rfl

/-- What a list of old solutions that exist does to the cells. -/
private theorem restored_foldl {entries : List (MetaId × Option Con)}
    (h : ∀ entry ∈ entries, entry.1 < store.cells.size) :
    (entries.foldl restored store).cells.size = store.cells.size ∧
      (∀ i, ((entries.foldl restored store).cell i).arity = (store.cell i).arity) ∧
      (entries.foldl restored store).solution? = undo store.solution? entries := by
  induction entries generalizing store with
  | nil => exact ⟨rfl, fun _ => rfl, rfl⟩
  | cons entry entries ih =>
    obtain ⟨hentry, hentries⟩ := List.forall_mem_cons.mp h
    have hsize : (store.restored entry).cells.size = store.cells.size := Array.size_modify
    have hsolution : (store.restored entry).solution? =
        Function.update store.solution? entry.1 entry.2 := by
      funext i
      rw [solution?, cell_restored hentry, Function.update_apply]
      split <;> rfl
    have hrest : ∀ e ∈ entries, e.1 < (store.restored entry).cells.size :=
      fun e he => hsize ▸ hentries e he
    obtain ⟨hsize', harity', hsolution'⟩ := ih hrest
    refine ⟨hsize'.trans hsize, fun i => (harity' i).trans ?_, ?_⟩
    · rw [cell_restored hentry]
      split <;> rfl
    · rw [List.foldl_cons, hsolution', hsolution]
      rfl

private theorem cells_foldl_restored (entries : List (MetaId × Option Con)) :
    (entries.foldl restored store).cells = entries.foldl
      (fun cells (id, solution) => cells.modify id ({ · with solution })) store.cells := by
  induction entries generalizing store with
  | nil => rfl
  | cons entry entries ih =>
    rw [List.foldl_cons, List.foldl_cons, ih]
    rfl

/-- The store that a rollback leaves. -/
def rolledBack (store : Store) (mark : Snapshot) : Store := ((rollback mark).run store).2

/-- A rollback puts the solutions back that the newest entries of the trail hold. -/
structure RolledBack (store : Store) (mark : Snapshot) (store' : Store) : Prop where
  size : store'.cells.size = store.cells.size
  arity : ∀ i, (store'.cell i).arity = (store.cell i).arity
  solution? : store'.solution? =
    undo store.solution? (store.trail.take (store.trail.length - mark.trail))
  trail : store'.trail = store.trail.drop (store.trail.length - mark.trail)
  snapshots : store'.snapshots = store.snapshots - 1

theorem rolledBack_spec (ok : store.Steady) (mark : Snapshot) :
    RolledBack store mark (store.rolledBack mark) := by
  let entries := store.trail.take (store.trail.length - mark.trail)
  have hentries : ∀ entry ∈ entries, entry.1 < store.cells.size := fun entry hentry =>
    ok.trail entry (List.mem_of_mem_take hentry)
  obtain ⟨hsize, harity, hsolution⟩ := restored_foldl hentries
  have hcells : (store.rolledBack mark).cells = (entries.foldl restored store).cells :=
    (cells_foldl_restored entries).symm
  have hcell : (store.rolledBack mark).cell = (entries.foldl restored store).cell := by
    funext i
    simp [cell, hcells]
  exact
    { size := by rw [hcells, hsize]
      arity := fun i => by rw [hcell, harity]
      solution? := by
        rw [← hsolution]
        funext i
        rw [Store.solution?, Store.solution?, hcell]
      trail := rfl
      snapshots := rfl }

theorem Steady.rolledBack (ok : store.Steady) {mark : Snapshot}
    (hidle : store.snapshots ≤ 1 → mark.trail = 0) : (store.rolledBack mark).Steady := by
  have h := rolledBack_spec ok mark
  constructor
  · intro n
    have hundo : undo (store.rolledBack mark).solution? ((store.rolledBack mark).trail.take n) =
        undo store.solution? (store.trail.take (store.trail.length - mark.trail + n)) := by
      rw [h.solution?, h.trail, ← undo_append, ← List.take_add]
    rw [hundo]
    exact (ok.past _).mono (Nat.le_of_eq h.size.symm) fun i _ => h.arity i
  · intro entry hentry
    rw [h.trail] at hentry
    rw [h.size]
    exact ok.trail entry (List.mem_of_mem_drop hentry)
  · intro hsnapshots
    rw [h.snapshots] at hsnapshots
    rw [h.trail, hidle (by omega), Nat.sub_zero, List.drop_length]

/-! ## Opening and closing -/

/-- The store with a snapshot open. -/
def opened (store : Store) : Store := (snapshot.run store).2

theorem Steady.opened (ok : store.Steady) : store.opened.Steady where
  past n := (ok.past n).mono (Nat.le_refl _) fun _ _ => rfl
  trail := ok.trail
  idle h := absurd h (Nat.succ_ne_zero _)

theorem preserves_opened (store : Store) : store.Preserves store.opened :=
  .of_solutions (Nat.le_refl _) (fun _ _ => rfl) fun _ _ h => h

/-- The store after a commit. -/
def committed (store : Store) : Store := (commit.run store).2

theorem trail_committed (store : Store) :
    store.committed.trail = if store.snapshots - 1 = 0 then [] else store.trail :=
  rfl

theorem Steady.committed (ok : store.Steady) : store.committed.Steady where
  past n := by
    rw [trail_committed]
    split
    · rw [List.take_nil]
      exact (ok.past 0).mono (Nat.le_refl _) fun _ _ => rfl
    · exact (ok.past n).mono (Nat.le_refl _) fun _ _ => rfl
  trail := by
    rw [trail_committed]
    split
    · simp
    · exact ok.trail
  idle h := by
    rw [trail_committed]
    exact if_pos h

theorem preserves_committed (store : Store) : store.Preserves store.committed :=
  .of_solutions (Nat.le_refl _) (fun _ _ => rfl) fun _ _ h => h

/-- A computation between a snapshot and its commit. -/
theorem evolves_committed (h : store.opened.Evolves store') : store.Evolves store'.committed where
  toPreserves := ((preserves_opened store).trans h.toPreserves).trans (preserves_committed store')
  snapshots := by
    change store'.snapshots - 1 = _
    rw [h.snapshots]
    rfl
  logged hopen := by
    obtain ⟨entries, htrail, hundo⟩ := h.logged (Nat.succ_ne_zero _)
    refine ⟨entries, ?_, hundo⟩
    rw [trail_committed, if_neg, htrail]
    · rfl
    · rw [h.snapshots]
      exact hopen

/-- A computation between a snapshot and its rollback: every cell has the solution that it had. -/
theorem evolves_rolledBack (ok : store.Steady) (ok' : store'.Steady)
    (h : store.opened.Evolves store') {mark : Snapshot}
    (hmark : mark.trail = store.trail.length) :
    (store'.rolledBack mark).Steady ∧ store.Evolves (store'.rolledBack mark) := by
  have hback := rolledBack_spec ok' mark
  obtain ⟨entries, htrail, hundo⟩ := h.logged (Nat.succ_ne_zero _)
  have htrail : store'.trail = entries ++ store.trail := htrail
  have hlength : store'.trail.length - mark.trail = entries.length := by
    rw [htrail, hmark, List.length_append]
    omega
  have hsolution : (store'.rolledBack mark).solution? = store.solution? := by
    rw [hback.solution?, hlength, htrail, List.take_left, hundo]
    rfl
  have hdrop : (store'.rolledBack mark).trail = store.trail := by
    rw [hback.trail, hlength, htrail, List.drop_left]
  have hsnapshots : store'.snapshots = store.snapshots + 1 := h.snapshots
  constructor
  · apply ok'.rolledBack
    intro hle
    rw [hmark, ok.idle (by omega), List.length_nil]
  · exact
      { toPreserves := by
          refine .of_solutions ?_ (fun i hi => ?_) fun i x hi => ?_
          · rw [hback.size]
            exact h.size
          · rw [hback.arity]
            exact h.arity i hi
          · rw [hsolution, hi]
        snapshots := by
          rw [hback.snapshots, hsnapshots, Nat.add_sub_cancel]
        logged := fun _ => ⟨[], hdrop, hsolution⟩ }

end Store

end RowML
