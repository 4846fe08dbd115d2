import RowML.Proofs.Kind.Journal
import RowML.Proofs.Store.Composition
import RowML.Proofs.Store.Snapshot
import RowML.Proofs.Store.Termination

/-!
# The journal of a store

The trail of a store records the solutions that are overwritten, the trail of its store of kinds
what is overwritten there, and the list of solved cells only grows.  So what a computation does
between a snapshot and its rollback is undone, and what it does before a commit can still be undone
from an outer snapshot.
-/

namespace RowML

namespace Store

variable {store store' store'' : Store}

/-- What a computation adds to the trails of a store and of its store of kinds. -/
abbrev Entries := List (MetaId × Option Con) × List (KindVar × KindVarState)

/-- Undoing the entries gives back the cells and kinds of the first store, and leaves what is new in
the second one unsolved.  The second store has the entries on top of its trails if the first one has
a snapshot open. -/
structure Records (store store' : Store) (entries : Entries) : Prop where
  size : store.cells.size ≤ store'.cells.size
  kind : ∀ i, i < store.cells.size → (store'.cell i).kind = (store.cell i).kind
  arity : ∀ i, i < store.cells.size → (store'.cell i).arity = (store.cell i).arity
  old : ∀ i, i < store.cells.size →
    undone entries.1 i (store'.solution? i) = store.solution? i
  new : ∀ i, store.cells.size ≤ i → undone entries.1 i (store'.solution? i) = none
  kinds : store.kinds.Records store'.kinds entries.2
  solved : ∃ news, store'.solved.toList = store.solved.toList ++ news
  snapshots : store'.snapshots = store.snapshots
  trail : store.snapshots ≠ 0 → store'.trail = entries.1 ++ store.trail

theorem solution?_of_le {i : MetaId} (h : store.cells.size ≤ i) : store.solution? i = none := by
  rw [solution?, cell, Array.getElem?_eq_none h]
  rfl

/-- A store with the same cells and snapshots. -/
theorem Records.of_cells (hcells : store'.cells = store.cells)
    {entries : List (KindVar × KindVarState)} (kinds : store.kinds.Records store'.kinds entries)
    (solved : ∃ news, store'.solved.toList = store.solved.toList ++ news)
    (hsnapshots : store'.snapshots = store.snapshots) (htrail : store'.trail = store.trail) :
    store.Records store' ([], entries) := by
  have hcell : store'.cell = store.cell := by
    funext i
    rw [cell, hcells, cell]
  have hsolution : store'.solution? = store.solution? := by
    funext i
    rw [solution?, hcell, solution?]
  exact
    { size := Nat.le_of_eq (congrArg Array.size hcells.symm)
      kind := fun i _ => by rw [hcell]
      arity := fun i _ => by rw [hcell]
      old := fun i _ => by rw [hsolution, undone_nil]
      new := fun i hi => by rw [hsolution, undone_nil, solution?_of_le hi]
      kinds := kinds
      solved := solved
      snapshots := hsnapshots
      trail := fun _ => htrail }

theorem Records.none (store : Store) : store.Records store ([], []) :=
  .of_cells rfl (.none _) ⟨[], (List.append_nil _).symm⟩ rfl rfl

theorem Records.onTop {entries entries' : Entries} (h : store.Records store' entries)
    (h' : store'.Records store'' entries') :
    store.Records store'' (entries'.1 ++ entries.1, entries'.2 ++ entries.2) where
  size := Nat.le_trans h.size h'.size
  kind i hi := (h'.kind i (Nat.lt_of_lt_of_le hi h.size)).trans (h.kind i hi)
  arity i hi := (h'.arity i (Nat.lt_of_lt_of_le hi h.size)).trans (h.arity i hi)
  old i hi := by
    rw [undone_append, h'.old i (Nat.lt_of_lt_of_le hi h.size), h.old i hi]
  new i hi := by
    rw [undone_append]
    by_cases hlt : i < store'.cells.size
    · rw [h'.old i hlt]
      exact h.new i hi
    · have hnone := h'.new i (Nat.le_of_not_lt hlt)
      rw [hnone]
      rcases undone_eq_self_or entries.1 i with hself | hsame
      · rw [hself]
      · rw [hsame _ (store'.solution? i)]
        exact h.new i hi
  kinds := h.kinds.onTop h'.kinds
  solved := by
    obtain ⟨news, hnews⟩ := h.solved
    obtain ⟨news', hnews'⟩ := h'.solved
    exact ⟨news ++ news', by rw [hnews', hnews, List.append_assoc]⟩
  snapshots := h'.snapshots.trans h.snapshots
  trail hopen := by
    rw [h'.trail (h.snapshots ▸ hopen), h.trail hopen, List.append_assoc]

theorem Alike.refl (store : Store) : store.Alike store := ⟨rfl, rfl, rfl, rfl⟩

theorem Alike.symm (h : store.Alike store') : store'.Alike store :=
  ⟨h.cells.symm, h.kinds.symm, h.skolems.symm, h.solved.symm⟩

theorem Alike.trans (h : store.Alike store') (h' : store'.Alike store'') : store.Alike store'' :=
  ⟨h.cells.trans h'.cells, h.kinds.trans h'.kinds, h.skolems.trans h'.skolems,
    h.solved.trans h'.solved⟩

def journal : Journal Store where
  Entries := Entries
  none := ([], [])
  onTop e' e := (e'.1 ++ e.1, e'.2 ++ e.2)
  Alike := Alike
  Records := Records
  alike_refl := .refl
  records_none := .none
  records_onTop := .onTop

/-! ## Elementary computations -/

section Exact

variable {α : Type}

/-- A computation without fuel is exact if it does the same to all stores that are alike. -/
private theorem exact_of_run {x : StoreM α}
    (h : ∀ s, ∃ entries, ∀ t, s.Alike t → (x.run s).1 = (x.run t).1 ∧
      (x.run s).2.Alike (x.run t).2 ∧ t.Records (x.run t).2 entries) :
    Throughout journal.Exact x := by
  intro s
  obtain ⟨entries, h⟩ := h s
  refine .inr ⟨(x.run s).1, (x.run s).2, entries, fun t ht => ?_⟩
  obtain ⟨hanswer, halike, hrecords⟩ := h t ht
  exact ⟨(x.run t).2, by rw [hanswer]; rfl, halike, hrecords⟩

private theorem exact_read {f : Store → StoreM α} (hf : ∀ s, Throughout journal.Exact (f s))
    (same : ∀ {s t : Store}, s.Alike t → f s = f t) :
    Throughout journal.Exact (get >>= f : StoreM α) :=
  Journal.exact_read (J := journal) (f := fun s => liftM (f s)) hf fun h => by rw [same h]

private theorem exact_read_except {ε : Type} {f : Store → ExceptT ε StoreM α}
    (hf : ∀ s, Throughout journal.Exact (f s))
    (same : ∀ {s t : Store}, s.Alike t → f s = f t) :
    Throughout journal.Exact (get >>= f : ExceptT ε StoreM α) :=
  exact_read (f := fun s => (f s).run) hf fun h => by rw [same h]

theorem records_put (store : Store) (id : MetaId) (solution : Con) :
    store.Records (store.put id solution) ([(id, store.solution? id)], []) where
  size := Nat.le_of_eq (size_put id solution).symm
  kind i hi := by
    by_cases h : i = id
    · rw [kind_put (h ▸ hi)]
    · rw [cell_put_of_ne h]
  arity i hi := by
    by_cases h : i = id
    · rw [arity_put (h ▸ hi)]
    · rw [cell_put_of_ne h]
  old i _ := by
    rw [undone_cons, undone_nil]
    split
    next h => exact congrArg store.solution? h
    next h => exact solution?_put_of_ne (Ne.symm h) solution
  new i hi := by
    rw [undone_cons, undone_nil]
    split
    next h => exact solution?_of_le (Nat.le_trans hi (Nat.le_of_eq h.symm))
    next h => rw [solution?_put_of_ne (Ne.symm h), solution?_of_le hi]
  kinds := .none _
  solved := ⟨[], (List.append_nil _).symm⟩
  snapshots := rfl
  trail hopen := by
    rw [trail_put, if_neg hopen]
    rfl

theorem setSolution_exact (id : MetaId) (solution : Con) :
    Throughout journal.Exact (setSolution id (some solution)) := by
  refine exact_of_run fun s => ⟨([(id, s.solution? id)], []), fun t ht => ⟨rfl, ?_, ?_⟩⟩
  · let solve (cells : Array Cell) := cells.modify id ({ · with solution := some solution })
    exact ⟨congrArg solve ht.cells, ht.kinds, ht.skolems, ht.solved⟩
  · rw [solution?, ht.cell]
    exact records_put t id solution

theorem pushSolved_exact (id : MetaId) :
    Throughout journal.Exact
      (modify fun store => { store with solved := store.solved.push id } : StoreM Unit) := by
  refine exact_of_run fun s => ⟨([], []), fun t ht => ⟨rfl, ?_, ?_⟩⟩
  · exact ⟨ht.cells, ht.kinds, ht.skolems, congrArg (Array.push · id) ht.solved⟩
  · exact .of_cells (by rfl) (.none _) ⟨[id], by exact Array.toList_push⟩ (by rfl) (by rfl)

theorem assign_exact (id : MetaId) (solution : Con) :
    Throughout journal.Exact (assign id solution) := by
  refine exact_read_except (fun s => ?_) fun h => by simp only [solution?, h.cell]
  split
  · split
    · exact .pure _
    · exact .throw _
  · exact .bind (.lift_except (setSolution_exact id solution)) fun _ =>
      .lift_except (pushSolved_exact id)

theorem freshWithSpine_exact (kind : Kind) (spine : List Con) :
    Throughout journal.Exact (freshWithSpine kind spine) := by
  refine exact_of_run fun s => ⟨([], []), fun t ht => ⟨?_, ?_, ?_⟩⟩
  · change Con.mvar s.cells.size spine = .mvar t.cells.size spine
    rw [ht.cells]
  · exact ⟨congrArg (Array.push · _) ht.cells, ht.kinds, ht.skolems, ht.solved⟩
  · change t.Records (t.extended kind spine.length) _
    exact
      { size := (grows_extended kind _).size
        kind := fun i hi => by rw [cell_extended, if_neg (Nat.ne_of_lt hi)]
        arity := fun i hi => (grows_extended kind _).arity i hi
        old := fun i _ => solution?_extended kind _ i
        new := fun i hi => (solution?_extended kind _ i).trans (solution?_of_le hi)
        kinds := .none _
        solved := ⟨[], (List.append_nil _).symm⟩
        snapshots := rfl
        trail := fun _ => rfl }

theorem freshSkolem_exact (name : String) (kind : Kind) :
    Throughout journal.Exact (freshSkolem name kind) := by
  refine exact_of_run fun s => ⟨([], []), fun t ht => ⟨?_, ?_, ?_⟩⟩
  · exact congrArg Array.size ht.skolems
  · exact ⟨ht.cells, ht.kinds, congrArg (Array.push · _) ht.skolems, ht.solved⟩
  · exact .of_cells (by rfl) (.none _) ⟨[], (List.append_nil _).symm⟩ (by rfl) (by rfl)

theorem onKindsFuelled_exact {x : Fuelled KindStore α} (h : KindStore.Composed α x) :
    journal.Exact α (onKindsFuelled x) := by
  intro s
  rcases h.exact s.kinds with hnone | ⟨a, kinds, entries, hruns⟩
  · refine .inl fun t ht => ?_
    change (x t.kinds).map _ = _
    rw [hnone t.kinds ht.kinds]
    rfl
  · refine .inr ⟨a, { s with kinds }, ([], entries), fun t ht => ?_⟩
    obtain ⟨kinds', hrun, halike, hrecords⟩ := hruns t.kinds ht.kinds
    refine ⟨{ t with kinds := kinds' }, ?_, ⟨ht.cells, halike, ht.skolems, ht.solved⟩, ?_⟩
    · change (x t.kinds).map _ = _
      rw [hrun]
      rfl
    · exact .of_cells (by rfl) hrecords ⟨[], (List.append_nil _).symm⟩ (by rfl) (by rfl)

theorem onKinds_exact {x : KindM α} (h : Throughout KindStore.Composed x) :
    Throughout journal.Exact (onKinds x) :=
  onKindsFuelled_exact h

theorem resolveWithin_exact (n : Nat) (c : Con) : Throughout journal.Exact (resolveWithin n c) := by
  induction n generalizing c with
  | zero =>
    have hrun : resolveWithin 0 c = pure c := by cases c <;> rfl
    rw [hrun]
    exact .pure c
  | succ n ih =>
    cases c with
    | mvar id spine =>
      refine exact_read (fun s => ?_) fun h => by simp only [solution?, h.cell]
      split
      · exact .pure _
      · refine .bind (ih _) fun final => ?_
        split
        · exact .bind (setSolution_exact _ _) fun _ =>
            onKinds_exact (Con.instantiate_throughout KindStore.resolve_throughout _ _)
        · exact onKinds_exact (Con.instantiate_throughout KindStore.resolve_throughout _ _)
    | _ => exact .pure _

theorem resolve_exact (c : Con) : Throughout journal.Exact (resolve c) :=
  exact_read (fun _ => resolveWithin_exact _ c) fun h => by rw [h.cells]

end Exact

/-! ## Snapshots -/

/-- What a snapshot of the store goes back to. -/
def mark (store : Store) : Snapshot := (snapshot.run store).1

/-- The second store has what the first one has, and new cells and kinds of which nothing is
known. -/
structure Restores (store store' : Store) : Prop where
  size : store.cells.size ≤ store'.cells.size
  old : ∀ i, i < store.cells.size → store'.cell i = store.cell i
  new : ∀ i, store.cells.size ≤ i → store'.solution? i = none
  kinds : store.kinds.Restores store'.kinds
  solved : store'.solved = store.solved
  snapshots : store'.snapshots = store.snapshots
  trail : store'.trail = store.trail

theorem Restores.records (h : store.Restores store') : store.Records store' ([], []) where
  size := h.size
  kind i hi := by rw [h.old i hi]
  arity i hi := by rw [h.old i hi]
  old i hi := congrArg Cell.solution (h.old i hi)
  new := h.new
  kinds := h.kinds.records
  solved := ⟨[], by rw [h.solved, List.append_nil]⟩
  snapshots := h.snapshots
  trail _ := h.trail

/-- Puts old solutions back, the newest first. -/
private def putBack (entries : List (MetaId × Option Con)) (cells : Array Cell) : Array Cell :=
  entries.foldl (fun cells (id, solution) => cells.modify id ({ · with solution })) cells

private theorem size_putBack (entries : List (MetaId × Option Con)) (cells : Array Cell) :
    (putBack entries cells).size = cells.size := by
  induction entries generalizing cells with
  | nil => rfl
  | cons entry entries ih => exact (ih _).trans Array.size_modify

private theorem getElem?_putBack (entries : List (MetaId × Option Con)) (cells : Array Cell)
    (i : MetaId) :
    (putBack entries cells)[i]? =
      cells[i]?.map fun cell => { cell with solution := undone entries i cell.solution } := by
  induction entries generalizing cells with
  | nil => exact (Option.map_id_apply).symm
  | cons entry entries ih =>
    change (putBack entries _)[i]? = _
    rw [ih, Array.getElem?_modify]
    split
    next h =>
      rw [Option.map_map]
      refine congrArg (fun f => Option.map f cells[i]?) (funext fun cell => ?_)
      simp only [Function.comp_apply, undone_cons, if_pos h]
    next h =>
      refine congrArg (fun f => Option.map f cells[i]?) (funext fun cell => ?_)
      rw [undone_cons, if_neg h]

section Closing

variable {entries : Entries} (h : store.opened.Records store' entries)
include h

private theorem cells_rolledBack :
    (store'.rolledBack store.mark).cells = putBack entries.1 store'.cells := by
  have htrail : store'.trail = entries.1 ++ store.trail := h.trail (Nat.succ_ne_zero _)
  change putBack (store'.trail.take (store'.trail.length - store.trail.length)) _ = _
  rw [htrail, List.length_append, Nat.add_sub_cancel, List.take_left]

private theorem solved_rolledBack : (store'.rolledBack store.mark).solved = store.solved := by
  obtain ⟨news, hnews⟩ := h.solved
  apply Array.toList_inj.mp
  change (store'.solved.take store.solved.size).toList = _
  have hnews : store'.solved.toList = store.solved.toList ++ news := hnews
  simp [hnews]

/-- A rollback undoes everything since the snapshot. -/
theorem restores_rolledBack : store.Restores (store'.rolledBack store.mark) := by
  have htrail : store'.trail = entries.1 ++ store.trail := h.trail (Nat.succ_ne_zero _)
  have hsize : store.cells.size ≤ store'.cells.size := h.size
  have hcell : ∀ i, i < store'.cells.size → (store'.rolledBack store.mark).cell i =
      ⟨(store'.cell i).kind, (store'.cell i).arity, undone entries.1 i (store'.solution? i)⟩ := by
    intro i hi
    simp only [solution?, cell, cells_rolledBack h, getElem?_putBack,
      Array.getElem?_eq_getElem hi, Option.map_some, Option.getD_some]
  constructor
  · rw [cells_rolledBack h, size_putBack]
    exact hsize
  · intro i hi
    have hsolution := h.old i hi
    have hkind := h.kind i hi
    have harity := h.arity i hi
    rw [hcell i (Nat.lt_of_lt_of_le hi hsize), hsolution, hkind, harity]
    rfl
  · intro i hi
    by_cases hlt : i < store'.cells.size
    · rw [solution?, hcell i hlt]
      exact h.new i hi
    · refine solution?_of_le ?_
      rw [cells_rolledBack h, size_putBack]
      exact Nat.le_of_not_lt hlt
  · exact KindStore.restores_rolledBack h.kinds
  · exact solved_rolledBack h
  · change store'.snapshots - 1 = _
    rw [h.snapshots]
    rfl
  · change store'.trail.drop (store'.trail.length - store.trail.length) = _
    rw [htrail, List.length_append, Nat.add_sub_cancel, List.drop_left]

/-- A commit keeps everything since the snapshot, and an outer snapshot can still undo it. -/
theorem records_committed : store.Records store'.committed entries where
  size := h.size
  kind := h.kind
  arity := h.arity
  old := h.old
  new := h.new
  kinds := KindStore.records_committed h.kinds
  solved := h.solved
  snapshots := by
    change store'.snapshots - 1 = _
    rw [h.snapshots]
    rfl
  trail hopen := by
    have hsnapshots : store'.snapshots = store.snapshots + 1 := h.snapshots
    rw [trail_committed, hsnapshots, Nat.add_sub_cancel, if_neg hopen]
    exact h.trail (Nat.succ_ne_zero _)

end Closing

/-! ## Speculation -/

theorem alike_committed (store : Store) : store.Alike store.committed := ⟨rfl, rfl, rfl, rfl⟩

theorem alike_opened (store : Store) : store.Alike store.opened := ⟨rfl, rfl, rfl, rfl⟩

private theorem Alike.opened (h : store.Alike store') : store.opened.Alike store'.opened :=
  ((alike_opened store).symm.trans h).trans (alike_opened store')

/-- A rollback leaves the same whatever the trails held before the snapshot. -/
private theorem alike_rolledBack {s s' t t' : Store} {entries : Entries}
    (h : s.opened.Records s' entries) (h' : t.opened.Records t' entries) (halike : s'.Alike t')
    (hstart : s.Alike t) : (s'.rolledBack s.mark).Alike (t'.rolledBack t.mark) where
  cells := by rw [cells_rolledBack h, cells_rolledBack h', halike.cells]
  kinds := KindStore.vars_rolledBack_congr h.kinds h'.kinds halike.kinds
  skolems := halike.skolems
  solved := by rw [solved_rolledBack h, solved_rolledBack h', hstart.solved]

/-- What a speculation leaves, from what the computation inside it leaves. -/
theorem speculate_run {α : Type} {x : FuelM α} {keep : α → Bool} {a : α}
    (h : x store.opened = some (a, store')) :
    speculate x keep store =
      some (a, if keep a then store'.committed else store'.rolledBack store.mark) := by
  change (x store.opened).bind _ = _
  rw [h]
  cases hkeep : keep a <;> simp [hkeep] <;> rfl

theorem speculate_eq_some {α : Type} {x : FuelM α} {keep : α → Bool} {a : α}
    (h : speculate x keep store = some (a, store')) :
    ∃ store₁, x store.opened = some (a, store₁) ∧
      store' = if keep a then store₁.committed else store₁.rolledBack store.mark := by
  change (x store.opened).bind _ = _ at h
  obtain ⟨⟨b, store₁⟩, hrun, -⟩ := Option.bind_eq_some_iff.mp h
  have h : speculate x keep store = some (a, store') := h
  rw [speculate_run hrun] at h
  cases h
  exact ⟨store₁, hrun, rfl⟩

theorem speculate_exact {α : Type} {x : FuelM α} (hx : journal.Exact α x) (keep : α → Bool) :
    journal.Exact α (speculate x keep) := by
  intro s
  rcases hx s.opened with hnone | ⟨a, s', entries, hruns⟩
  · refine .inl fun t ht => ?_
    change (x t.opened).bind _ = _
    rw [hnone t.opened ht.opened]
    rfl
  obtain ⟨s₁, hrun, halike, hrecords⟩ := hruns s.opened (Alike.refl _)
  cases hkeep : keep a with
  | true =>
    refine .inr ⟨a, s₁.committed, entries, fun t ht => ?_⟩
    obtain ⟨t₁, hrun', halike', hrecords'⟩ := hruns t.opened ht.opened
    refine ⟨t₁.committed, by rw [speculate_run hrun', hkeep]; rfl, ?_, records_committed hrecords'⟩
    have hsame : s₁.Alike t₁ := halike.symm.trans halike'
    exact ((alike_committed s₁).symm.trans hsame).trans (alike_committed t₁)
  | false =>
    refine .inr ⟨a, s₁.rolledBack s.mark, ([], []), fun t ht => ?_⟩
    obtain ⟨t₁, hrun', halike', hrecords'⟩ := hruns t.opened ht.opened
    refine ⟨t₁.rolledBack t.mark, by rw [speculate_run hrun', hkeep]; rfl, ?_,
      (restores_rolledBack hrecords').records⟩
    exact alike_rolledBack hrecords hrecords' (halike.symm.trans halike') ht

/-- Whatever is computed with a store is undone by the entries that it adds to the trails. -/
theorem Composed.exact {α : Type} {x : FuelM α} (h : Composed α x) : journal.Exact α x := by
  induction h with
  | pure a => exact Compositional.pure a
  | bind _ _ ihx ihf => exact Compositional.bind ihx ihf
  | outOfFuel => exact Journal.exact_outOfFuel
  | read _ same ih => exact Journal.exact_read ih same
  | resolve c => exact resolve_exact c
  | assign id solution => exact assign_exact id solution
  | freshWithSpine kind spine => exact freshWithSpine_exact kind spine
  | freshSkolem name kind => exact freshSkolem_exact name kind
  | kinds hx => exact onKindsFuelled_exact hx.composed
  | speculate _ keep ih => exact speculate_exact ih keep

end Store

end RowML
