import RowML.Proofs.Effect
import RowML.Proofs.Store.Journal

/-!
# Reporting solutions

The list of solved cells is what lets others wait for a solution: every computation over a store
adds the cells that it solves to the end of the list, and takes nothing from it.  Cells that a
speculation solved are unsolved again after the rollback, and no longer in the list.  None of this
depends on what the constructors in the store are, so that it holds of every store a run can meet.
-/

namespace RowML

namespace Store

variable {store store' store'' : Store}

/-- A solution on the trail belongs to a cell that exists. -/
def Recorded (store : Store) : Prop :=
  ∀ entry ∈ store.trail, entry.2.isSome → entry.1 < store.cells.size

/-- The second store lists the cells that are solved in it and not in the first one, after those
that the first one lists.  While a snapshot is open, the trail leads back to the first store. -/
structure Reports (store store' : Store) : Prop where
  size : store.cells.size ≤ store'.cells.size
  snapshots : store'.snapshots = store.snapshots
  stays : ∀ {i}, store.isSolved i → store'.isSolved i
  listed : ∃ news, store'.solved.toList = store.solved.toList ++ news ∧
    ∀ {i}, store'.isSolved i → store.isSolved i ∨ i ∈ news
  logged : store.snapshots ≠ 0 → ∃ entries, store'.trail = entries ++ store.trail ∧
    undo store'.solution? entries = store.solution?

namespace Reports

/-- A store that differs in nothing that is reported. -/
theorem of_eq (hsize : store.cells.size ≤ store'.cells.size)
    (hsolution : store'.solution? = store.solution?) (hsolved : store'.solved = store.solved)
    (htrail : store'.trail = store.trail) (hsnapshots : store'.snapshots = store.snapshots) :
    store.Reports store' where
  size := hsize
  snapshots := hsnapshots
  stays h := by rwa [isSolved, hsolution]
  listed :=
    ⟨[], by rw [hsolved, List.append_nil], fun h => .inl (by rwa [isSolved, hsolution] at h)⟩
  logged _ := ⟨[], htrail, hsolution⟩

theorem trans (h : store.Reports store') (h' : store'.Reports store'') :
    store.Reports store'' where
  size := Nat.le_trans h.size h'.size
  snapshots := h'.snapshots.trans h.snapshots
  stays hsolved := h'.stays (h.stays hsolved)
  listed := by
    obtain ⟨news, hlist, hnews⟩ := h.listed
    obtain ⟨news', hlist', hnews'⟩ := h'.listed
    refine ⟨news ++ news', by rw [hlist', hlist, List.append_assoc], fun hsolved => ?_⟩
    rcases hnews' hsolved with hsolved | hmem
    · exact (hnews hsolved).imp_right (List.mem_append_left _)
    · exact .inr (List.mem_append_right _ hmem)
  logged hopen := by
    obtain ⟨entries, htrail, hundo⟩ := h.logged hopen
    obtain ⟨entries', htrail', hundo'⟩ := h'.logged (h.snapshots ▸ hopen)
    refine ⟨entries' ++ entries, ?_, ?_⟩
    · rw [htrail', htrail, List.append_assoc]
    · rw [undo_append, hundo', hundo]

/-- What is solved and not listed was solved before and not listed then. -/
theorem unlisted (h : store.Reports store') {i : MetaId} (hsolved : store'.isSolved i)
    (hlist : i ∉ store'.solved.toList) : store.isSolved i ∧ i ∉ store.solved.toList := by
  obtain ⟨news, heq, hnews⟩ := h.listed
  rw [heq, List.mem_append, not_or] at hlist
  exact ⟨(hnews hsolved).resolve_right hlist.2, hlist.1⟩

end Reports

/-- What every computation does to a store. -/
def Reporting (store store' : Store) : Prop := store.Recorded → store'.Recorded ∧
    store.Reports store'

instance : IsPreorder Store Reporting where
  refl _ ok := ⟨ok, .of_eq (Nat.le_refl _) rfl rfl rfl rfl⟩
  trans _ _ _ h h' ok :=
    have ⟨ok', reports⟩ := h ok
    have ⟨ok'', reports'⟩ := h' ok'
    ⟨ok'', reports.trans reports'⟩

/-! ## Changing cells -/

/-- A change of something else. -/
theorem reporting_of_eq (hsize : store.cells.size ≤ store'.cells.size)
    (hsolution : store'.solution? = store.solution?) (hsolved : store'.solved = store.solved)
    (htrail : store'.trail = store.trail) (hsnapshots : store'.snapshots = store.snapshots) :
    store.Reporting store' := by
  refine fun ok => ⟨fun entry hentry hsome => ?_, .of_eq hsize hsolution hsolved htrail hsnapshots⟩
  rw [htrail] at hentry
  exact Nat.lt_of_lt_of_le (ok entry hentry hsome) hsize

theorem Recorded.put (ok : store.Recorded) (id : MetaId) (solution : Con) :
    (store.put id solution).Recorded := by
  intro entry hentry hsome
  rw [trail_put] at hentry
  rw [size_put]
  split at hentry
  · exact ok entry hentry hsome
  · rcases List.mem_cons.mp hentry with rfl | hentry
    · exact lt_of_solution (Option.some_get hsome).symm
    · exact ok entry hentry hsome

theorem logged_put (id : MetaId) (solution : Con) (hopen : store.snapshots ≠ 0) :
    ∃ entries, (store.put id solution).trail = entries ++ store.trail ∧
      undo (store.put id solution).solution? entries = store.solution? := by
  refine ⟨[(id, store.solution? id)], ?_, ?_⟩
  · rw [trail_put, if_neg hopen]
    rfl
  · funext i
    change Function.update _ id _ i = _
    rw [Function.update_apply]
    split
    next h => rw [h]
    next h => exact solution?_put_of_ne h solution

/-- Another solution for a solved cell is no news. -/
theorem reporting_put {id : MetaId} (hsolved : store.isSolved id) (solution : Con) :
    store.Reporting (store.put id solution) := by
  have hid : id < store.cells.size := lt_of_solution (Option.some_get hsolved).symm
  have hsame : ∀ i, (store.put id solution).isSolved i = store.isSolved i := by
    intro i
    rw [isSolved, solution?_put hid]
    split
    next h => rw [h, hsolved, Option.isSome_some]
    next => rfl
  refine fun ok => ⟨ok.put id solution, ?_⟩
  exact
    { size := Nat.le_of_eq (size_put id solution).symm
      snapshots := rfl
      stays := fun h => (hsame _).trans h
      listed := ⟨[], (List.append_nil _).symm, fun h => .inl ((hsame _).symm.trans h)⟩
      logged := logged_put id solution }

theorem reporting_assigned {id : MetaId} (hunsolved : store.solution? id = none) (solution : Con) :
    store.Reporting (store.assigned id solution) := by
  refine fun ok => ⟨ok.put id solution, ?_⟩
  have hother : ∀ {i}, i ≠ id → (store.assigned id solution).isSolved i = store.isSolved i :=
    fun h => congrArg Option.isSome (solution?_put_of_ne h solution)
  refine ⟨Nat.le_of_eq (size_put id solution).symm, rfl, fun {i} h => ?_,
    ⟨[id], ?_, fun {i} h => ?_⟩, logged_put id solution⟩
  · have hne : i ≠ id := by
      rintro rfl
      rw [isSolved, hunsolved] at h
      cases h
    rwa [hother hne]
  · exact Array.toList_push
  · by_cases hne : i = id
    · exact .inr (List.mem_singleton.mpr hne)
    · exact .inl (by rwa [hother hne] at h)

/-! ## Elementary computations -/

theorem assign_reporting (id : MetaId) (solution : Con) :
    Within Reporting (assign id solution).run := by
  intro store store' heffect
  have heffect : ((assign id solution).run.run store).2 = store' := heffect
  rw [assign_run] at heffect
  rcases hsolution : store.solution? id with _ | existing <;> rw [hsolution] at heffect <;>
    subst heffect
  · exact reporting_assigned hsolution solution
  · exact refl_of Reporting store

theorem onKindsFuelled_reporting {α : Type} (x : Fuelled KindStore α) :
    Within Reporting (onKindsFuelled x) := by
  rintro store store' ⟨a, heffect⟩
  obtain ⟨r, -, hr⟩ := Option.map_eq_some_iff.mp heffect
  cases hr
  exact reporting_of_eq (Nat.le_refl _) rfl rfl rfl rfl

theorem freshWithSpine_reporting (kind : Kind) (spine : List Con) :
    Within Reporting (freshWithSpine kind spine) := by
  rintro store _ rfl
  change store.Reporting (store.extended kind spine.length)
  refine reporting_of_eq ?_ (funext (solution?_extended _ _)) rfl rfl rfl
  simp [extended]

theorem freshSkolem_reporting (name : String) (kind : Kind) :
    Within Reporting (freshSkolem name kind) := by
  rintro store _ rfl
  exact reporting_of_eq (Nat.le_refl _) rfl rfl rfl rfl

/-! ## Reading solutions -/

/-- A chain of solved cells is shortened, and nothing is solved. -/
theorem resolveWithin_reporting (n : Nat) (c : Con) : Within Reporting (resolveWithin n c) := by
  induction n generalizing c with
  | zero =>
    have hrun : resolveWithin 0 c = pure c := by cases c <;> rfl
    rw [hrun]
    exact .pure c
  | succ n ih =>
    intro store store' heffect
    have heffect : ((resolveWithin (n + 1) c).run store).2 = store' := heffect
    by_cases hunsolved : ∀ id spine, c = .mvar id spine → store.isSolved id = false
    · rw [resolveWithin_unsolved hunsolved] at heffect
      exact heffect ▸ refl_of Reporting store
    push Not at hunsolved
    obtain ⟨id, spine, rfl, hsolved⟩ := hunsolved
    have hsolved : store.isSolved id = true := by simpa using hsolved
    obtain ⟨target, hid⟩ := Option.isSome_iff_exists.mp hsolved
    rw [resolveWithin_solved n spine hid] at heffect
    generalize hnext : (resolveWithin n target).run store = next at heffect
    have hfirst : store.Reporting next.2 := hnext ▸ ih target store _ rfl
    have hrelinked :
      store.Reporting (if next.1 ≠ target then next.2.put id next.1 else next.2) := by
      split
      · refine fun ok => trans_of Reporting hfirst (reporting_put ?_ next.1) ok
        exact (hfirst ok).2.stays hsolved
      · exact hfirst
    subst heffect
    refine trans_of Reporting hrelinked ?_
    exact reporting_of_eq (Nat.le_refl _) rfl rfl rfl rfl

theorem resolve_reporting (c : Con) : Within Reporting (resolve c) :=
  fun store store' heffect => resolveWithin_reporting store.cells.size c store store' heffect

/-! ## Speculation -/

/-- The store with old solutions put back, the newest first. -/
private def restoredAll (store : Store) (entries : List (MetaId × Option Con)) : Store :=
  { store with
    cells := entries.foldl
      (fun cells (id, solution) => cells.modify id ({ · with solution })) store.cells }

private theorem restoredAll_cons (entry : MetaId × Option Con)
    (entries : List (MetaId × Option Con)) :
    store.restoredAll (entry :: entries) = (store.restoredAll [entry]).restoredAll entries :=
  rfl

private theorem restoredAll_singleton (id : MetaId) (old : Option Con) :
    store.restoredAll [(id, old)] =
      { store with cells := store.cells.modify id ({ · with solution := old }) } :=
  rfl

private theorem size_restoredAll (entries : List (MetaId × Option Con)) :
    (store.restoredAll entries).cells.size = store.cells.size := by
  induction entries generalizing store with
  | nil => rfl
  | cons entry entries ih =>
    obtain ⟨id, old⟩ := entry
    rw [restoredAll_cons, ih, restoredAll_singleton]
    exact Array.size_modify

/-- A cell that does not exist has no solution, before and after. -/
private theorem solution?_restoredAll_singleton {id : MetaId} {old : Option Con}
    (h : old.isSome → id < store.cells.size) :
    (store.restoredAll [(id, old)]).solution? = Function.update store.solution? id old := by
  funext i
  rw [Function.update_apply, restoredAll_singleton, solution?, solution?, cell, cell,
    Array.getElem?_modify]
  by_cases hi : i = id
  · subst hi
    rw [if_pos rfl, if_pos rfl]
    by_cases hsize : i < store.cells.size
    · simp [hsize]
    · have hnone : old = none := Option.not_isSome_iff_eq_none.mp (mt h hsize)
      simp [hsize, hnone]
  · rw [if_neg (Ne.symm hi), if_neg hi]

private theorem solution?_restoredAll {entries : List (MetaId × Option Con)}
    (h : ∀ entry ∈ entries, entry.2.isSome → entry.1 < store.cells.size) :
    (store.restoredAll entries).solution? = undo store.solution? entries := by
  induction entries generalizing store with
  | nil => rfl
  | cons entry entries ih =>
    obtain ⟨hentry, hentries⟩ := List.forall_mem_cons.mp h
    have hrest : ∀ e ∈ entries, e.2.isSome → e.1 < (store.restoredAll [entry]).cells.size := by
      rw [size_restoredAll]
      exact hentries
    rw [restoredAll_cons, ih hrest, solution?_restoredAll_singleton hentry]
    rfl

/-- A computation between a snapshot and its rollback reports nothing. -/
theorem reporting_rolledBack (h : store.opened.Reporting store') {mark : Snapshot}
    (htrail : mark.trail = store.trail.length) (hsolved : mark.solved = store.solved.size) :
    store.Reporting (store'.rolledBack mark) := by
  intro ok
  obtain ⟨ok', reports⟩ := h ok
  obtain ⟨entries, hentries, hundo⟩ := reports.logged (Nat.succ_ne_zero _)
  obtain ⟨news, hnews, -⟩ := reports.listed
  have hentries : store'.trail = entries ++ store.trail := hentries
  have hnews : store'.solved.toList = store.solved.toList ++ news := hnews
  have hlength : store'.trail.length - mark.trail = entries.length := by
    rw [hentries, htrail, List.length_append]
    omega
  have hback : (store'.rolledBack mark).trail = store.trail := by
    change store'.trail.drop (store'.trail.length - mark.trail) = _
    rw [hlength, hentries, List.drop_left]
  have hcell : (store'.rolledBack mark).cells = (store'.restoredAll entries).cells := by
    change (store'.restoredAll (store'.trail.take (store'.trail.length - mark.trail))).cells = _
    rw [hlength, hentries, List.take_left]
  have hsolution : (store'.rolledBack mark).solution? = (store'.restoredAll entries).solution? := by
    funext i
    rw [solution?, solution?, cell, cell, hcell]
  refine reporting_of_eq ?_ ?_ ?_ hback ?_ ok
  · rw [hcell, size_restoredAll]
    exact reports.size
  · rw [hsolution, solution?_restoredAll, hundo]
    · rfl
    · exact fun entry hentry => ok' entry (hentries ▸ List.mem_append_left _ hentry)
  · apply Array.toList_inj.mp
    change (store'.solved.take mark.solved).toList = _
    simp [hnews, hsolved]
  · change store'.snapshots - 1 = _
    rw [reports.snapshots]
    rfl

theorem reporting_committed (h : store.opened.Reporting store') :
    store.Reporting store'.committed := by
  intro ok
  obtain ⟨ok', reports⟩ := h ok
  have hsnapshots : store'.snapshots = store.snapshots + 1 := reports.snapshots
  refine ⟨fun entry hentry hsome => ?_, reports.size, ?_, reports.stays, reports.listed, ?_⟩
  · rw [trail_committed] at hentry
    split at hentry
    · cases hentry
    · exact ok' entry hentry hsome
  · change store'.snapshots - 1 = _
    rw [hsnapshots, Nat.add_sub_cancel]
  · intro hopen
    obtain ⟨entries, hentries, hundo⟩ := reports.logged (Nat.succ_ne_zero _)
    refine ⟨entries, ?_, hundo⟩
    rw [trail_committed, hsnapshots, Nat.add_sub_cancel, if_neg hopen]
    exact hentries

/-- A computation inside a snapshot that is closed after it. -/
theorem speculate_reporting {α : Type} {x : FuelM α} (hx : Within Reporting x) (keep : α → Bool) :
    Within Reporting (speculate x keep) := by
  rintro store store' ⟨a, heffect⟩
  obtain ⟨store₁, hrun, rfl⟩ := speculate_eq_some heffect
  have hreporting := hx _ _ ⟨a, hrun⟩
  split
  · exact reporting_committed hreporting
  · exact reporting_rolledBack hreporting rfl rfl

/-- Every computation reports the cells that it solves. -/
theorem Composed.reporting {α : Type} {x : FuelM α} (h : Composed α x) : Within Reporting x := by
  induction h with
  | pure a => exact .pure a
  | bind _ _ ihx ihf => exact .bind ihx ihf
  | outOfFuel => exact within_outOfFuel
  | read _ _ ih => exact fun s s' heffect => ih s s s' heffect
  | resolve c => exact within_fuelled (resolve_reporting c)
  | assign id solution => exact within_fuelled (assign_reporting id solution)
  | freshWithSpine kind spine => exact within_fuelled (freshWithSpine_reporting kind spine)
  | freshSkolem name kind => exact within_fuelled (freshSkolem_reporting name kind)
  | kinds _ => exact onKindsFuelled_reporting _
  | speculate _ keep ih => exact speculate_reporting ih keep

end Store

end RowML
