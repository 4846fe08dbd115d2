import RowML.Proofs.Store.Termination

/-!
# Solutions that imitate

A solution shows a node of its own, or it is one of the variables of its cell.  In the second case
the metavariable stands for an entry of its spine, and following solutions stops at that entry even
if it is a solved metavariable.  Where no solution is a variable, what is found at the end of a
chain is unsolved if it is a metavariable.
-/

namespace RowML

namespace Store

variable {store store' : Store} {c : Con}

/-- No cell is solved by one of its own variables. -/
def Imitates (store : Store) : Prop :=
  ∀ {i x}, store.solution? i = some x → ∀ v, x ≠ .bvar v

theorem Imitates.sameCells (h : store.Imitates) (same : SameCells store store') :
    store'.Imitates :=
  fun hi => h (same.solution? ▸ hi)

theorem Imitates.put (h : store.Imitates) {x : Con} (hx : ∀ v, x ≠ .bvar v) (id : MetaId) :
    (store.put id x).Imitates := by
  intro i y hi
  by_cases hne : i = id
  · subst hne
    have hlt := lt_of_solution hi
    rw [size_put] at hlt
    rw [solution?_put hlt, if_pos rfl] at hi
    cases hi
    exact hx
  · rw [solution?_put_of_ne hne] at hi
    exact h hi

/-- Instantiating a constructor other than a variable keeps its node. -/
theorem frame_instantiate (hc : ∀ v, c ≠ .bvar v) (spine : List Con) (kinds : KindStore) :
    ((c.instantiate spine).run kinds).1.frame = c.frame :=
  (Con.instantiate_resembles c spine kinds).frame_eq.symm.trans (Con.frame_traverse hc)

/-- Following a chain from a constructor other than a variable. -/
theorem resolveWithin_imitates (n : Nat) (h : store.Imitates) (hc : ∀ v, c ≠ .bvar v) :
    ((resolveWithin n c).run store).2.Imitates ∧
      ∀ v, ((resolveWithin n c).run store).1 ≠ .bvar v := by
  induction n generalizing c with
  | zero =>
    have hrun : resolveWithin 0 c = pure c := by cases c <;> rfl
    rw [hrun]
    exact ⟨h, hc⟩
  | succ n ih =>
    by_cases hunsolved : ∀ i spine, c = .mvar i spine → store.isSolved i = false
    · rw [resolveWithin_unsolved hunsolved]
      exact ⟨h, hc⟩
    push Not at hunsolved
    obtain ⟨i, spine, rfl, hsolved⟩ := hunsolved
    have hsolved : store.isSolved i = true := by simpa using hsolved
    obtain ⟨target, hi⟩ := Option.isSome_iff_exists.mp hsolved
    rw [resolveWithin_solved n spine hi]
    obtain ⟨hnext, hfinal⟩ := ih (h hi)
    generalize (resolveWithin n target).run store = next at hnext hfinal ⊢
    obtain ⟨final, next⟩ := next
    refine ⟨?_, Con.ne_bvar_of_frame (frame_instantiate hfinal spine _) hfinal⟩
    refine Imitates.sameCells ?_ (sameCells_withKinds _ _)
    simp only
    split
    · exact hnext.put hfinal i
    · exact hnext

/-- The end of a chain is no solved metavariable, given enough fuel. -/
theorem resolveWithin_head {rank : MetaId → Nat} (hrank : Ranks store.Leads rank)
    (hpositive : ∀ i, store.isSolved i = true → 0 < rank i) (h : store.Imitates) (n : Nat)
    (hn : ∀ i spine, c = .mvar i spine → rank i ≤ n) {j : MetaId} {spine : List Con}
    (hj : ((resolveWithin n c).run store).1 = .mvar j spine) : store.isSolved j = false := by
  induction n generalizing c spine with
  | zero =>
    have hrun : resolveWithin 0 c = pure c := by cases c <;> rfl
    rw [hrun] at hj
    by_contra hsolved
    have := hpositive j (by simpa using hsolved)
    have := hn j spine hj
    omega
  | succ n ih =>
    by_cases hunsolved : ∀ i spine, c = .mvar i spine → store.isSolved i = false
    · rw [resolveWithin_unsolved hunsolved] at hj
      exact hunsolved j spine hj
    push Not at hunsolved
    obtain ⟨i, spine', rfl, hsolved⟩ := hunsolved
    have hsolved : store.isSolved i = true := by simpa using hsolved
    obtain ⟨target, hi⟩ := Option.isSome_iff_exists.mp hsolved
    rw [resolveWithin_solved n spine' hi] at hj
    -- the solution has the node of the answer, which is a metavariable
    have hfinal := (resolveWithin_imitates n h (h hi)).2
    have hframe := (congrArg Con.frame hj).symm.trans (frame_instantiate hfinal spine' _)
    refine ih (fun w spine hw => ?_) (Con.eq_mvar_of_frame hframe)
    have := hrank i w ⟨target, hi, hw ▸ .here spine⟩
    have := hn i spine' rfl
    omega

/-- If the constructor is a metavariable, it is unsolved. -/
def HeadUnsolved (store : Store) (c : Con) : Prop :=
  ∀ i spine, c = .mvar i spine → store.isSolved i = false

/-- The discipline of computations that solve nothing, where solutions imitate. -/
def imitation : Discipline Store where
  Ok store := store.Steady ∧ store.Imitates
  Grows := Compresses
  refl store _ := Compresses.refl store
  trans _ _ _ := Compresses.trans

theorem onKinds_imitates {α : Type} (x : KindM α) (ok : imitation.Ok store) :
    Yields imitation store (onKinds x) fun a store' =>
      SameCells store store' ∧ a = (x.run store.kinds).1 := by
  have same : SameCells store (store.withKinds (x.run store.kinds).2) := sameCells_withKinds _ _
  exact Yields.of_exec rfl ⟨same.steady ok.1, Imitates.sameCells ok.2 same⟩
    (.of_sameCells same) ⟨same, rfl⟩

theorem resolve_shows (ok : imitation.Ok store) (hc : c.Fits store) :
    Yields imitation store (resolve c) fun r store' =>
      Headed store c r store' ∧ store'.HeadUnsolved r := by
  obtain ⟨rank, hrank, hpositive, hle⟩ := ok.1.acyclic.exists_bounded_rank
  have chased := chased_resolveWithin store.cells.size ok.1 hc
  have himitates : ((resolveWithin store.cells.size c).run store).2.Imitates := by
    by_cases hbvar : ∃ v, c = .bvar v
    · obtain ⟨v, rfl⟩ := hbvar
      rw [resolveWithin_unsolved (by simp)]
      exact ok.2
    · exact (resolveWithin_imitates _ ok.2 fun v hv => hbvar ⟨v, hv⟩).1
  refine Yields.of_exec rfl ⟨chased.ok, himitates⟩ chased.compresses ⟨?_, fun j spine hj => ?_⟩
  · exact ((resolve_keeps ok.1 hc) _ _ rfl).2.2 _ rfl
  · refine (chased.compresses.solved j).trans ?_
    exact resolveWithin_head hrank hpositive ok.2 _ (fun i _ _ => hle i) hj

end Store

end RowML
