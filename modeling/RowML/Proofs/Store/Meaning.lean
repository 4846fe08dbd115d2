import RowML.Proofs.Normal.Denotation
import RowML.Proofs.Store.Following

/-!
# Reading solutions keeps meanings

An algebra that gives solved metavariables the meanings of their solutions does so in whatever way
the solutions are written.  Following the head of a constructor rewrites solutions and keeps the
meaning of the constructor.
-/

namespace RowML

open RowML.Con

variable {T : Type} [Tokens T] {A : Algebra T}

/-- Solved metavariables mean what their solutions mean. -/
def Con.Algebra.Solves (A : Algebra T) (store : Store) : Prop :=
  ∀ a b, store.Unfolds a b → meaning A a = meaning A b

namespace Store

variable {store : Store}

theorem SameCells.solves {store' : Store} (h : SameCells store store') (hA : A.Solves store) :
    A.Solves store' := by
  rintro _ _ ⟨hsolution, hlength⟩
  rw [h.solution?] at hsolution
  rw [h.cell] at hlength
  exact hA _ _ (.intro hsolution hlength)

/-- Constructors with one meaning have one meaning at every spine. -/
theorem meaning_instantiated_congr {c c' : Con} (h : meaning A c = meaning A c')
    (spine : List Con) : meaning A (c.instantiated spine) = meaning A (c'.instantiated spine) := by
  funext env
  rw [meaning_instantiated, meaning_instantiated, h]

/-- A cell may be given another solution with the same meaning. -/
theorem solves_put (hA : A.Solves store) {id : MetaId} {target solution : Con}
    (hid : store.solution? id = some target) (h : meaning A solution = meaning A target) :
    A.Solves (store.put id solution) := by
  have hlt := lt_of_solution hid
  rintro _ _ ⟨hfound, hlength⟩
  rename_i i found spine
  rw [solution?_put hlt] at hfound
  rw [arity_put hlt] at hlength
  split at hfound
  next heq =>
    subst heq
    cases hfound
    exact (hA _ _ (.intro hid hlength)).trans (meaning_instantiated_congr h spine).symm
  next => exact hA _ _ (.intro hfound hlength)

theorem resolveWithin_meaning (fuel : Nat) {c : Con} {store : Store} (ok : store.Steady)
    (hA : A.Solves store) (hc : c.Fits store) :
    A.Solves ((resolveWithin fuel c).run store).2 ∧
      meaning A ((resolveWithin fuel c).run store).1 = meaning A c := by
  induction fuel generalizing c store with
  | zero =>
    have hrun : resolveWithin 0 c = pure c := by cases c <;> rfl
    rw [hrun]
    exact ⟨hA, rfl⟩
  | succ fuel ih =>
    by_cases hmvar : ∃ i spine, c = .mvar i spine
    · obtain ⟨i, spine, rfl⟩ := hmvar
      cases hi : store.solution? i with
      | none =>
        have hrun : (resolveWithin (fuel + 1) (.mvar i spine)).run store =
            (.mvar i spine, store) := by
          rw [resolveWithin, StateT.run_bind, StateT.run_get, pure_bind, hi]
          rfl
        rw [hrun]
        exact ⟨hA, rfl⟩
      | some target =>
        rw [resolveWithin_solved fuel spine hi]
        have chased := chased_resolveWithin fuel ok (ok.fits hi)
        obtain ⟨hnext, hfinal⟩ := ih ok hA (ok.fits hi)
        generalize (resolveWithin fuel target).run store = next at *
        obtain ⟨final, next⟩ := next
        have hlength : spine.length = (store.cell i).arity := (hc.top i spine rfl).2
        have hunfold : meaning A (.mvar i spine) = meaning A (final.instantiated spine) :=
          (hA _ _ (.intro hi hlength)).trans (meaning_instantiated_congr hfinal spine).symm
        -- the cell still has its old solution when it is linked to the end of the chain
        obtain ⟨rank, hrank⟩ := ok.acyclic
        have hi' : next.solution? i = some target := (chased.above hrank i fun j spine' hj =>
          hrank i j ⟨target, hi, hj ▸ .here spine'⟩).trans hi
        refine ⟨(sameCells_withKinds _ _).solves ?_, ?_⟩
        · split
          next => exact solves_put hnext hi' hfinal
          next => exact hnext
        · exact (meaning_alike (instantiate_resembles final spine _)).symm.trans hunfold.symm
    · have hrun : resolveWithin (fuel + 1) c = pure c := by
        cases c <;> first | rfl | exact absurd ⟨_, _, rfl⟩ hmvar
      rw [hrun]
      exact ⟨hA, rfl⟩

/-- The discipline of computations that solve nothing, over stores whose solutions an algebra
respects. -/
def interpreted (A : Algebra T) : Discipline Store where
  Ok store := store.Steady ∧ A.Solves store
  Grows := Compresses
  refl store _ := Compresses.refl store
  trans _ _ _ := Compresses.trans

theorem resolve_meaning {c : Con} (ok : (interpreted A).Ok store) (hc : c.Fits store) :
    Yields (interpreted A) store (resolve c) fun r store' =>
      r.Fits store' ∧ meaning A r = meaning A c := by
  have chased := chased_resolveWithin store.cells.size ok.1 hc
  obtain ⟨hsolves, hmeaning⟩ := resolveWithin_meaning store.cells.size ok.1 ok.2 hc
  exact Yields.of_exec rfl ⟨chased.ok, hsolves⟩ chased.compresses ⟨chased.fits, hmeaning⟩

theorem onKinds_meaning {x : KindM Con} {c : Con} (ok : (interpreted A).Ok store)
    (hc : c.Fits store) (hx : ∀ ks, Con.Resembles c (x.run ks).1) :
    Yields (interpreted A) store (onKinds x) fun r store' =>
      r.Fits store' ∧ meaning A r = meaning A c := by
  have same : SameCells store (store.withKinds (x.run store.kinds).2) := sameCells_withKinds _ _
  refine Yields.of_exec rfl ⟨same.steady ok.1, same.solves ok.2⟩ (.of_sameCells same) ⟨?_, ?_⟩
  · exact (hc.of_alike (hx _)).evolves same.evolves
  · exact (meaning_alike (hx _)).symm

end Store

end RowML
