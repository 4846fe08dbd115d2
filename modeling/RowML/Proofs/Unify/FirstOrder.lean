import RowML.Proofs.Unify.Principal
import RowML.Proofs.Unify.Speculation

/-!
# Kinds and the order of operands

Between first-order constructors of one kind, every solution that unification finds has the kind of
its cell.  Nothing is postponed, so speculative unification answers yes or no, and whether two
constructors with a common instance are found equal does not depend on which of them comes first.
-/

namespace RowML

open RowML.Con

variable {globals : Globals} {store store' : Store} {a b : Con} {Γ : List Kind} {g : Kind}

/-- What unification of first-order constructors comes to. -/
private theorem unify_decides {fuel depth : Nat} {answer : Except UnifyError Unit}
    {postponed : List Postponed} (ok : store.FirstOrder) (ha : a.FirstOrder store Γ g)
    (hb : b.FirstOrder store Γ g)
    (hrun : unify globals fuel depth a b store = some ((answer, postponed), store')) :
    postponed = [] ∧ ((∃ θ, store.SolvedBy θ ∧ a.Agree θ b) → answer = .ok ()) ∧
      (answer = .ok () → store'.FirstOrder ∧ Unify.Refines (fun θ => a.Agree θ b) store store' ∧
        ∀ θ, store'.SolvedBy θ → a.Coincides θ b) := by
  change Option.bind (Unify.unifyAt globals fuel depth a b [] store) _ = _ at hrun
  obtain ⟨⟨⟨result, equations⟩, final⟩, hresult, hpure⟩ := Option.bind_eq_some_iff.mp hrun
  cases hpure
  have hexec : exec (Unify.unifyAt globals fuel depth a b) ([], store) =
      some (succeeded result, postponed, store') := by
    change Option.map _ (Option.map _ (Unify.unifyAt globals fuel depth a b [] store)) = _
    rw [hresult]
    rfl
  obtain ⟨hpostponed, hfails, hsucceeds⟩ :=
    Unify.unifyAt_solves globals fuel depth ok ha hb (fun _ _ hθ => hθ) (Unify.local_agree ha hb)
      _ _ _ hexec
  refine ⟨hpostponed, fun ⟨θ, hθ, hagree⟩ => ?_, fun hok => ?_⟩
  · cases result with
    | ok => rfl
    | error => exact absurd hagree (hfails rfl θ hθ)
  · cases result with
    | ok => exact hsucceeds () rfl
    | error => cases hok

/-- After unification every solution has the kind of its cell, and the cells that were there keep
their kinds. -/
theorem unify_keeps_kinds {fuel depth : Nat} {postponed : List Postponed} (ok : store.FirstOrder)
    (ha : a.FirstOrder store Γ g) (hb : b.FirstOrder store Γ g)
    (hrun : unify globals fuel depth a b store = some ((.ok (), postponed), store')) :
    (∀ i x, store'.solution? i = some x →
      ∃ k, (store'.cell i).kind.Known store'.kinds k ∧ x.FirstOrder store' [] k) ∧
    ∀ i < store.cells.size, ∀ k,
      (store'.cell i).kind.Known store'.kinds k ↔ (store.cell i).kind.Known store.kinds k := by
  obtain ⟨-, -, hok⟩ := unify_decides ok ha hb hrun
  obtain ⟨ok', refines, -⟩ := hok rfl
  refine ⟨fun i x hi => ok'.solutions hi, fun i hi k => ?_⟩
  rw [refines.kind i hi]
  exact refines.known _ k

/-- A record with one known field and an open tail. -/
def openRecord (x : String) (p : Prim) (tail : MetaId) : Con :=
  .record (.concat (oneField x p) (.mvar tail []))

theorem firstOrder_openRecord (x : String) (p : Prim) (tail : MetaId) (htail : tail < 2) :
    (openRecord x p tail).FirstOrder (rowCells [none, none] #[]) [] .type :=
  .record (.concat (firstOrder_oneField _ x p) (firstOrder_twoRows_mvar tail htail) (Nat.le_refl 1))

/-- The tails of two records with different fields, solved by the field that is missing and a common
tail. -/
def commonTail (solved : Array MetaId) : Store :=
  rowCells [some (.concat (oneField "B" .string) (.mvar 2 [])),
    some (.concat (oneField "A" .int) (.mvar 2 [])), none] solved

theorem unify_keeps_kinds_twoRows :
    unify Globals.empty 10 0 (openRecord "A" .int 0) (openRecord "B" .string 1)
        (rowCells [none, none] #[]) = some ((.ok (), []), commonTail #[0, 1]) ∧
      (∀ i x, (commonTail #[0, 1]).solution? i = some x →
        ∃ k, ((commonTail #[0, 1]).cell i).kind.Known (commonTail #[0, 1]).kinds k ∧
          x.FirstOrder (commonTail #[0, 1]) [] k) ∧
      ∀ i < 2, ∀ k, ((commonTail #[0, 1]).cell i).kind.Known (commonTail #[0, 1]).kinds k ↔
        ((rowCells [none, none] #[]).cell i).kind.Known (rowCells [none, none] #[]).kinds k := by
  have hrun : unify Globals.empty 10 0 (openRecord "A" .int 0) (openRecord "B" .string 1)
      (rowCells [none, none] #[]) = some ((.ok (), []), commonTail #[0, 1]) := rfl
  exact ⟨hrun, unify_keeps_kinds firstOrder_twoRows (firstOrder_openRecord "A" .int 0 (by decide))
    (firstOrder_openRecord "B" .string 1 (by decide)) hrun⟩

/-- Beyond first order a solution may have another kind than its cell: the rows of two disjointness
types are compared without their kinds. -/
theorem unify_mixes_kinds :
    ∃ store store' : Store,
      unify Globals.empty 10 0 (.disjoint (.mvar 0 []) (.skolem 1) (.prim .int))
          (.disjoint (.skolem 0) (.skolem 1) (.prim .int)) store = some ((.ok (), []), store') ∧
        (store'.cell 0).kind = .record .type ∧ store'.solution? 0 = some (.skolem 0) ∧
        (store'.skolems[0]?).map (·.kind) = some (.record (.arrow .type .type)) :=
  ⟨{ Store.empty with
      cells := #[⟨.record .type, 0, none⟩]
      skolems := #[⟨"q", .record (.arrow .type .type)⟩, ⟨"s", .record .type⟩] },
    _, rfl, rfl, rfl, rfl⟩

/-! ## Speculation -/

/-- Stores that differ in their trails and snapshots only have the same solutions and kinds. -/
theorem Store.Alike.respells (h : store.Alike store') : store.Respells store' := by
  have hcell : store'.cell = store.cell := by
    funext i
    simp only [Store.cell, h.cells]
  have hsolution : store'.solution? = store.solution? := by
    funext i
    simp only [Store.solution?, hcell]
  have keeps : store.kinds.KeepsKnown store'.kinds :=
    KindStore.Shortens.keepsKnown fun v => .inl (by simp only [KindStore.stateOf, h.kinds])
  refine ⟨⟨by rw [h.cells], fun i _ => by rw [hcell], fun i _ => by rw [hcell],
    h.skolems.symm, keeps⟩,
    by rw [h.cells], fun i => by rw [Store.isSolved, Store.isSolved, hsolution], fun θ => ?_⟩
  have hrows : ∀ v g, (store'.cell v).kind.Known store'.kinds (.record g) ↔
      (store.cell v).kind.Known store.kinds (.record g) := fun v g => by
    rw [hcell]
    exact keeps _ _
  exact ⟨fun hθ => ⟨hθ.closed, fun hv => hθ.rows ((hrows _ _).mpr hv),
      fun hi => hθ.solutions (hsolution ▸ hi)⟩,
    fun hθ => ⟨hθ.closed, fun hv => hθ.rows ((hrows _ _).mp hv),
      fun hi => hθ.solutions (hsolution ▸ hi)⟩⟩

theorem Store.FirstOrder.opened (ok : store.FirstOrder) : store.opened.FirstOrder where
  steady := ok.steady.opened
  solutions {i x} hi := by
    obtain ⟨k, hkind, hx⟩ := ok.solutions hi
    have grows := (alike_opened store).respells.toExtends
    exact ⟨k, (grows.known _ _).mpr hkind, hx.mono grows⟩

/-- The answer is yes or no; and it is yes, with a solution that gives the operands a meaning, if
and only if they have a common instance. -/
private theorem tryUnify_decides {fuel depth : Nat} {result : TryResult} (ok : store.FirstOrder)
    (ha : a.FirstOrder store Γ g) (hb : b.FirstOrder store Γ g)
    (h : tryUnify globals fuel depth a b store = some (result, store')) :
    result ≠ .maybe ∧
      ((result = .yes ∧ ∃ θ t, store'.SolvedBy θ ∧ a.Denotes θ t) ↔
        ∃ θ, store.SolvedBy θ ∧ a.Agree θ b) := by
  rw [tryUnify_eq] at h
  obtain ⟨⟨⟨answer, postponed⟩, store₁⟩, hspeculate, hanswer⟩ := Option.bind_eq_some_iff.mp h
  cases hanswer
  obtain ⟨store₂, hrun, rfl⟩ := Store.speculate_eq_some hspeculate
  have hopened := (Store.alike_opened store).respells
  obtain ⟨rfl, hfinds, hok⟩ := unify_decides ok.opened (ha.mono hopened.toExtends)
    (hb.mono hopened.toExtends) hrun
  refine ⟨by cases answer <;> simp [outcome], ?_⟩
  cases answer with
  | error e =>
    refine ⟨fun h => absurd h.1 (by simp [outcome]), fun h => ?_⟩
    obtain ⟨θ, hθ, hagree⟩ := h
    cases hfinds ⟨θ, (hopened.solvedBy θ).mpr hθ, hagree⟩
  | ok =>
    obtain ⟨-, refines, hcoincides⟩ := hok rfl
    have hcommitted := (Store.alike_committed store₂).respells
    rw [show (if decide (outcome (.ok (), []) = .yes) = true then store₂.committed
      else store₂.rolledBack store.mark) = store₂.committed from rfl]
    refine ⟨fun h => ?_, fun h => ⟨rfl, ?_⟩⟩
    · obtain ⟨-, θ, t, hθ, hat⟩ := h
      have hθ₂ := (hcommitted.solvedBy θ).mp hθ
      exact ⟨θ, (hopened.solvedBy θ).mp (refines.back θ hθ₂), t, hat, (hcoincides θ hθ₂ t).mp hat⟩
    · obtain ⟨θ, hθ, t, hat, hbt⟩ := h
      obtain ⟨θ', hsame, hθ'⟩ := refines.forth θ ((hopened.solvedBy θ).mpr hθ) ⟨t, hat, hbt⟩
      exact ⟨θ', t, (hcommitted.solvedBy θ').mpr hθ', (ha.denotes_congr hsame).mp hat⟩

/-- Neither order of the operands is put off; and if one order is found equal, with a solution that
gives the operands a meaning, then so is the other one. -/
theorem tryUnify_unordered {fuel fuel' depth : Nat} {result result' : TryResult}
    {store₁ store₂ : Store} (ok : store.FirstOrder) (ha : a.FirstOrder store Γ g)
    (hb : b.FirstOrder store Γ g)
    (h : tryUnify globals fuel depth a b store = some (result, store₁))
    (h' : tryUnify globals fuel' depth b a store = some (result', store₂)) :
    result ≠ .maybe ∧ result' ≠ .maybe ∧
      ((result = .yes ∧ ∃ θ t, store₁.SolvedBy θ ∧ a.Denotes θ t) ↔
        (result' = .yes ∧ ∃ θ t, store₂.SolvedBy θ ∧ b.Denotes θ t)) := by
  obtain ⟨hdecided, hiff⟩ := tryUnify_decides ok ha hb h
  obtain ⟨hdecided', hiff'⟩ := tryUnify_decides ok hb ha h'
  refine ⟨hdecided, hdecided', hiff.trans (Iff.trans ?_ hiff'.symm)⟩
  exact ⟨fun ⟨θ, hθ, hagree⟩ => ⟨θ, hθ, hagree.symm⟩, fun ⟨θ, hθ, hagree⟩ => ⟨θ, hθ, hagree.symm⟩⟩

/-- Two records with different fields and open tails are found equal in both orders. -/
theorem tryUnify_unordered_twoRows :
    tryUnify Globals.empty 10 0 (openRecord "A" .int 0) (openRecord "B" .string 1)
        (rowCells [none, none] #[]) = some (.yes, commonTail #[0, 1]) ∧
      tryUnify Globals.empty 10 0 (openRecord "B" .string 1) (openRecord "A" .int 0)
        (rowCells [none, none] #[]) = some (.yes, commonTail #[1, 0]) ∧
      ((∃ θ t, (commonTail #[0, 1]).SolvedBy θ ∧ (openRecord "A" .int 0).Denotes θ t) ↔
        ∃ θ t, (commonTail #[1, 0]).SolvedBy θ ∧ (openRecord "B" .string 1).Denotes θ t) := by
  have hrun : tryUnify Globals.empty 10 0 (openRecord "A" .int 0) (openRecord "B" .string 1)
      (rowCells [none, none] #[]) = some (.yes, commonTail #[0, 1]) := rfl
  have hrun' : tryUnify Globals.empty 10 0 (openRecord "B" .string 1) (openRecord "A" .int 0)
      (rowCells [none, none] #[]) = some (.yes, commonTail #[1, 0]) := rfl
  obtain ⟨-, -, hiff⟩ := tryUnify_unordered firstOrder_twoRows
    (firstOrder_openRecord "A" .int 0 (by decide)) (firstOrder_openRecord "B" .string 1 (by decide))
    hrun hrun'
  exact ⟨hrun, hrun', fun h => (hiff.mp ⟨rfl, h⟩).2, fun h => (hiff.mpr ⟨rfl, h⟩).2⟩

/-- Beyond first order the order matters: a metavariable that is applied to a type is put off before
the other side is looked at. -/
theorem tryUnify_ordered :
    ∃ store store₁ store₂ : Store,
      tryUnify Globals.empty 10 0 (.mvar 1 [.prim .int]) (.mvar 0 []) store =
          some (.maybe, store₁) ∧
        tryUnify Globals.empty 10 0 (.mvar 0 []) (.mvar 1 [.prim .int]) store =
          some (.yes, store₂) :=
  ⟨{ Store.empty with cells := #[⟨.type, 0, none⟩, ⟨.type, 1, none⟩] }, _, _, rfl, rfl⟩

end RowML
