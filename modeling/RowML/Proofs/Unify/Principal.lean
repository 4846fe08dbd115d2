import RowML.Proofs.Unify.Leftovers
import RowML.Unify.Engine

/-!
# Principal solutions of first-order equations

Unification of first-order constructors with known kinds postpones nothing.  It fails only if no
solution makes the two sides equal, and otherwise keeps exactly the solutions that do.  It need not
notice that there is no solution because the parts of a row would share a label.
-/

namespace RowML

open Ground

/-- A variable and a skolem tell their kinds, and so do applications of them. -/
theorem Con.FirstOrder.kind_unique {store : Store} {Γ : List Kind} {c : Con} {g g' : Kind}
    (h : c.FirstOrder store Γ g) (h' : c.FirstOrder store Γ g') (hrigid : c.isRigid = true) :
    g = g' := by
  induction h generalizing g' with
  | bvar hi _ =>
    cases h' with
    | bvar hi' _ => exact Option.some.inj (hi.symm.trans hi')
  | skolem hkind _ =>
    cases h' with
    | skolem hkind' _ => exact hkind.unique hkind'
  | app _ hrigid _ _ ihf _ =>
    cases h' with
    | app hf' _ _ _ => exact (Kind.arrow.inj (ihf hf' hrigid)).2
  | _ => cases hrigid

namespace Unify

variable {goal : (MetaId → Ground) → Prop} {store : Store} {postponed : List Postponed}
  {Γ : List Kind} {g g' : Kind} {a b : Con}

/-- Two constructors have one kind, or are applications of variables and skolems. -/
def Comparable (g g' : Kind) (a b : Con) : Prop :=
  g = g' ∨ a.isRigid = true ∧ b.isRigid = true

/-- Unification of two constructors that may have different kinds.  If it succeeds, they have one
kind. -/
def SolvesComparable (unify : Con → Con → UnifyM Unit) : Prop :=
  ∀ {goal postponed store Γ g g' a b}, store.FirstOrder → a.FirstOrder store Γ g →
    b.FirstOrder store Γ g' → Comparable g g' a b →
    (∀ θ, store.SolvedBy θ → goal θ → a.Agree θ b) →
    Decides goal postponed store (unify a b) fun _ store' =>
      g = g' ∧ ∀ θ, store'.SolvedBy θ → a.Coincides θ b

theorem SolvesComparable.solves {unify : Con → Con → UnifyM Unit} (H : SolvesComparable unify) :
    Solves unify := fun ok ha hb hgoal =>
  (H ok ha hb (.inl rfl) hgoal).mono fun _ _ _ h => h.2

/-! ## Parts -/

section Parts

variable {unify : Con → Con → UnifyM Unit}

theorem both_decide (H : Solves unify) {a' b' : Con} (ok : store.FirstOrder)
    (ha : a.FirstOrder store Γ g) (hb : b.FirstOrder store Γ g) (ha' : a'.FirstOrder store Γ g')
    (hb' : b'.FirstOrder store Γ g')
    (hgoal : ∀ θ, store.SolvedBy θ → goal θ → a.Agree θ b ∧ a'.Agree θ b') :
    Decides goal postponed store (do unify a b; unify a' b') fun _ store' =>
      ∀ θ, store'.SolvedBy θ → a.Coincides θ b ∧ a'.Coincides θ b' := by
  refine .bind (H ok ha hb fun θ hθ hθ' => (hgoal θ hθ hθ').1) fun _ store₁ ok₁ refines₁ h => ?_
  refine (H ok₁ (ha'.mono refines₁.toExtends) (hb'.mono refines₁.toExtends) fun θ hθ hθ' =>
    (hgoal θ (refines₁.back θ hθ) hθ').2).mono fun _ store₂ refines₂ h' θ hθ => ?_
  exact ⟨h θ (refines₂.back θ hθ), h' θ hθ⟩

/-- The bodies of two binders for variables of one kind. -/
theorem bodies_decide (H : Solves unify) (fuel : Nat) {k k' : Kind} (ok : store.FirstOrder)
    (hk : k.Known store.kinds g) (hk' : k'.Known store.kinds g) (ha : a.FirstOrder store Γ g')
    (hb : b.FirstOrder store Γ g') (hgoal : ∀ θ, store.SolvedBy θ → goal θ → a.Agree θ b) :
    Decides goal postponed store (do unifyKinds fuel k k'; unify a b) fun _ store' =>
      ∀ θ, store'.SolvedBy θ → a.Coincides θ b := by
  refine .bind (unifyKinds_decides fuel ok hk hk') fun _ store₁ ok₁ refines₁ respells₁ => ?_
  exact H ok₁ (ha.mono respells₁.toExtends) (hb.mono respells₁.toExtends) fun θ hθ hθ' =>
    hgoal θ (refines₁.back θ hθ) hθ'

/-- The functions of two applications are compared first, so the arguments have one kind. -/
theorem application_decides (H : SolvesComparable unify) {f f' : Con} {k k' : Kind}
    (ok : store.FirstOrder) (hf : f.FirstOrder store Γ (.arrow k g)) (ha : a.FirstOrder store Γ k)
    (hf' : f'.FirstOrder store Γ (.arrow k' g')) (hb : b.FirstOrder store Γ k')
    (hrigid : f.isRigid = true ∧ f'.isRigid = true)
    (hgoal : ∀ θ, store.SolvedBy θ → goal θ → (Con.app f a).Agree θ (.app f' b)) :
    Decides goal postponed store (do unify f f'; unify a b) fun _ store' =>
      g = g' ∧ ∀ θ, store'.SolvedBy θ → (Con.app f a).Coincides θ (.app f' b) := by
  have hparts := fun θ hθ hθ' => (hgoal θ hθ hθ').of_app
  refine .bind (H ok hf hf' (.inr hrigid) fun θ hθ hθ' => (hparts θ hθ hθ').1) ?_
  rintro _ store₁ ok₁ refines₁ ⟨hkind, h⟩
  obtain ⟨rfl, rfl⟩ := Kind.arrow.inj hkind
  refine (SolvesComparable.solves H ok₁ (ha.mono refines₁.toExtends) (hb.mono refines₁.toExtends)
    fun θ hθ hθ' => (hparts θ (refines₁.back θ hθ) hθ').2).mono ?_
  exact fun _ store₂ refines₂ h' => ⟨rfl, fun θ hθ => (h θ (refines₂.back θ hθ)).app (h' θ hθ)⟩

/-- Tuples of one kind have the same length. -/
theorem length_eq {cs cs' : List Con} (hcs : (Con.tuple cs).FirstOrder store Γ g)
    (hcs' : (Con.tuple cs').FirstOrder store Γ g) : cs.length = cs'.length := by
  induction cs generalizing cs' g with
  | nil =>
    cases hcs
    cases hcs'
    rfl
  | cons c cs ih =>
    cases hcs with
    | tupleCons _ hcs =>
      cases hcs' with
      | tupleCons _ hcs' => exact congrArg (· + 1) (ih hcs hcs')

theorem tuple_decides (H : Solves unify) {cs cs' : List Con} (ok : store.FirstOrder)
    (hcs : (Con.tuple cs).FirstOrder store Γ g) (hcs' : (Con.tuple cs').FirstOrder store Γ g)
    (hgoal : ∀ θ, store.SolvedBy θ → goal θ → (Con.tuple cs).Agree θ (.tuple cs')) :
    Decides goal postponed store ((cs.zip cs').forM fun (c, c') => unify c c') fun _ store' =>
      ∀ θ, store'.SolvedBy θ → (Con.tuple cs).Coincides θ (.tuple cs') := by
  induction cs generalizing cs' g store with
  | nil =>
    cases hcs
    cases hcs'
    exact .pure ok fun _ _ => .refl _
  | cons c cs ih =>
    cases hcs with
    | tupleCons hc hcs =>
      cases hcs' with
      | @tupleCons _ c' cs' _ _ hc' hcs' =>
        have hparts := fun θ hθ hθ' => (hgoal θ hθ hθ').of_tupleCons
        refine .bind (H ok hc hc' fun θ hθ hθ' => (hparts θ hθ hθ').1) ?_
        intro _ store₁ ok₁ refines₁ h
        refine (ih ok₁ (hcs.mono refines₁.toExtends) (hcs'.mono refines₁.toExtends)
          fun θ hθ hθ' => (hparts θ (refines₁.back θ hθ) hθ').2).mono ?_
        exact fun _ store₂ refines₂ h' θ hθ => (h θ (refines₂.back θ hθ)).tupleCons (h' θ hθ)

/-- Different forms do not denote the same. -/
theorem clash_decides (hgoal : ∀ θ, store.SolvedBy θ → goal θ → a.Agree θ b)
    (hclash : ∀ θ t, a.Denotes θ t → ¬ b.Denotes θ t) {Post : Unit → Store → Prop} :
    Decides goal postponed store (mismatch a b .structural) Post := by
  refine .mismatch fun θ hθ hθ' => ?_
  obtain ⟨t, h, h'⟩ := hgoal θ hθ hθ'
  exact hclash θ t h h'

end Parts

section Steps

variable {unify : Nat → Con → Con → UnifyM Unit}

/-- Two applications of variables and skolems. -/
theorem rigidParts_decide (H : ∀ depth, SolvesComparable (unify depth)) (fuel depth : Nat)
    (ok : store.FirstOrder) (ha : a.FirstOrder store Γ g) (hb : b.FirstOrder store Γ g')
    (hrigid : a.isRigid = true ∧ b.isRigid = true) (hne : a ≠ b)
    (hgoal : ∀ θ, store.SolvedBy θ → goal θ → a.Agree θ b) :
    Decides goal postponed store (unifyParts fuel depth unify a b) fun _ store' =>
      g = g' ∧ ∀ θ, store'.SolvedBy θ → a.Coincides θ b := by
  cases ha with
  | bvar | skolem =>
    cases hb with
    | bvar | skolem =>
      refine clash_decides hgoal fun θ t h h' => ?_
      cases h
      cases h'
      try exact hne rfl
    | app => exact clash_decides hgoal fun θ t h h' => by cases h; cases h'
    | _ => cases hrigid.2
  | app hf hrigidF ha =>
    cases hb with
    | bvar | skolem => exact clash_decides hgoal fun θ t h h' => by cases h; cases h'
    | app hf' hrigidF' hb =>
      exact application_decides (H depth) ok hf ha hf' hb ⟨hrigidF, hrigidF'⟩ hgoal
    | _ => cases hrigid.2
  | _ => cases hrigid.1

/-- Two constructors that are no metavariables and no rows. -/
theorem unifyParts_decides (H : ∀ depth, SolvesComparable (unify depth)) (fuel depth : Nat)
    (ok : store.FirstOrder) (ha : a.FirstOrder store Γ g) (hb : b.FirstOrder store Γ g)
    (hne : a ≠ b)
    (hmvar : a.isMVar = false ∧ b.isMVar = false)
    (hrow : a.isRowForm = false ∧ b.isRowForm = false)
    (hgoal : ∀ θ, store.SolvedBy θ → goal θ → a.Agree θ b) :
    Decides goal postponed store (unifyParts fuel depth unify a b) fun _ store' =>
      ∀ θ, store'.SolvedBy θ → a.Coincides θ b := by
  by_cases hrigid : a.isRigid = true ∧ b.isRigid = true
  · exact (rigidParts_decide H fuel depth ok ha hb hrigid hne hgoal).mono fun _ _ _ h => h.2
  replace H : ∀ depth, Solves (unify depth) := fun depth =>
    SolvesComparable.solves (H depth)
  cases ha with
  | mvar => cases hmvar.1
  | rowNil | rowCons | concat => cases hrow.1
  | bvar | skolem =>
    cases hb with
    | mvar => cases hmvar.2
    | bvar | skolem => exact absurd ⟨rfl, rfl⟩ hrigid
    | app _ hrigidF => exact absurd ⟨rfl, hrigidF⟩ hrigid
    | _ => exact clash_decides hgoal fun θ t h h' => by cases h; cases h'
  | app _ hrigidF =>
    cases hb with
    | mvar => cases hmvar.2
    | bvar | skolem => exact absurd ⟨hrigidF, rfl⟩ hrigid
    | app _ hrigidF' => exact absurd ⟨hrigidF, hrigidF'⟩ hrigid
    | _ => exact clash_decides hgoal fun θ t h h' => by cases h; cases h'
  | tupleNil =>
    cases hb with
    | mvar => cases hmvar.2
    | tupleNil => exact absurd rfl hne
    | bvar | skolem | app => exact clash_decides hgoal fun θ t h h' => by cases h; cases h'
  | tupleCons hc hcs =>
    cases hb with
    | mvar => cases hmvar.2
    | bvar | skolem | app => exact clash_decides hgoal fun θ t h h' => by cases h; cases h'
    | tupleCons hc' hcs' =>
      simp only [unifyParts]
      rw [if_pos (length_eq (.tupleCons hc hcs) (.tupleCons hc' hcs'))]
      exact tuple_decides (H depth) ok (.tupleCons hc hcs) (.tupleCons hc' hcs') hgoal
  | prim p =>
    cases hb with
    | mvar => cases hmvar.2
    | prim q =>
      refine clash_decides hgoal fun θ t h h' => ?_
      cases h
      cases h'
      exact hne rfl
    | _ => exact clash_decides hgoal fun θ t h h' => by cases h; cases h'
  | abs hk ha =>
    cases hb with
    | mvar => cases hmvar.2
    | abs hk' hb =>
      simp only [unifyParts]
      exact (bodies_decide (H (depth + 1)) fuel ok hk hk' ha hb fun θ hθ hθ' =>
        (hgoal θ hθ hθ').of_abs).mono fun _ _ _ h θ hθ => .abs (h θ hθ)
    | _ => exact clash_decides hgoal fun θ t h h' => by cases h; cases h'
  | arrow ha₁ ha₂ =>
    cases hb with
    | mvar => cases hmvar.2
    | arrow hb₁ hb₂ =>
      exact (both_decide (H depth) ok ha₁ hb₁ ha₂ hb₂ fun θ hθ hθ' =>
        (hgoal θ hθ hθ').of_arrow).mono fun _ _ _ h θ hθ => .arrow (h θ hθ).1 (h θ hθ).2
    | _ => exact clash_decides hgoal fun θ t h h' => by cases h; cases h'
  | @poly _ _ implicit _ _ hk ha =>
    cases hb with
    | mvar => cases hmvar.2
    | @poly _ _ implicit' _ _ hk' hb =>
      by_cases himplicit : implicit = implicit'
      · subst himplicit
        simp only [unifyParts, if_true]
        exact (bodies_decide (H (depth + 1)) fuel ok hk hk' ha hb fun θ hθ hθ' =>
          (hgoal θ hθ hθ').of_poly.2).mono fun _ _ _ h θ hθ => .poly (h θ hθ)
      · simp only [unifyParts, if_neg himplicit]
        exact .mismatch fun θ hθ hθ' => himplicit (hgoal θ hθ hθ').of_poly.1
    | _ => exact clash_decides hgoal fun θ t h h' => by cases h; cases h'
  | record ha =>
    cases hb with
    | mvar => cases hmvar.2
    | record hb =>
      exact (H depth ok ha hb fun θ hθ hθ' => (hgoal θ hθ hθ').of_record).mono
        fun _ _ _ h θ hθ => .record (h θ hθ)
    | _ => exact clash_decides hgoal fun θ t h h' => by cases h; cases h'
  | variant ha =>
    cases hb with
    | mvar => cases hmvar.2
    | variant hb =>
      exact (H depth ok ha hb fun θ hθ hθ' => (hgoal θ hθ hθ').of_variant).mono
        fun _ _ _ h θ hθ => .variant (h θ hθ)
    | _ => exact clash_decides hgoal fun θ t h h' => by cases h; cases h'

/-- A metavariable against anything else. -/
theorem solve_solves (fuel depth : Nat) {v : MetaId} {other : Con} (ok : store.FirstOrder)
    (hv : (Con.mvar v []).FirstOrder store Γ g) (hshown : store.Shown (.mvar v []))
    (hother : other.FirstOrder store Γ g) (hshown' : store.Shown other) (hne : other ≠ .mvar v [])
    (hgoal : ∀ θ, store.SolvedBy θ → goal θ → (Con.mvar v []).Agree θ other) :
    Decides goal postponed store (solve fuel depth v [] other) fun _ store' =>
      ∀ θ, store'.SolvedBy θ → (Con.mvar v []).Coincides θ other := by
  refine (solve_decides fuel depth ok hv (hshown.unsolved v [] rfl) hother hshown' hne
    fun θ hθ hθ' => ?_).mono fun _ store' _ h θ hθ t => ⟨fun ht => ?_, fun ht => ?_⟩
  · obtain ⟨t, ht, ht'⟩ := hgoal θ hθ hθ'
    cases ht
    exact ht'
  · cases ht
    exact h θ hθ
  · rw [ht.unique (h θ hθ)]
    exact .mvar v

/-- Nothing but metavariables and rows is stuck. -/
theorem blocker_eq_none (ha : a.FirstOrder store Γ g) (hmvar : a.isMVar = false)
    (hrow : a.isRowForm = false) : Row.blocker? a = none := by
  induction ha with
  | mvar => cases hmvar
  | concat => cases hrow
  | @app _ f a _ _ _ hrigid _ _ ihf _ =>
    exact ihf (by cases f <;> first | rfl | cases hrigid)
      (by cases f <;> first | rfl | cases hrigid)
  | _ => rfl

/-- The kind tells rows from other constructors. -/
theorem isRowForm_iff (ha : a.FirstOrder store Γ g) (hmvar : a.isMVar = false) :
    a.isRowForm = true ↔ ∃ k, g = .record k := by
  cases ha with
  | mvar => cases hmvar
  | bvar _ hrow => cases g <;> simp_all [Con.isRowForm, Kind.isRow]
  | skolem _ hrow => cases g <;> simp_all [Con.isRowForm, Kind.isRow]
  | app _ _ _ hrow => cases g <;> simp_all [Con.isRowForm, Kind.isRow]
  | _ => simp [Con.isRowForm]

theorem unifyHeads_decides (H : ∀ depth, SolvesComparable (unify depth)) (globals : Globals)
    (fuel depth : Nat) (ok : store.FirstOrder) (ha : a.FirstOrder store Γ g)
    (hb : b.FirstOrder store Γ g) (hashown : store.Shown a) (hbshown : store.Shown b) (hne : a ≠ b)
    (hgoal : ∀ θ, store.SolvedBy θ → goal θ → a.Agree θ b) :
    Decides goal postponed store (unifyHeads globals fuel depth unify a b) fun _ store' =>
      ∀ θ, store'.SolvedBy θ → a.Coincides θ b := by
  unfold unifyHeads
  extract_lets others
  split
  next v spine w spine' =>
    cases ha.spine_eq
    cases hb.spine_eq
    rw [if_neg (by rintro rfl; exact hne rfl)]
    exact solve_solves fuel depth ok ha hashown hb hbshown hne.symm hgoal
  next v spine hmvar =>
    cases ha.spine_eq
    exact solve_solves fuel depth ok ha hashown hb hbshown hne.symm hgoal
  next w spine hmvar =>
    cases hb.spine_eq
    refine (solve_solves fuel depth ok hb hbshown ha hashown hne fun θ hθ hθ' =>
      (hgoal θ hθ hθ').symm).mono fun _ _ _ h θ hθ => (h θ hθ).symm
  next hleft hright _ =>
    have ha' : a.isMVar = false := by
      cases ha with
      | mvar => exact absurd rfl (hleft _ _)
      | _ => rfl
    have hb' : b.isMVar = false := by
      cases hb with
      | mvar => exact absurd rfl (hright _ _)
      | _ => rfl
    have hrow := isRowForm_iff ha ha'
    have hrow' := isRowForm_iff hb hb'
    unfold others
    split
    next hform =>
      obtain ⟨k, rfl⟩ := hform.elim hrow.mp hrow'.mp
      exact unifyRows_decides (SolvesComparable.solves (H depth)) globals fuel depth ok ha hb hgoal
    next hform =>
      obtain ⟨hform, hform'⟩ := not_or.mp hform
      rw [Bool.not_eq_true] at hform hform'
      rw [blocker_eq_none ha ha' hform, blocker_eq_none hb hb' hform']
      exact unifyParts_decides H fuel depth ok ha hb hne ⟨ha', hb'⟩ ⟨hform, hform'⟩ hgoal

/-- Applications of variables and skolems are compared part by part. -/
theorem unifyHeads_of_isRigid (globals : Globals) (fuel depth : Nat) (ha : a.FirstOrder store Γ g)
    (hb : b.FirstOrder store Γ g') (hrigid : a.isRigid = true ∧ b.isRigid = true) :
    unifyHeads globals fuel depth unify a b = unifyParts fuel depth unify a b := by
  have plain : ∀ {c : Con}, c.isRigid = true → c.isMVar = false ∧ c.isRowForm = false := by
    intro c hc
    cases c <;> first | exact ⟨rfl, rfl⟩ | cases hc
  obtain ⟨hmvar, hrow⟩ := plain hrigid.1
  obtain ⟨hmvar', hrow'⟩ := plain hrigid.2
  have hblockers : [Row.blocker? a, Row.blocker? b].filterMap id = [] := by
    rw [blocker_eq_none ha hmvar hrow, blocker_eq_none hb hmvar' hrow']
    rfl
  cases a with
  | bvar | skolem | app =>
    cases b with
    | bvar | skolem | app =>
      simp only [unifyHeads, hrow, hrow', hblockers, Bool.false_eq_true, or_self, if_false]
    | _ => cases hrigid.2
  | _ => cases hrigid.1

theorem unifyHeads_comparable (H : ∀ depth, SolvesComparable (unify depth)) (globals : Globals)
    (fuel depth : Nat) (ok : store.FirstOrder) (ha : a.FirstOrder store Γ g)
    (hb : b.FirstOrder store Γ g') (hkinds : Comparable g g' a b) (hashown : store.Shown a)
    (hbshown : store.Shown b) (hne : a ≠ b)
    (hgoal : ∀ θ, store.SolvedBy θ → goal θ → a.Agree θ b) :
    Decides goal postponed store (unifyHeads globals fuel depth unify a b) fun _ store' =>
      g = g' ∧ ∀ θ, store'.SolvedBy θ → a.Coincides θ b := by
  rcases hkinds with rfl | hrigid
  · exact (unifyHeads_decides H globals fuel depth ok ha hb hashown hbshown hne hgoal).mono
      fun _ _ _ h => ⟨rfl, h⟩
  · rw [unifyHeads_of_isRigid globals fuel depth ha hb hrigid]
    exact rigidParts_decide H fuel depth ok ha hb hrigid hne hgoal

end Steps

theorem unifyAt_comparable (globals : Globals) (fuel depth : Nat) :
    SolvesComparable (unifyAt globals fuel depth) := by
  induction fuel generalizing depth with
  | zero => exact fun _ _ _ _ _ => .of_none rfl
  | succ fuel ih =>
    intro goal postponed store Γ g g' a b ok ha hb hkinds hgoal
    -- two applications of a variable or a skolem that are the same have one kind
    have hone : a = b → g = g' := by
      rintro rfl
      exact hkinds.elim id fun hrigid => ha.kind_unique hb hrigid.1
    simp only [unifyAt]
    split
    next h => exact .pure ok ⟨hone h, fun θ _ => h ▸ .refl a⟩
    next =>
    refine .bind (.of_fuelM (Store.headNormal_restates globals fuel ok ha)) ?_
    rintro a' store₁ ok₁ - ⟨respells₁, harestates, hashown⟩
    refine .bind (.of_fuelM (Store.headNormal_restates globals fuel ok₁
      (hb.mono respells₁.toExtends))) ?_
    rintro b' store₂ ok₂ - ⟨respells₂, hbrestates, hbshown⟩
    have harestates := harestates.respells respells₂
    have hashown := hashown.respells respells₂
    have hkinds' : Comparable g g' a' b' :=
      hkinds.imp id fun hrigid => ⟨harestates.rigid hrigid.1, hbrestates.rigid hrigid.2⟩
    -- the head normal forms say what the constructors say
    suffices h : Decides goal postponed store₂ _ fun _ store' =>
        g = g' ∧ ∀ θ, store'.SolvedBy θ → a'.Coincides θ b' from
      h.mono fun _ store' refines h => ⟨h.1, fun θ hθ =>
        ((harestates.denotes θ (refines.back θ hθ)).symm.trans (h.2 θ hθ)).trans
          (hbrestates.denotes θ (refines.back θ hθ))⟩
    have hagree : ∀ θ, store₂.SolvedBy θ → goal θ → a'.Agree θ b' := by
      intro θ hθ hθ'
      obtain ⟨t, hat, hbt⟩ := hgoal θ (((respells₁.trans respells₂).solvedBy θ).mp hθ) hθ'
      exact ⟨t, (harestates.denotes θ hθ t).mpr hat, (hbrestates.denotes θ hθ t).mpr hbt⟩
    split
    next h =>
      refine .pure ok₂ ?_
      rcases h with rfl | rfl | rfl
      · refine ⟨hkinds'.elim id fun hrigid => ?_, fun θ _ => .refl _⟩
        exact harestates.firstOrder.kind_unique hbrestates.firstOrder hrigid.1
      · cases harestates.firstOrder
      · cases hbrestates.firstOrder
    next h =>
      exact unifyHeads_comparable ih globals fuel depth ok₂ harestates.firstOrder
        hbrestates.firstOrder hkinds' hashown hbshown (fun heq => h (.inl heq)) hagree

theorem unifyAt_solves (globals : Globals) (fuel depth : Nat) :
    Solves (unifyAt globals fuel depth) :=
  SolvesComparable.solves (unifyAt_comparable globals fuel depth)

end Unify

/-- Whenever unification of first-order constructors of one kind returns, nothing is postponed.  It
succeeds if some solution of the store makes the constructors equal.  If it succeeds, the solutions
of the new store are, as far as the old metavariables are concerned, the solutions of the old store
that make the constructors equal, among those under which no row repeats a label. -/
theorem unify_principal {globals : Globals} {store store' : Store} {fuel depth : Nat} {a b : Con}
    {Γ : List Kind} {g : Kind} {result : Except UnifyError Unit} {postponed : List Postponed}
    (ok : store.FirstOrder) (ha : a.FirstOrder store Γ g) (hb : b.FirstOrder store Γ g)
    (hrun : unify globals fuel depth a b store = some ((result, postponed), store')) :
    postponed = [] ∧
      ((∃ θ, store.SolvedBy θ ∧ a.Agree θ b) → result = .ok ()) ∧
      (result = .ok () →
        (∀ θ, store'.SolvedBy θ → store.SolvedBy θ) ∧
        ∀ θ, store.SolvedBy θ → (a.Agree θ b ↔ (∃ t, a.Denotes θ t) ∧
          ∃ θ', (∀ i < store.cells.size, θ i = θ' i) ∧ store'.SolvedBy θ')) := by
  have hexec : ∃ r, exec (Unify.unifyAt globals fuel depth a b) ([], store) =
      some (r, postponed, store') ∧ (r = some () ↔ result = .ok ()) := by
    change Option.bind (Unify.unifyAt globals fuel depth a b [] store) _ = _ at hrun
    obtain ⟨⟨⟨answer, equations⟩, final⟩, hanswer, hpure⟩ := Option.bind_eq_some_iff.mp hrun
    cases hpure
    refine ⟨succeeded answer, ?_, ?_⟩
    · change Option.map _ (Option.map _ (Unify.unifyAt globals fuel depth a b [] store)) = _
      rw [hanswer]
      rfl
    · cases answer <;> simp [succeeded, Except.mapError]
  obtain ⟨r, hat, hresult⟩ := hexec
  have hdecides : Unify.Decides (fun θ => a.Agree θ b) [] store
      (Unify.unifyAt globals fuel depth a b) fun _ store' =>
        ∀ θ, store'.SolvedBy θ → a.Coincides θ b :=
    Unify.unifyAt_solves globals fuel depth ok ha hb fun _ _ hθ => hθ
  obtain ⟨rfl, hfails, hsucceeds⟩ := hdecides (Unify.local_agree ha hb) r postponed store' hat
  refine ⟨rfl, fun ⟨θ, hθ, hagree⟩ => ?_, fun hok => ?_⟩
  · rw [← hresult]
    cases r with
    | none => exact absurd hagree (hfails rfl θ hθ)
    | some => rfl
  · obtain ⟨-, refines, hcoincides⟩ := hsucceeds () (hresult.mpr hok)
    refine ⟨refines.back, fun θ hθ => ⟨fun hagree => ?_, ?_⟩⟩
    · obtain ⟨t, hat, -⟩ := id hagree
      exact ⟨⟨t, hat⟩, refines.forth θ hθ hagree⟩
    · rintro ⟨⟨t, hat⟩, θ', hsame, hθ'⟩
      have hat' := (ha.denotes_congr hsame).mp hat
      exact ⟨t, hat, (hb.denotes_congr hsame).mpr ((hcoincides θ' hθ' t).mp hat')⟩

/-- A store without any solution. -/
theorem Store.firstOrder_unsolved {store : Store} (h : ∀ i, store.solution? i = none)
    (htrail : store.trail = []) : store.FirstOrder := by
  have hnone : ∀ {i x}, store.solution? i ≠ some x := fun {i x} hx => by
    rw [h i] at hx
    cases hx
  refine ⟨⟨fun n => ?_, by simp [htrail], fun _ => htrail⟩, fun hi => absurd hi hnone⟩
  rw [htrail, List.take_nil]
  refine ⟨fun hi => absurd hi hnone, fun hi => absurd hi hnone, ⟨fun _ => 0, ?_⟩,
    fun hi => absurd hi hnone⟩
  rintro i j ⟨x, hx, -⟩
  exact absurd hx hnone

/-- A literal with one field of a primitive type. -/
def oneField (x : String) (p : Prim) : Con := .row .type [(.label x, .prim p)]

theorem firstOrder_oneField (store : Store) (x : String) (p : Prim) :
    (oneField x p).FirstOrder store [] .typeRow :=
  .rowCons (.prim p) (.rowNil .type)

/-- Row metavariables and their solutions. -/
def rowCells (solutions : List (Option Con)) (solved : Array MetaId) : Store :=
  { Store.empty with
    cells := (solutions.map fun solution => ⟨.typeRow, 0, solution⟩).toArray
    solved := solved }

theorem firstOrder_twoRows : (rowCells [none, none] #[]).FirstOrder := by
  refine Store.firstOrder_unsolved ?_ rfl
  rintro (_ | _ | i) <;> rfl

theorem firstOrder_twoRows_mvar : ∀ v < 2,
    (Con.mvar v []).FirstOrder (rowCells [none, none] #[]) [] .typeRow
  | 0, hv => .mvar hv rfl (.record .type)
  | 1, hv => .mvar hv rfl (.record .type)

/-- Two records with different fields and open rows get a common tail. -/
theorem unify_principal_twoRows :
    unify Globals.empty 10 0
        (.record (.concat (oneField "A" .int) (.mvar 0 [])))
        (.record (.concat (oneField "B" .string) (.mvar 1 []))) (rowCells [none, none] #[]) =
      some ((.ok (), []), rowCells [some (.concat (oneField "B" .string) (.mvar 2 [])),
        some (.concat (oneField "A" .int) (.mvar 2 [])), none] #[0, 1]) ∧
    ∀ θ, (rowCells [none, none] #[]).SolvedBy θ →
      (Con.Agree θ (.record (.concat (oneField "A" .int) (.mvar 0 [])))
          (.record (.concat (oneField "B" .string) (.mvar 1 []))) ↔
        (∃ t, Con.Denotes θ (.record (.concat (oneField "A" .int) (.mvar 0 []))) t) ∧
        ∃ θ', (∀ i < 2, θ i = θ' i) ∧
          (rowCells [some (.concat (oneField "B" .string) (.mvar 2 [])),
            some (.concat (oneField "A" .int) (.mvar 2 [])), none] #[0, 1]).SolvedBy θ') := by
  have hrecord : ∀ x p, ∀ v < 2, (Con.record (.concat (oneField x p) (.mvar v []))).FirstOrder
      (rowCells [none, none] #[]) [] .type := fun x p v hv =>
    .record (.concat (firstOrder_oneField _ x p) (firstOrder_twoRows_mvar v hv) (Nat.le_refl 1))
  have hrun : unify Globals.empty 10 0
      (.record (.concat (oneField "A" .int) (.mvar 0 [])))
      (.record (.concat (oneField "B" .string) (.mvar 1 []))) (rowCells [none, none] #[]) =
      some ((.ok (), []), rowCells [some (.concat (oneField "B" .string) (.mvar 2 [])),
        some (.concat (oneField "A" .int) (.mvar 2 [])), none] #[0, 1]) := rfl
  obtain ⟨-, -, hsolutions⟩ := unify_principal firstOrder_twoRows (hrecord "A" .int 0 (by decide))
    (hrecord "B" .string 1 (by decide)) hrun
  exact ⟨hrun, (hsolutions rfl).2⟩

/-! ## What the conditions exclude -/

/-- Two tuples that are equal if a row has the label `A` and does not have it. -/
def repeatedLabel : Con × Con :=
  (.tuple [.concat (oneField "A" .int) (.mvar 0 []), .mvar 0 []],
    .tuple [.mvar 1 [], oneField "A" .int])

theorem firstOrder_repeatedLabel :
    ∃ g, repeatedLabel.1.FirstOrder (rowCells [none, none] #[]) [] g ∧
      repeatedLabel.2.FirstOrder (rowCells [none, none] #[]) [] g := by
  have hfield := firstOrder_oneField (rowCells [none, none] #[]) "A" .int
  have hmvar := firstOrder_twoRows_mvar
  exact ⟨_, .tupleCons (.concat hfield (hmvar 0 (by decide)) (Nat.le_refl 1))
      (.tupleCons (hmvar 0 (by decide)) .tupleNil),
    .tupleCons (hmvar 1 (by decide)) (.tupleCons hfield .tupleNil)⟩

theorem not_agree_repeatedLabel (θ : MetaId → Ground) :
    ¬ repeatedLabel.1.Agree θ repeatedLabel.2 := by
  rintro ⟨t, h, h'⟩
  have hfield : ∀ {f}, (oneField "A" .int).Denotes θ (.row f) → f "A" = some (.prim .int) := by
    intro f hf
    cases hf with
    | rowCons hvalue _ hjoin =>
      cases hvalue
      exact hjoin.subset_left (if_pos rfl)
  cases h with
  | tupleCons h₁ h₂ =>
    cases h' with
    | tupleCons _ h₂' =>
      cases h₁ with
      | concat hl hr hjoin =>
        cases h₂ with
        | tupleCons h₂ _ =>
          cases h₂' with
          | tupleCons h₂' _ =>
            -- the metavariable is the literal, so both parts of the first row have the label
            rw [h₂.unique hr] at h₂'
            rcases hjoin "A" with ⟨hnone, -⟩ | ⟨hnone, -⟩
            · rw [hfield hl] at hnone
              cases hnone
            · rw [hfield h₂'] at hnone
              cases hnone

/-- A metavariable whose kind is not known, a row of rows, and a type. -/
def openKind : Store :=
  { Store.empty with
    kinds := ⟨#[.unbound .any []], [], 0⟩
    cells := #[⟨.mvar 0, 0, none⟩, ⟨.record .typeRow, 0, none⟩, ⟨.type, 0, none⟩] }

theorem solvedBy_openKind {f : Fields} (hf : (Ground.row f).Closed 0) :
    openKind.SolvedBy fun _ => .row f := by
  refine ⟨fun _ => hf, fun _ => ⟨f, rfl⟩, fun {i x} hi => ?_⟩
  obtain _ | _ | _ | i := i <;> cases hi

/-- Two tuples that are equal if the first two metavariables are the row of rows `[B = []]`. -/
def rowsOfRows : Con × Con :=
  (.tuple [.concat (.row .typeRow [(.label "A", .row .type [])]) (.mvar 0 []), .mvar 0 []],
    .tuple [.row .typeRow [(.label "A", .row .type []), (.label "B", .row .type [])], .mvar 1 []])

theorem agree_rowsOfRows :
    rowsOfRows.1.Agree (fun _ => .row (single "B" (.row empty))) rowsOfRows.2 := by
  have hjoin : Joins (single "A" (.row empty)) (single "B" (.row empty)) fun x =>
      (single "A" (.row empty) x).or (single "B" (.row empty) x) := by
    intro x
    by_cases h : x = "A" <;> simp [single, h]
  have hnil : ∀ x, Joins (single x (.row empty)) empty (single x (.row empty)) := fun x =>
    (Joins.empty_left _).symm
  refine ⟨_, .tupleCons (.concat (.rowCons (.rowNil _) (.rowNil _) (hnil "A")) (.mvar 0) hjoin)
    (.tupleCons (.mvar 0) .tupleNil), ?_⟩
  exact .tupleCons (.rowCons (.rowNil _) (.rowCons (.rowNil _) (.rowNil _) (hnil "B")) hjoin)
    (.tupleCons (.mvar 1) .tupleNil)

/-- Unification does not see that a row would repeat a label.  It fails on equations that have a
solution if a kind is not known, since the fields of a row are taken to be types then, and if the
solution is not of the kind of the metavariable. -/
theorem unify_not_principal :
    ((∃ g, repeatedLabel.1.FirstOrder (rowCells [none, none] #[]) [] g ∧
        repeatedLabel.2.FirstOrder (rowCells [none, none] #[]) [] g) ∧
      (∃ store', unify Globals.empty 10 0 repeatedLabel.1 repeatedLabel.2
        (rowCells [none, none] #[]) = some ((.ok (), []), store')) ∧
      ∀ θ, ¬ repeatedLabel.1.Agree θ repeatedLabel.2) ∧
    ((∃ error store', unify Globals.empty 10 0 rowsOfRows.1 rowsOfRows.2 openKind =
        some ((.error error, []), store')) ∧
      ∃ θ, openKind.SolvedBy θ ∧ rowsOfRows.1.Agree θ rowsOfRows.2) ∧
    ((∃ error store', unify Globals.empty 10 0 (.mvar 2 []) (oneField "A" .int) openKind =
        some ((.error error, []), store')) ∧
      ∃ θ, openKind.SolvedBy θ ∧ (Con.mvar 2 []).Agree θ (oneField "A" .int)) := by
  refine ⟨⟨firstOrder_repeatedLabel, ⟨_, rfl⟩, not_agree_repeatedLabel⟩, ⟨⟨_, _, rfl⟩, ?_⟩,
    ⟨_, _, rfl⟩, ?_⟩
  · exact ⟨_, solvedBy_openKind (closed_single closed_empty), agree_rowsOfRows⟩
  · refine ⟨fun _ => .row (single "A" (.prim .int)),
      solvedBy_openKind (closed_single (.prim .int)), _, .mvar 2, ?_⟩
    exact .rowCons (.prim .int) (.rowNil .type) (Joins.empty_left _).symm

end RowML
