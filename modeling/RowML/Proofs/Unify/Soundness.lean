import RowML.Proofs.Normal.Model
import RowML.Proofs.Unify.Rows
import RowML.Unify.Engine

/-!
# Unification of constructors is sound

If unification succeeds and postpones nothing, the two constructors are convertible in the store
that it leaves.  Whether it succeeds or not, every solution that the store had before is kept.
-/

namespace RowML

namespace Unify

variable {globals : Globals} {layout : Layout} {state state' : List Postponed × Store}

/-- Two equations, one after the other. -/
theorem both_yields {unify unify' : Con → Con → UnifyM Unit} (H : Unifies globals layout unify)
    (H' : Unifies globals layout unify') {a b a' b' : Con} (ok : state.2.WellFormed layout)
    (hg : globals.Sound layout state.2) (ha : a.Sound layout state.2) (hb : b.Sound layout state.2)
    (ha' : a'.Sound layout state.2) (hb' : b'.Sound layout state.2) :
    Yields (discipline layout) state (do unify a b; unify' a' b') fun _ state' =>
      Solved globals a b state' ∧ Solved globals a' b' state' := by
  refine Yields.bind ok (H ok hg ha hb) fun _ state₁ ok₁ advances₁ h => ?_
  refine (H' ok₁ (hg.mono advances₁.store) (ha'.mono advances₁.store)
    (hb'.mono advances₁.store)).mono fun _ state₂ _ advances₂ h' => ?_
  exact ⟨h.advances advances₂, h'⟩

/-- Two kinds, then an equation. -/
theorem kindThen_yields {unify : Con → Con → UnifyM Unit} (H : Unifies globals layout unify)
    (fuel : Nat) {k k' : Kind} {a b : Con} (ok : state.2.WellFormed layout)
    (hg : globals.Sound layout state.2) (hk : k.Sound state.2.kinds.vars.size)
    (hk' : k'.Sound state.2.kinds.vars.size) (ha : a.Sound layout state.2)
    (hb : b.Sound layout state.2) :
    Yields (discipline layout) state (do unifyKinds fuel k k'; unify a b) fun _ state' =>
      KindConv state'.2.kinds k k' ∧ Solved globals a b state' := by
  refine Yields.bind ok (unifyKinds_yields fuel ok hk hk') ?_
  rintro _ state₁ ok₁ advances₁ ⟨-, h⟩
  refine (H ok₁ (hg.mono advances₁.store) (ha.mono advances₁.store)
    (hb.mono advances₁.store)).mono fun _ state₂ _ advances₂ h' => ?_
  exact ⟨advances₂.store.kinds.conv h, h'⟩

theorem zip_yields {unify : Con → Con → UnifyM Unit} (H : Unifies globals layout unify)
    {cs cs' : List Con} (hlength : cs.length = cs'.length) (ok : state.2.WellFormed layout)
    (hg : globals.Sound layout state.2) (hcs : ∀ c ∈ cs, c.Sound layout state.2)
    (hcs' : ∀ c ∈ cs', c.Sound layout state.2) :
    Yields (discipline layout) state ((cs.zip cs').forM fun (c, c') => unify c c') fun _ state' =>
      Settled state' → List.Forall₂ (Convertible globals state'.2) cs cs' := by
  have hpairs : Yields (discipline layout) state ((cs.zip cs').forM fun (c, c') => unify c c')
      fun _ state' => ∀ pair ∈ cs.zip cs', Solved globals pair.1 pair.2 state' := by
    refine Yields.forM ok (fun _ advances h => h.advances advances) ?_
    intro pair hpair state₁ ok₁ advances₁
    obtain ⟨hc, hc'⟩ := List.of_mem_zip (a := pair.1) (b := pair.2) hpair
    exact H ok₁ (hg.mono advances₁.store) ((hcs _ hc).mono advances₁.store)
      ((hcs' _ hc').mono advances₁.store)
  refine hpairs.mono fun _ state' _ _ h hsettled => ?_
  refine List.forall₂_iff_zip.mpr ⟨hlength, fun {c c'} hmem => ?_⟩
  exact h (c, c') hmem hsettled

/-! ## The steps of unification -/

section Steps

variable {unify : Nat → Con → Con → UnifyM Unit}

theorem unifyParts_yields (H : ∀ depth, Unifies globals layout (unify depth)) (fuel depth : Nat) :
    Unifies globals layout (unifyParts fuel depth unify) := by
  intro state a b ok hg ha hb
  unfold unifyParts
  split
  next a₁ a₂ b₁ b₂ =>
    refine (both_yields (H depth) (H depth) ok hg (ha.part (by simp [Con.parts]))
      (hb.part (by simp [Con.parts])) (ha.part (by simp [Con.parts]))
      (hb.part (by simp [Con.parts]))).mono fun _ _ _ _ h hsettled => ?_
    exact .arrow (h.1 hsettled) (h.2 hsettled)
  next a₁ a₂ b₁ b₂ =>
    refine (both_yields (H depth) (H depth) ok hg (ha.part (by simp [Con.parts]))
      (hb.part (by simp [Con.parts])) (ha.part (by simp [Con.parts]))
      (hb.part (by simp [Con.parts]))).mono fun _ _ _ _ h hsettled => ?_
    exact .app (h.1 hsettled) (h.2 hsettled)
  next x k body y k' body' =>
    refine (kindThen_yields (H (depth + 1)) fuel ok hg (ha.kind (by simp [Con.annotations]))
      (hb.kind (by simp [Con.annotations])) (ha.part (by simp [Con.parts]))
      (hb.part (by simp [Con.parts]))).mono fun _ _ _ _ h hsettled => ?_
    exact (Convertible.law (.renameAbs x y k body)).trans
      (.of_forall₂ rfl (.cons h.1 .nil) (.cons (h.2 hsettled) .nil))
  next x implicit k body y implicit' k' body' =>
    split
    next himplicit =>
      subst himplicit
      refine (kindThen_yields (H (depth + 1)) fuel ok hg (ha.kind (by simp [Con.annotations]))
        (hb.kind (by simp [Con.annotations])) (ha.part (by simp [Con.parts]))
        (hb.part (by simp [Con.parts]))).mono fun _ _ _ _ h hsettled => ?_
      exact (Convertible.law (.renamePoly x y implicit k body)).trans
        (.of_forall₂ rfl (.cons h.1 .nil) (.cons (h.2 hsettled) .nil))
    next => exact mismatch_yields ok
  next x body y body' =>
    refine (H depth ok hg (ha.part (by simp [Con.parts])) (hb.part (by simp [Con.parts]))).mono ?_
    intro _ _ _ _ h hsettled
    exact (Convertible.law (.renameKpoly x y body)).trans
      (.of_forall₂ rfl .nil (.cons (h hsettled) .nil))
  next x body y body' =>
    refine (H depth ok hg (ha.part (by simp [Con.parts])) (hb.part (by simp [Con.parts]))).mono ?_
    intro _ _ _ _ h hsettled
    exact (Convertible.law (.renameKabs x y body)).trans
      (.of_forall₂ rfl .nil (.cons (h hsettled) .nil))
  next f k f' k' =>
    refine Yields.bind ok (H depth ok hg (ha.part (by simp [Con.parts]))
      (hb.part (by simp [Con.parts]))) fun _ state₁ ok₁ advances₁ h => ?_
    refine (unifyKinds_yields fuel ok₁ ((ha.mono advances₁.store).kind (by simp [Con.annotations]))
      ((hb.mono advances₁.store).kind (by simp [Con.annotations]))).mono ?_
    rintro _ state₂ _ advances₂ ⟨-, hk⟩ hsettled
    exact .kapp (h.advances advances₂ hsettled) hk
  next l r body l' r' body' =>
    refine Yields.bind ok (H depth ok hg (ha.part (by simp [Con.parts]))
      (hb.part (by simp [Con.parts]))) fun _ state₁ ok₁ advances₁ hl => ?_
    have ha₁ := ha.mono advances₁.store
    have hb₁ := hb.mono advances₁.store
    refine (both_yields (H depth) (H depth) ok₁ (hg.mono advances₁.store)
      (ha₁.part (by simp [Con.parts])) (hb₁.part (by simp [Con.parts]))
      (ha₁.part (by simp [Con.parts])) (hb₁.part (by simp [Con.parts]))).mono ?_
    intro _ _ _ advances₂ h hsettled
    exact .of_forall₂ rfl .nil (.cons (hl.advances advances₂ hsettled)
      (.cons (h.1 hsettled) (.cons (h.2 hsettled) .nil)))
  next r r' =>
    refine (H depth ok hg (ha.part (by simp [Con.parts])) (hb.part (by simp [Con.parts]))).mono ?_
    exact fun _ _ _ _ h hsettled => .of_forall₂ rfl .nil (.cons (h hsettled) .nil)
  next r r' =>
    refine (H depth ok hg (ha.part (by simp [Con.parts])) (hb.part (by simp [Con.parts]))).mono ?_
    exact fun _ _ _ _ h hsettled => .of_forall₂ rfl .nil (.cons (h hsettled) .nil)
  next cs cs' =>
    split
    next hlength =>
      refine (zip_yields (H depth) hlength ok hg (fun c hc => ha.part hc)
        fun c hc => hb.part hc).mono fun _ _ _ _ h hsettled => ?_
      exact .of_forall₂ (by simp [Con.frame, hlength]) .nil (h hsettled)
    next => exact mismatch_yields ok
  next t i t' j =>
    split
    next hij =>
      subst hij
      refine (H depth ok hg (ha.part (by simp [Con.parts])) (hb.part (by simp [Con.parts]))).mono ?_
      exact fun _ _ _ _ h hsettled => .component (h hsettled) i
    next => exact mismatch_yields ok
  next r f r' f' =>
    refine (both_yields (H depth) (H depth) ok hg (ha.part (by simp [Con.parts]))
      (hb.part (by simp [Con.parts])) (ha.part (by simp [Con.parts]))
      (hb.part (by simp [Con.parts]))).mono fun _ _ _ _ h hsettled => ?_
    exact .proj (h.1 hsettled) (h.2 hsettled)
  next => exact mismatch_yields ok

theorem unifyHeads_yields (H : ∀ depth, Unifies globals layout (unify depth)) (fuel depth : Nat) :
    Unifies globals layout (unifyHeads globals fuel depth unify) := by
  intro state a b ok hg ha hb
  unfold unifyHeads
  extract_lets others
  split
  next v spine w spine' =>
    split
    next hvw =>
      subst hvw
      split
      next hlength =>
        refine (zip_yields (H depth) hlength ok hg (fun c hc => ha.part hc)
          fun c hc => hb.part hc).mono fun _ _ _ _ h hsettled => ?_
        exact .mvar v (h hsettled)
      next => exact mismatch_yields ok
    next => exact solve_yields fuel depth ok ha hb
  next => exact solve_yields fuel depth ok ha hb
  next =>
    exact (solve_yields fuel depth ok hb ha).mono fun _ _ _ _ h => h.symm
  next =>
    unfold others
    split
    next => exact unifyRows_yields (H depth) fuel depth ok hg ha hb
    next =>
      split
      next => exact unifyParts_yields H fuel depth ok hg ha hb
      next => exact postpone_yields ok

end Steps

theorem unifyAt_yields (fuel depth : Nat) :
    Unifies globals layout (unifyAt globals fuel depth) := by
  induction fuel generalizing depth with
  | zero => exact fun _ _ _ _ => Yields.of_none rfl
  | succ fuel ih =>
    intro state a b ok hg ha hb
    simp only [unifyAt]
    split
    next h => exact Yields.pure ok fun _ => h ▸ .refl a
    next =>
    refine Yields.bind ok (yields_of_store (exec_fuelM _ _)
      (headNormal_yields fuel ok hg ha).of_reading) ?_
    rintro a' state₁ ok₁ - ⟨reads₁, ha'⟩
    have hg₁ := hg.mono reads₁.toGrows
    refine Yields.bind ok₁ (yields_of_store (exec_fuelM _ _)
      (headNormal_yields fuel ok₁ hg₁ (hb.mono reads₁.toGrows)).of_reading) ?_
    rintro b' state₂ ok₂ - ⟨reads₂, hb'⟩
    have ha' := ha'.grows reads₂.toGrows
    -- it remains to make the head normal forms convertible
    suffices h : Yields (discipline layout) state₂ _ fun _ state₃ => Solved globals a' b' state₃ by
      refine h.mono fun _ state₃ _ advances h hsettled => ?_
      have hclosed₂ : state₂.2.kinds.Closed := advances.store.kinds.closed hsettled.2
      have hb' := (hb'.conv hclosed₂).lift advances.store hsettled.2
      exact ((ha'.conv hclosed₂).lift advances.store hsettled.2).trans
        ((h hsettled).trans hb'.symm)
    split
    next h =>
      rcases h with h | h | h
      · exact Yields.pure ok₂ fun _ => h ▸ .refl a'
      · exact absurd h ha'.sound.ne_error
      · exact absurd h hb'.sound.ne_error
    next =>
      exact unifyHeads_yields ih fuel depth ok₂ (hg₁.mono reads₂.toGrows) ha'.sound hb'.sound

end Unify

/-- Unification that succeeds and postpones nothing makes its operands convertible; and whatever it
answers, a metavariable that was solved before still stands for its solution. -/
theorem unify_convertible {globals : Globals} {layout : Layout} {store store' : Store}
    {fuel depth : Nat} {a b : Con} {result : Except UnifyError Unit} {postponed : List Postponed}
    (ok : store.WellFormed layout) (hg : globals.Sound layout store)
    (ha : a.Sound layout store) (hb : b.Sound layout store)
    (hrun : unify globals fuel depth a b store = some ((result, postponed), store'))
    (hclosed : store'.kinds.Closed) :
    (result = .ok () → postponed = [] → Convertible globals store' a b) ∧
      ∀ i solution spine, store.solution? i = some solution →
        spine.length = (store.cell i).arity →
        store'.Same (.mvar i spine) (solution.instantiated spine) := by
  have hexec : ∃ answer, Unify.unifyAt globals fuel depth a b [] store =
      some ((answer, postponed), store') ∧ (result = .ok () → answer = .ok ()) := by
    change Option.bind (Unify.unifyAt globals fuel depth a b [] store) _ = _ at hrun
    obtain ⟨⟨⟨answer, equations⟩, final⟩, hanswer, hpure⟩ := Option.bind_eq_some_iff.mp hrun
    cases hpure
    refine ⟨answer, hanswer, fun hok => ?_⟩
    cases answer with
    | ok => rfl
    | error => cases hok
  obtain ⟨answer, hanswer, hresult⟩ := hexec
  have hat : exec (Unify.unifyAt globals fuel depth a b) ([], store) =
      some (succeeded answer, postponed, store') := by
    change Option.map _ (Option.map _ (Unify.unifyAt globals fuel depth a b [] store)) = _
    rw [hanswer]
    rfl
  have hyields : Yields (Unify.discipline layout) ([], store)
      (Unify.unifyAt globals fuel depth a b) fun _ state' => Unify.Solved globals a b state' :=
    Unify.unifyAt_yields fuel depth ok hg ha hb
  obtain ⟨-, advances, hsolved⟩ := hyields _ _ hat
  refine ⟨fun hok hnil => ?_, fun i solution spine hsolution hlength => ?_⟩
  · rw [hresult hok] at hsolved
    exact hsolved () rfl ⟨hnil, hclosed⟩
  · exact advances.store.same hclosed (.intro hsolution hlength)

/-- A store with a solved metavariable and a row metavariable. -/
def openRowStore (solution : Option Con) (solved : Array MetaId) : Store :=
  ⟨KindStore.empty, #[⟨.type, 0, some (.prim .int)⟩, ⟨.record .type, 0, solution⟩], #[], [], 0,
    solved⟩

theorem wellFormed_openRowStore :
    (openRowStore none #[]).WellFormed ⟨.concatenating, 0, 0⟩ := by
  have hsolution : ∀ {i solution}, (openRowStore none #[]).solution? i = some solution →
      solution = .prim .int := by
    rintro (_ | _ | i) solution ⟨⟩
    rfl
  refine ⟨KindStore.wellFormed_empty, ?_, ?_, ?_, fun _ => 0, ?_⟩
  · have leaf : ∀ {k : Kind}, k = .type ∨ k = .record .type →
        k.Sound (openRowStore none #[]).kinds.vars.size := by
      have htype : Kind.type.Sound (openRowStore none #[]).kinds.vars.size :=
        .intro ⟨by simp, by simp⟩ (by simp [Kind.parts])
      rintro k (rfl | rfl)
      · exact htype
      · exact .intro ⟨by simp, by simp⟩ (List.forall_mem_singleton.mpr htype)
    rintro (_ | _ | i) hi
    · exact leaf (.inl rfl)
    · exact leaf (.inr rfl)
    · exact absurd hi (by simp [openRowStore])
  · intro i solution h
    rw [hsolution h]
    exact .node (by simp) (by simp) (by simp [Con.annotations]) trivial (by simp [Con.parts])
  · intro i solution h
    rw [hsolution h]
    exact Nat.zero_le _
  · rintro i j ⟨solution, h, hmentions⟩
    rw [hsolution h] at hmentions
    rcases hmentions with _ | ⟨hp, -⟩
    cases hp

/-- An open row takes the field that is missing, and the metavariable that was solved before stays
solved. -/
theorem unify_convertible_openRow :
    unify Globals.empty 10 0
        (.concat (.mvar 1 []) (.row .type [(.label "A", .mvar 0 [])]))
        (.row .type [(.label "B", .prim .string), (.label "A", .prim .int)])
        (openRowStore none #[]) =
      some ((.ok (), []),
        openRowStore (some (.row .type [(.label "B", .prim .string)])) #[1]) ∧
    Convertible Globals.empty (openRowStore (some (.row .type [(.label "B", .prim .string)])) #[1])
      (.concat (.mvar 1 []) (.row .type [(.label "A", .mvar 0 [])]))
      (.row .type [(.label "B", .prim .string), (.label "A", .prim .int)]) ∧
    (openRowStore (some (.row .type [(.label "B", .prim .string)])) #[1]).Same (.mvar 0 [])
      (.prim .int) := by
  have hrun : unify Globals.empty 10 0
      (.concat (.mvar 1 []) (.row .type [(.label "A", .mvar 0 [])]))
      (.row .type [(.label "B", .prim .string), (.label "A", .prim .int)])
      (openRowStore none #[]) = some ((.ok (), []),
        openRowStore (some (.row .type [(.label "B", .prim .string)])) #[1]) := rfl
  have hg : Globals.empty.Sound ⟨.concatenating, 0, 0⟩ (openRowStore none #[]) :=
    { definition := fun h => by cases h
      classDefinition := fun h => by cases h
      canonical := fun h => absurd h (Nat.not_lt_zero _)
      item := fun h => absurd h (Nat.not_lt_zero _)
      classItem := fun h => absurd h (Nat.not_lt_zero _) }
  have hmvar : ∀ id < 2, (Con.mvar id []).Sound ⟨.concatenating, 0, 0⟩ (openRowStore none #[]) := by
    intro id hid
    refine .intro ⟨by simp, ?_, by simp [Con.annotations], trivial⟩ (by simp [Con.parts])
    rintro _ _ ⟨⟩
    refine ⟨hid, ?_⟩
    rcases Nat.lt_succ_iff_lt_or_eq.mp hid with h | rfl
    · rw [Nat.lt_one_iff.mp h]
      rfl
    · rfl
  have leaf : ∀ {c : Con}, (∃ p, c = .prim p) ∨ (∃ x, c = .label x) →
      c.Sound ⟨.concatenating, 0, 0⟩ (openRowStore none #[]) := by
    rintro c (⟨p, rfl⟩ | ⟨x, rfl⟩) <;>
      exact .node (by simp) (by simp) (by simp [Con.annotations]) trivial (by simp [Con.parts])
  have htype : Kind.type.Sound (openRowStore none #[]).kinds.vars.size :=
    .intro ⟨by simp, by simp⟩ (by simp [Kind.parts])
  have ha : (Con.concat (.mvar 1 []) (.row .type [(.label "A", .mvar 0 [])])).Sound
      ⟨.concatenating, 0, 0⟩ (openRowStore none #[]) := by
    refine .concat rfl (hmvar 1 (by decide)) (.row htype (fun h => by cases h) ?_)
    exact List.forall_mem_singleton.mpr ⟨leaf (.inr ⟨_, rfl⟩), hmvar 0 (by decide)⟩
  have hb : (Con.row .type [(.label "B", .prim .string), (.label "A", .prim .int)]).Sound
      ⟨.concatenating, 0, 0⟩ (openRowStore none #[]) := by
    refine .row htype (fun h => by cases h) ?_
    simp only [List.forall_mem_cons]
    exact ⟨⟨leaf (.inr ⟨_, rfl⟩), leaf (.inl ⟨_, rfl⟩)⟩,
      ⟨leaf (.inr ⟨_, rfl⟩), leaf (.inl ⟨_, rfl⟩)⟩, by simp⟩
  obtain ⟨hconv, hsolved⟩ := unify_convertible wellFormed_openRowStore hg ha hb hrun
    KindStore.closed_empty
  exact ⟨hrun, hconv rfl rfl, hsolved 0 (.prim .int) [] rfl rfl⟩

/-! ## What the conditions exclude -/

/-- A store with one row metavariable. -/
def rowCell (solution : Option Con) (solved : Array MetaId) : Store :=
  ⟨KindStore.empty, #[⟨.record .type, 0, solution⟩], #[], [], 0, solved⟩

/-- The row with one field `A`. -/
def fieldA (value : Con) : Con := .row .type [(.label "A", value)]

section Excluded

open RowML.Con Observed

/-- The metavariable means what its solution means. -/
theorem meaning_rowCell {solution : Con} {solved : Array MetaId} {X : Observed}
    (hX : meaning (plain fun _ => X) solution = fun _ => X) {a b : Con}
    (h : (rowCell (some solution) solved).Unfolds a b) :
    meaning (plain fun _ => X) a = meaning (plain fun _ => X) b := by
  cases h with
  | @intro id found spine hfound hlength =>
    obtain ⟨rfl, rfl⟩ : id = 0 ∧ solution = found := by
      cases id with
      | zero =>
        cases hfound
        exact ⟨rfl, rfl⟩
      | succ id => cases hfound
    rw [List.length_eq_zero_iff.mp hlength, instantiated_nil, hX]
    rfl

/-- Only the first component of a pair is observed at index 0. -/
theorem component_mem_pair {metas : MetaId → Observed} {c d : Con} {env : Nat → Observed}
    {t : Token} : Token.component 0 t ∈ meaning (plain metas) (.tuple [c, d]) env ↔
      t ∈ meaning (plain metas) c env := by
  change Token.component 0 t ∈ place 0 (meaning (plain metas) c env) ⊔
    (place 1 (meaning (plain metas) d env) ⊔ ⊥) ↔ _
  simp [LowerSet.mem_sup_iff]

/-- The row turns out to have the projected field twice. -/
theorem repeated_not_convertible {solved : Array MetaId} :
    ¬ Convertible Globals.empty (rowCell (some (fieldA (.prim .string))) solved)
      (.tuple [.proj (.concat (.mvar 0 []) (fieldA (.prim .int))) (.label "A"), .mvar 0 []])
      (.tuple [.prim .int, fieldA (.prim .string)]) := by
  have hfield : Token.field "A" [.prim .string] ∈ fieldOf (approx [.label "A"])
      (approx [.prim .string]) :=
    ⟨"A", _, rfl, label_mem_approx.mpr rfl, fun s hs => mem_approx_self hs⟩
  refine not_convertible_of_mem
    (fun _ => fieldOf (approx [.label "A"]) (approx [.prim .string]) ⊔ ⊥)
    (.component 0 (.prim .string)) (meaning_rowCell rfl) ?_ ?_
  · rw [component_mem_pair]
    refine mem_project.mpr ⟨"A", .prim .string, label_mem_approx.mpr rfl, ?_, le_rfl⟩
    exact LowerSet.mem_sup_iff.mpr (.inl (LowerSet.mem_sup_iff.mpr (.inl hfield)))
  · rw [component_mem_pair]
    exact fun h => absurd (prim_mem_approx.mp h) (by decide)

/-- The row turns out to lack the projected field. -/
theorem missing_not_convertible {solved : Array MetaId} :
    ¬ Convertible Globals.empty (rowCell (some (.row .type [])) solved)
      (.tuple [.proj (.map .type .type (.abs "x" .type (.prim .int)) (.mvar 0 [])) (.label "A"),
        .mvar 0 []])
      (.tuple [.prim .int, .row .type []]) := by
  refine fun h => not_convertible_of_mem (fun _ => ⊥) (.component 0 (.prim .int))
    (meaning_rowCell rfl) ?_ ?_ h.symm
  · rw [component_mem_pair]
    exact prim_mem_approx.mpr rfl
  · rw [component_mem_pair]
    intro h
    obtain ⟨x, value, -, hfield, -⟩ := mem_project.mp h
    change Token.field x [value] ∈ mapped _ ⊥ at hfield
    rw [mapped_bot] at hfield
    exact LowerSet.notMem_bot hfield

/-- The tuple has no such component. -/
theorem component_not_convertible :
    ¬ Convertible Globals.empty Store.empty
      (.component (.tuple [.prim .int]) 5) (.prim .string) := by
  refine fun h => not_convertible_of_mem (fun _ => ⊥) (.prim .string)
    (fun {a b} hab => by rcases hab with ⟨⟨⟩, -⟩) ?_ ?_ h.symm
  · exact prim_mem_approx.mpr rfl
  · intro h
    obtain ⟨value, hvalue, -⟩ := mem_select.mp h
    rcases LowerSet.mem_sup_iff.mp hvalue with ⟨_, ⟨⟩, -⟩ | hvalue
    exact LowerSet.notMem_bot hvalue

/-- Unification succeeds on three pairs that are not convertible: a projection from a row that is
later found to have the field already, one from a map over a row that is later found to be empty,
and a component that does not exist. -/
theorem unify_unconvertible :
    (unify Globals.empty 10 0
        (.tuple [.proj (.concat (.mvar 0 []) (fieldA (.prim .int))) (.label "A"), .mvar 0 []])
        (.tuple [.prim .int, fieldA (.prim .string)]) (rowCell none #[]) =
      some ((.ok (), []), rowCell (some (fieldA (.prim .string))) #[0]) ∧
      ¬ Convertible Globals.empty (rowCell (some (fieldA (.prim .string))) #[0])
        (.tuple [.proj (.concat (.mvar 0 []) (fieldA (.prim .int))) (.label "A"), .mvar 0 []])
        (.tuple [.prim .int, fieldA (.prim .string)])) ∧
    (unify Globals.empty 10 0
        (.tuple [.proj (.map .type .type (.abs "x" .type (.prim .int)) (.mvar 0 [])) (.label "A"),
          .mvar 0 []])
        (.tuple [.prim .int, .row .type []]) (rowCell none #[]) =
      some ((.ok (), []), rowCell (some (.row .type [])) #[0]) ∧
      ¬ Convertible Globals.empty (rowCell (some (.row .type [])) #[0])
        (.tuple [.proj (.map .type .type (.abs "x" .type (.prim .int)) (.mvar 0 [])) (.label "A"),
          .mvar 0 []])
        (.tuple [.prim .int, .row .type []])) ∧
    (unify Globals.empty 10 0 (.component (.tuple [.prim .int]) 5) (.prim .string) Store.empty =
      some ((.ok (), []), Store.empty) ∧
      ¬ Convertible Globals.empty Store.empty (.component (.tuple [.prim .int]) 5)
        (.prim .string)) :=
  ⟨⟨rfl, repeated_not_convertible⟩, ⟨rfl, missing_not_convertible⟩,
    ⟨rfl, component_not_convertible⟩⟩

end Excluded

end RowML
