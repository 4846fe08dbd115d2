import RowML.Proofs.Store.Integrity

/-!
# Following solutions keeps a store in order

Reading the metavariable at the head of a constructor, or all of them, solves nothing.  The answer
fits the store, and the solutions that are rewritten on the way are read and nothing else.  What
becomes of kind annotations plays no part in this.
-/

namespace RowML

namespace Con

/-! ## Substitution up to kinds -/

/-- The same constructor with any kind annotations. -/
abbrev Resembles : Con → Con → Prop := Alike fun _ _ => True

theorem Resembles.refl (c : Con) : Resembles c c := by
  refine Alike.refl ?_
  induction c using inductionOnParts with
  | step c ih => exact .intro (fun _ _ => trivial) ih

theorem Resembles.of_eq {a b : Con} (h : a = b) : Resembles a b := h ▸ .refl a

theorem of_indifferent {σ α : Type} {x : StateM σ α} {s : σ} {Post : α → σ → Prop}
    (h : Yields (.indifferent σ) s x Post) : Post (x.run s).1 (x.run s).2 :=
  (h _ _ rfl).2.2 _ rfl

private theorem relates_all :
    Relates (.indifferent KindStore) (fun _ _ => True) (fun _ _ _ => True) :=
  ⟨fun _ _ h => h, fun _ _ h => h, id⟩

private theorem shifts_all :
    Shifts (.indifferent KindStore) (fun _ _ => True) (fun _ _ _ => True) :=
  fun _ _ _ _ _ _ _ => ⟨trivial, trivial, fun _ _ => trivial⟩

theorem Resembles.trans {a b c : Con} (h : Resembles a b) (h' : Resembles b c) :
    Resembles a c := by
  induction a using inductionOnParts generalizing b c with
  | step a ih =>
    refine Alike.of_forall₂ (h.frame_eq.trans h'.frame_eq) ?_ ?_
    · have := (length_annotations_eq h.frame_eq).trans (length_annotations_eq h'.frame_eq)
      exact List.forall₂_iff_get.mpr ⟨this, fun _ _ _ => trivial⟩
    · have hab := List.forall₂_iff_get.mp h.parts
      have hbc := List.forall₂_iff_get.mp h'.parts
      refine List.forall₂_iff_get.mpr ⟨hab.1.trans hbc.1, fun i hi hi' => ?_⟩
      exact ih _ (List.getElem_mem hi) (hab.2 i hi (hab.1 ▸ hi)) (hbc.2 i (hab.1 ▸ hi) hi')

theorem Resembles.symm {a b : Con} (h : Resembles a b) : Resembles b a := by
  induction a using inductionOnParts generalizing b with
  | step a ih =>
    refine Alike.of_forall₂ h.frame_eq.symm ?_ ?_
    · exact List.forall₂_iff_get.mpr ⟨length_annotations_eq h.frame_eq.symm, fun _ _ _ => trivial⟩
    · have hparts := List.forall₂_iff_get.mp h.parts
      refine List.forall₂_iff_get.mpr ⟨hparts.1.symm, fun i hi hi' => ?_⟩
      exact ih _ (List.getElem_mem hi') (hparts.2 i hi' hi)

/-- Traversals that put constructors that resemble each other for the variables. -/
theorem Resembles.traverse {vars vars' : Depth → Nat → Con} {kinds kinds' : Depth → Kind → Kind}
    (hvars : ∀ d i, Resembles (vars d i) (vars' d i)) {c c' : Con} (h : Resembles c c')
    (d : Depth) : Resembles (c.traverse vars kinds d) (c'.traverse vars' kinds' d) := by
  induction c using inductionOnParts generalizing c' d with
  | step c ih =>
    by_cases hbvar : ∃ i, c = .bvar i
    · obtain ⟨i, rfl⟩ := hbvar
      rw [h.leaf rfl rfl]
      exact hvars d i
    · have hbvar : ∀ i, c ≠ .bvar i := fun i hi => hbvar ⟨i, hi⟩
      have hbvar' := ne_bvar_of_frame h.frame_eq.symm hbvar
      refine Alike.of_forall₂ ?_ ?_ ?_
      · rw [frame_traverse hbvar, frame_traverse hbvar', h.frame_eq]
      · rw [annotations_traverse hbvar, annotations_traverse hbvar', List.forall₂_map_left_iff,
          List.forall₂_map_right_iff]
        exact h.annotations
      · rw [parts_traverse hbvar, parts_traverse hbvar', List.forall₂_map_left_iff,
          List.forall₂_map_right_iff, ← binders_eq h.frame_eq]
        have hparts := List.forall₂_iff_get.mp h.parts
        refine List.forall₂_iff_get.mpr ⟨hparts.1, fun i hi hi' => ?_⟩
        exact ih _ (List.getElem_mem hi) (hparts.2 i hi hi') _

/-- A change of annotations. -/
theorem Resembles.kinds (c : Con) (kinds : Depth → Kind → Kind) :
    Resembles c (c.traverse (fun _ i => .bvar i) kinds Depth.zero) := by
  have hself : c.traverse (fun _ i => .bvar i) (fun _ k => k) Depth.zero = c :=
    traverse_eq_self Depth.zero Depth.zero (Nodes.of_forall fun _ _ => by simp)
  conv_lhs => rw [← hself]
  exact Resembles.traverse (fun _ _ => .refl _) (.refl c) Depth.zero

theorem liftKinds_resembles (c : Con) (amount : Nat) (ks : KindStore) :
    Resembles c ((c.liftKinds amount).run ks).1 :=
  (Resembles.kinds c _).trans
    (of_indifferent (relates_all.liftKinds shifts_all amount trivial (.of_forall fun _ => trivial)))

theorem substKind_resembles (c : Con) (argument : Kind) (ks : KindStore) :
    Resembles c ((c.substKind argument).run ks).1 := by
  refine (Resembles.kinds c _).trans (of_indifferent (relates_all.substKind
    (fun _ _ _ _ _ _ => ⟨trivial, trivial, fun _ _ => trivial⟩) trivial
    (.of_forall fun _ => trivial)))

theorem instantiate_resembles (c : Con) (spine : List Con) (ks : KindStore) :
    Resembles (c.instantiated spine) ((c.instantiate spine).run ks).1 :=
  of_indifferent (relates_all.instantiate shifts_all trivial (.of_forall fun _ => trivial)
    fun _ _ => .of_forall fun _ => trivial)

theorem subst_resembles (body argument : Con) (ks : KindStore) :
    Resembles (body.instantiated [argument]) ((body.subst argument).run ks).1 := by
  rw [subst_eq_instantiate]
  exact instantiate_resembles body [argument] ks

end Con

namespace Store

variable {store store' store'' : Store}

/-! ## Computations that solve nothing -/

/-- The second store differs from the first one in how its solutions are written. -/
structure Compresses (store store' : Store) : Prop extends store.Evolves store' where
  cells : store'.cells.size = store.cells.size
  solved : ∀ i, store'.isSolved i = store.isSolved i

namespace Compresses

theorem refl (store : Store) : Compresses store store :=
  ⟨.refl store, rfl, fun _ => rfl⟩

theorem trans (h : Compresses store store') (h' : Compresses store' store'') :
    Compresses store store'' :=
  ⟨h.toEvolves.trans h'.toEvolves, h'.cells.trans h.cells, fun i =>
    (h'.solved i).trans (h.solved i)⟩

theorem of_sameCells (h : SameCells store store') : Compresses store store' :=
  ⟨h.evolves, by rw [h.cells], fun i => by rw [isSolved, isSolved, h.solution?]⟩

end Compresses

/-- The discipline of computations that solve nothing. -/
def compression : Discipline Store where
  Ok := Steady
  Grows := Compresses
  refl store _ := Compresses.refl store
  trans _ _ _ := Compresses.trans

end Store

/-- A computation that solves nothing keeps to the general discipline. -/
theorem Yields.of_compression {m : Type → Type} [Monad m] [Executes m Store] {α : Type}
    {store : Store} {x : m α} {Post : α → Store → Prop}
    (h : Yields Store.compression store x Post) :
    Yields Store.evolution store x fun a store' => store.Compresses store' ∧ Post a store' := by
  intro r store' hexec
  obtain ⟨ok, compresses, post⟩ := h r store' hexec
  exact ⟨ok, compresses.toEvolves, fun a ha => ⟨compresses, post a ha⟩⟩

namespace Store

variable {store store' : Store}

theorem onKinds_keeps {α : Type} (x : KindM α) (ok : store.Steady) :
    Yields compression store (onKinds x) fun a store' =>
      SameCells store store' ∧ a = (x.run store.kinds).1 := by
  have same : SameCells store (store.withKinds (x.run store.kinds).2) := sameCells_withKinds _ _
  exact Yields.of_exec rfl (same.steady ok) (.of_sameCells same) ⟨same, rfl⟩

/-! ## Reading the head -/

/-- What following the solution of a cell does: the cell is linked to the end of the chain, then the
end of the chain is instantiated. -/
theorem resolveWithin_solved (fuel : Nat) {id : MetaId} {target : Con} (spine : List Con)
    (h : store.solution? id = some target) :
    (resolveWithin (fuel + 1) (.mvar id spine)).run store =
      let next := (resolveWithin fuel target).run store
      let relinked := if next.1 ≠ target then next.2.put id next.1 else next.2
      let answer := (next.1.instantiate spine).run relinked.kinds
      (answer.1, relinked.withKinds answer.2) := by
  rw [resolveWithin, StateT.run_bind, StateT.run_get, pure_bind, h]
  simp only
  have hbind : ∀ (f : Con → StoreM Con), (resolveWithin fuel target >>= f).run store =
      (f ((resolveWithin fuel target).run store).1).run ((resolveWithin fuel target).run store).2 :=
    fun _ => rfl
  rw [hbind]
  split <;> rfl

/-- What following the head of `c` has done to the store, given the answer `r`. -/
structure Chased (store : Store) (fuel : Nat) (c r : Con) (store' : Store) : Prop where
  ok : store'.Steady
  compresses : store.Compresses store'
  fits : r.Fits store'
  bound : ∀ {n}, c.bound ≤ n → r.bound ≤ n
  answer : r = c ∨ ∃ before, store.Compresses before ∧ SameCells before store' ∧
    before.Unwraps c r
  ranks : ∀ {rank}, Ranks store.Leads rank → Ranks store'.Leads rank
  above : ∀ {rank}, Ranks store.Leads rank → ∀ u,
    (∀ i spine, c = .mvar i spine → rank i < rank u) → store'.solution? u = store.solution? u
  mentions : ∀ {rank}, Ranks store.Leads rank → ∀ {j}, r.Mentions j →
    c.Mentions j ∨ ∃ i spine, c = .mvar i spine ∧ rank j < rank i
  unsolved : 0 < fuel → ∀ {i spine}, c = .mvar i spine → r = c → store.isSolved i = false

private theorem Chased.itself {fuel : Nat} {c : Con} (ok : store.Steady) (hc : c.Fits store)
    (unsolved : 0 < fuel → ∀ {i spine}, c = .mvar i spine → store.isSolved i = false) :
    Chased store fuel c c store where
  ok := ok
  compresses := .refl store
  fits := hc
  bound h := h
  answer := .inl rfl
  ranks h := h
  above _ _ _ := rfl
  mentions _ _ h := .inl h
  unsolved hfuel _ _ hi _ := unsolved hfuel hi

/-- The store after the cell `i` has been linked to the end of the chain that starts with its
solution. -/
private structure Linked (store : Store) (i : MetaId) (final : Con) (next linked : Store) :
    Prop where
  ok : linked.Steady
  compresses : store.Compresses linked
  solution : linked.solution? i = some final
  others : ∀ u, u ≠ i → linked.solution? u = next.solution? u
  ranks : ∀ {rank}, Ranks store.Leads rank → Ranks linked.Leads rank

private theorem Chased.linked {fuel : Nat} {i : MetaId} {target final : Con} {next : Store}
    (chased : Chased store fuel target final next) (ok : store.Steady)
    (hi : store.solution? i = some target) :
    Linked store i final next (if final ≠ target then next.put i final else next) := by
  obtain ⟨rank, hrank⟩ := ok.acyclic
  have below : ∀ {rank}, Ranks store.Leads rank → ∀ j, target.Mentions j → rank j < rank i :=
    fun hrank j hj => hrank i j ⟨target, hi, hj⟩
  have hi' : next.solution? i = some target :=
    (chased.above hrank i fun j spine hj => below hrank j (hj ▸ .here spine)).trans hi
  have hlt := lt_of_solution hi'
  by_cases hfinal : final = target
  · rw [if_neg (by simpa using hfinal)]
    exact ⟨chased.ok, chased.compresses, hfinal ▸ hi', fun _ _ => rfl, chased.ranks⟩
  rw [if_pos hfinal]
  have ranks : ∀ {rank}, Ranks store.Leads rank → Ranks (next.put i final).Leads rank := by
    rintro rank hrank u w ⟨x, hx, hw⟩
    rw [solution?_put hlt] at hx
    split at hx
    next h =>
      cases hx
      subst h
      rcases chased.mentions hrank hw with hw | ⟨j, spine, hj, hwj⟩
      · exact below hrank w hw
      · exact Nat.lt_trans hwj (below hrank j (hj ▸ .here spine))
    next => exact chased.ranks hrank u w ⟨x, hx, hw⟩
  have hothers : ∀ u, u ≠ i → (next.put i final).solution? u = next.solution? u := by
    intro u hu
    rw [solution?_put hlt, if_neg hu]
  have hnew : (next.put i final).solution? i = some final := by
    rw [solution?_put hlt, if_pos rfl]
  have hbound : final.bound ≤ (next.cell i).arity := by
    rw [chased.compresses.arity i (lt_of_solution hi)]
    exact chased.bound (ok.bounds hi)
  have hadmits : next.Admits (Function.update next.solution? i (some final)) := by
    refine chased.ok.admits.update hlt chased.fits hbound ⟨rank, ?_⟩
    rw [← solution?_put_eq_update hlt]
    exact ranks hrank
  have ok' := chased.ok.put hlt hadmits
  refine ⟨ok', ?_, hnew, hothers, ranks⟩
  -- the old solution is a solved metavariable, and the new one is what it stands for
  obtain ⟨before, hbefore, same, hread⟩ : ∃ before, store.Compresses before ∧
      SameCells before next ∧ before.Unwraps target final :=
    chased.answer.resolve_left hfinal
  have hretains : Retains before (next.put i final) := by
    intro u x hx
    rw [← same.solution?] at hx
    by_cases hu : u = i
    · subst hu
      rw [hi'] at hx
      cases hx
      exact ⟨final, hnew, .inr hread⟩
    · exact ⟨x, (hothers u hu).trans hx, .inl rfl⟩
  have hagrees : ∀ x, next.solution? i = some x → (next.put i final).Agrees final x := by
    intro x hx
    rw [hi'] at hx
    cases hx
    cases hread with
    | @intro j spine solution _ hj hr =>
      have hne : j ≠ i := by
        rintro rfl
        exact Nat.lt_irrefl _ (below hrank j (.here spine))
      have hlength : spine.length = ((next.put i final).cell j).arity := by
        rw [arity_put hlt]
        exact ((chased.ok.fits hi').top j spine rfl).2
      have hstep : (next.put i final).Agrees (.mvar j spine) (solution.instantiated spine) :=
        .step (.intro ((hothers j hne).trans (same.solution? ▸ hj)) hlength)
      have hresembles := Con.instantiate_resembles solution spine before.kinds
      rw [hr] at hresembles
      exact (hstep.trans (.of_alike hresembles)).symm
  refine hbefore.trans ⟨evolves_put same hlt ok' hretains hagrees, by simp [same.cells],
    fun u => ?_⟩
  rw [isSolved, isSolved, ← same.solution?]
  by_cases hu : u = i
  · rw [hu, hnew, hi']
    rfl
  · rw [hothers u hu]

private theorem Chased.read {fuel : Nat} {i : MetaId} {spine : List Con} {target final : Con}
    {next linked : Store} (chased : Chased store fuel target final next) (ok : store.Steady)
    (hi : store.solution? i = some target) (hc : (Con.mvar i spine).Fits store)
    (link : Linked store i final next linked) :
    Chased store (fuel + 1) (.mvar i spine)
      ((final.instantiate spine).run linked.kinds).1
      (linked.withKinds ((final.instantiate spine).run linked.kinds).2) := by
  have same := sameCells_withKinds linked ((final.instantiate spine).run linked.kinds).2
  have hresembles := Con.instantiate_resembles final spine linked.kinds
  generalize linked.withKinds ((final.instantiate spine).run linked.kinds).2 = store₃ at same ⊢
  have hlength : spine.length = (store.cell i).arity := (hc.top i spine rfl).2
  have harity : (linked.cell i).arity = spine.length := by
    rw [link.compresses.arity i (lt_of_solution hi), hlength]
  have hbound : final.bound ≤ spine.length := harity ▸ link.ok.bounds link.solution
  have hspine : ∀ a ∈ spine, a.Fits linked := fun a ha =>
    (hc.part ha).evolves link.compresses.toEvolves
  have hranks : ∀ {rank}, Ranks store.Leads rank → Ranks store₃.Leads rank := by
    rintro rank hrank u w ⟨x, hx, hw⟩
    exact link.ranks hrank u w ⟨x, same.solution? ▸ hx, hw⟩
  have hbelow : ∀ {rank}, Ranks store.Leads rank → ∀ {j}, final.Mentions j → rank j < rank i :=
    fun hrank j hj => link.ranks hrank i j ⟨final, link.solution, hj⟩
  refine ⟨same.steady link.ok, link.compresses.trans (.of_sameCells same), ?_, fun {n} hn => ?_,
    .inr ⟨linked, link.compresses, same, .intro link.solution rfl⟩, hranks,
    fun {rank} hrank u hu => ?_, fun {rank} hrank j hj => ?_, fun _ j spine' hj hr => ?_⟩
  · have hfinal : (final.instantiated spine).Fits linked :=
      (link.ok.fits link.solution).instantiated hspine
    exact (hfinal.of_alike hresembles).evolves same.evolves
  · rw [hresembles.bound_le_iff]
    rw [Con.bound_le_iff_parts] at hn
    exact Con.bound_instantiated hbound fun a ha => hn.2 a ha
  · have hlt := hu i spine rfl
    have hne : u ≠ i := by
      rintro rfl
      omega
    rw [same.solution?, link.others u hne]
    refine chased.above hrank u fun j spine hj => Nat.lt_trans ?_ hlt
    exact hrank i j ⟨target, hi, hj ▸ .here spine⟩
  · rw [hresembles.mentions_iff] at hj
    rcases Con.mentions_instantiated hj with hj | ⟨a, ha, hj⟩
    · exact .inr ⟨i, spine, rfl, hbelow hrank hj⟩
    · exact .inl (.part ha hj)
  · -- a solved metavariable is never its own answer
    exfalso
    cases hj
    rw [hr] at hresembles
    obtain ⟨rank, hrank⟩ := ok.acyclic
    by_cases hbvar : ∃ b, final = .bvar b
    · obtain ⟨b, rfl⟩ := hbvar
      change Con.Resembles (Con.spineVar spine Depth.zero b) _ at hresembles
      rcases hget : spine.reverse[b]? with _ | a
      · rw [Con.spineVar_of_none (Nat.zero_le b) hget] at hresembles
        cases hresembles.leaf rfl rfl
      · rw [Con.spineVar_of_some (Nat.zero_le b) hget, Con.weakened_zero] at hresembles
        exact hresembles.not_mem_parts (List.mem_reverse.mp (List.mem_of_getElem? hget))
    · have hbvar : ∀ b, final ≠ .bvar b := fun b hb => hbvar ⟨b, hb⟩
      have hframe : (final.instantiated spine).frame = final.frame := Con.frame_traverse hbvar
      have hmvar := Con.eq_mvar_of_frame (hresembles.frame_eq.symm.trans hframe)
      have := hbelow hrank (hmvar ▸ Con.Mentions.here _)
      omega

theorem chased_resolveWithin (fuel : Nat) {c : Con} {store : Store} (ok : store.Steady)
    (hc : c.Fits store) :
    Chased store fuel c ((resolveWithin fuel c).run store).1
      ((resolveWithin fuel c).run store).2 := by
  induction fuel generalizing c store with
  | zero =>
    have hrun : resolveWithin 0 c = pure c := by cases c <;> rfl
    rw [hrun]
    exact .itself ok hc (by simp)
  | succ fuel ih =>
    by_cases hmvar : ∃ i spine, c = .mvar i spine
    · obtain ⟨i, spine, rfl⟩ := hmvar
      cases hi : store.solution? i with
      | none =>
        have hrun : (resolveWithin (fuel + 1) (.mvar i spine)).run store =
            (.mvar i spine, store) := by
          rw [resolveWithin, StateT.run_bind, StateT.run_get, pure_bind, hi]
          rfl
        rw [hrun]
        refine .itself ok hc fun _ {u spine} hu => ?_
        cases hu
        simp [isSolved, hi]
      | some target =>
        rw [resolveWithin_solved fuel spine hi]
        have chased := ih ok (ok.fits hi)
        exact chased.read ok hi hc (chased.linked ok hi)
    · have hrun : resolveWithin (fuel + 1) c = pure c := by
        cases c <;> first | rfl | exact absurd ⟨_, _, rfl⟩ hmvar
      rw [hrun]
      exact .itself ok hc fun _ {i spine} hi => absurd ⟨i, spine, hi⟩ hmvar

/-- What `resolve` answers. -/
structure Headed (store : Store) (c r : Con) (store' : Store) : Prop where
  fits : r.Fits store'
  unsolved : ∀ {i spine}, c = .mvar i spine → r = c → store.isSolved i = false
  other : (∀ i spine, c ≠ .mvar i spine) → r = c

theorem resolve_keeps {c : Con} (ok : store.Steady) (hc : c.Fits store) :
    Yields compression store (resolve c) fun r store' => Headed store c r store' := by
  have chased := chased_resolveWithin store.cells.size ok hc
  refine Yields.of_exec rfl chased.ok chased.compresses ⟨chased.fits, ?_, fun hne => ?_⟩
  · intro i spine hi hr
    subst hi
    have hlt := (hc.top i spine rfl).1
    exact chased.unsolved (Nat.lt_of_le_of_lt (Nat.zero_le _) hlt) rfl hr
  · rcases chased.answer with h | ⟨before, -, -, hread⟩
    · exact h
    · cases hread with
      | intro _ _ => exact absurd rfl (hne _ _)

/-! ## Reading all metavariables -/

/-- What `zonk` answers: a constructor that fits and mentions unsolved cells only. -/
structure Expanded (store : Store) (c : Con) : Prop where
  fits : c.Fits store
  unsolved : ∀ {i}, c.Mentions i → store.isSolved i = false

theorem Expanded.compresses {c : Con} (h : Expanded store c)
    (compresses : store.Compresses store') :
    Expanded store' c :=
  ⟨h.fits.evolves compresses.toEvolves, fun hi => (compresses.solved _).trans (h.unsolved hi)⟩

/-- The specification of zonking, node by node. -/
private def expanding : Con.PassSpec Store where
  Pre s _ c := c.Fits s
  KindPre _ _ _ := True
  Enters s _ c := ∀ i spine, c = .mvar i spine → s.isSolved i = false
  Post s _ _ c' := Expanded s c'
  KindPost _ _ _ _ := True

private theorem expanded_of_related {d : Depth} {c c' : Con} (hc : c.Fits store)
    (henters : ∀ i spine, c = .mvar i spine → store.isSolved i = false)
    (related : expanding.Related store d c c') : Expanded store c' := by
  have hparts : ∀ p ∈ c'.parts, Expanded store p :=
    Con.forall_mem_of_forall₂ related.parts fun _ _ _ hp => hp
  refine ⟨.intro (hc.top.of_frame related.frame) fun p hp => (hparts p hp).fits, ?_⟩
  intro i hi
  rcases Con.mentions_iff.mp hi with ⟨spine, rfl⟩ | ⟨p, hp, hmentions⟩
  · exact henters i _ (Con.eq_mvar_of_frame related.frame.symm)
  · exact (hparts p hp).unsolved hmentions

theorem zonk_keeps (fuel : Nat) {c : Con} {store : Store} (ok : store.Steady)
    (hc : c.Fits store) :
    Yields compression store (zonk fuel c) fun c' store' => Expanded store' c' := by
  induction fuel generalizing c store with
  | zero => exact Yields.of_none rfl
  | succ fuel ih =>
    refine Con.Pass.rebuildM_yields (S := expanding) ?_ c ok hc
    exact
    { pre_grows := fun _ compresses h => h.evolves compresses.toEvolves
      kindPre_grows := fun _ _ h => h
      enters_grows := fun _ compresses h i spine hi => (compresses.solved i).trans (h i spine hi)
      post_grows := fun _ compresses h => h.compresses compresses
      kindPost_grows := fun _ _ h => h
      pre_part := fun h hp => h.part hp
      pre_kind := fun _ _ => trivial
      node_yields := by
        intro store d c ok hc
        split
        next h =>
          simp only [Bool.not_eq_true', Bool.or_eq_false_iff] at h
          exact Yields.pure ok ⟨hc, fun hi => absurd hi (Con.not_mentions_of_has h.1)⟩
        next =>
          split
          next i spine =>
            refine Yields.bind ok (.of_exec_eq rfl (resolve_keeps ok hc)) ?_
            intro r store' ok' compresses headed
            split
            next => exact Yields.map ok' (ih ok' headed.fits)
            next hr =>
              refine Yields.pure ok' fun j spine' hj => ?_
              rw [compresses.solved]
              exact headed.unsolved hj (by simpa using hr)
          next hne => exact Yields.pure ok fun i spine hi => absurd hi (hne i spine)
      kind_yields := by
        intro store d k ok _
        exact (Yields.of_exec_eq rfl (onKinds_keeps (KindStore.zonk k) ok)).mono
          fun _ _ _ _ _ => trivial
      close := fun _ pre enters related => expanded_of_related pre enters related }

end Store

end RowML
