import RowML.Proofs.Store.Termination
import RowML.Proofs.Unify.Renaming
import RowML.Proofs.Constructor.Lockstep

/-!
# Stores without cycles, side by side

That no cell is reached from its own solution is all that reading a store needs, whatever else is in
it: following solutions ends, solves nothing and falls along every rank, the answer of a pass over
all metavariables mentions unsolved cells only, and a cell that is solved by such an answer is not
reached from it.

Two stores are twins if their cells and kinds that a renumbering pairs are twins and neither has a
cycle.  What is in no pair is garbage of earlier computations.  Following solutions and replacing
metavariables run side by side on twins.
-/

namespace RowML

namespace Store

variable {store store' : Store} {id : MetaId} {solution : Con} {rank : MetaId → Nat}

/-- A solution that mentions lower cells only keeps a rank. -/
theorem ranks_put (h : Ranks store.Leads rank)
    (hsolution : ∀ j, solution.Mentions j → rank j < rank id) :
    Ranks (store.put id solution).Leads rank := by
  rintro i j ⟨x, hx, hj⟩
  by_cases hi : i = id
  · subst hi
    by_cases hlt : i < store.cells.size
    · rw [solution?_put hlt, if_pos rfl] at hx
      cases hx
      exact hsolution j hj
    · have := lt_of_solution hx
      rw [size_put] at this
      exact absurd this hlt
  · rw [solution?_put_of_ne hi] at hx
    exact h i j ⟨x, hx, hj⟩

theorem isSolved_put (hsolved : store.isSolved id = true) (i : MetaId) :
    (store.put id solution).isSolved i = store.isSolved i := by
  by_cases hi : i = id
  · subst hi
    obtain ⟨target, htarget⟩ := Option.isSome_iff_exists.mp hsolved
    rw [hsolved, isSolved, solution?_put (lt_of_solution htarget), if_pos rfl]
    rfl
  · rw [isSolved, solution?_put_of_ne hi, isSolved]

/-! ## Reading the head -/

/-- What following the head of `c` has done to the store, given the answer `r`. -/
structure Traced (store : Store) (fuel : Nat) (c r : Con) (store' : Store) : Prop where
  solved : ∀ i, store'.isSolved i = store.isSolved i
  ranks : ∀ {rank}, Ranks store.Leads rank → Ranks store'.Leads rank
  mentions : ∀ {rank}, Ranks store.Leads rank → ∀ {j}, r.Mentions j →
    c.Mentions j ∨ ∃ i spine, c = .mvar i spine ∧ rank j < rank i
  unsolved : 0 < fuel → ∀ {i spine}, c = .mvar i spine → Con.Resembles c r →
    store.isSolved i = false

/-- A solved metavariable never resembles its own answer. -/
theorem not_resembles_instantiate {ks : KindStore} {spine : List Con} {final : Con}
    (hbelow : ∀ j, final.Mentions j → rank j < rank id) :
    ¬ Con.Resembles (.mvar id spine) ((final.instantiate spine).run ks).1 := by
  intro hr
  have hresembles := (Con.instantiate_resembles final spine ks).trans hr.symm
  by_cases hbvar : ∃ b, final = .bvar b
  · obtain ⟨b, rfl⟩ := hbvar
    change Con.Resembles (Con.spineVar spine Depth.zero b) _ at hresembles
    rcases hget : spine.reverse[b]? with _ | a
    · rw [Con.spineVar_of_none (Nat.zero_le b) hget] at hresembles
      cases hresembles.leaf rfl rfl
    · rw [Con.spineVar_of_some (Nat.zero_le b) hget, Con.weakened_zero] at hresembles
      exact hresembles.not_mem_parts (List.mem_reverse.mp (List.mem_of_getElem? hget))
  · have hbvar : ∀ b, final ≠ .bvar b := fun b hb => hbvar ⟨b, hb⟩
    have hframe : (final.instantiated spine).frame = final.frame := Con.frame_traverse hbvar
    have hmvar := Con.eq_mvar_of_frame (hresembles.frame_eq.symm.trans hframe)
    exact Nat.lt_irrefl _ (hbelow id (hmvar ▸ Con.Mentions.here _))

theorem traced_resolveWithin (fuel : Nat) (c : Con) (acyclic : store.Acyclic) :
    Traced store fuel c ((resolveWithin fuel c).run store).1
      ((resolveWithin fuel c).run store).2 := by
  induction fuel generalizing c with
  | zero =>
    have hrun : resolveWithin 0 c = pure c := by cases c <;> rfl
    rw [hrun]
    exact ⟨fun _ => rfl, id, fun _ _ => .inl, nofun⟩
  | succ fuel ih =>
    by_cases hunsolved : ∀ i spine, c = .mvar i spine → store.isSolved i = false
    · rw [resolveWithin_unsolved hunsolved]
      exact ⟨fun _ => rfl, id, fun _ _ => .inl, fun _ _ _ hi _ => hunsolved _ _ hi⟩
    push Not at hunsolved
    obtain ⟨i, spine, rfl, hsolved⟩ := hunsolved
    have hsolved : store.isSolved i = true := by simpa using hsolved
    obtain ⟨target, htarget⟩ := Option.isSome_iff_exists.mp hsolved
    rw [resolveWithin_solved fuel spine htarget]
    have traced := ih target
    generalize (resolveWithin fuel target).run store = next at traced ⊢
    obtain ⟨final, next⟩ := next
    simp only at traced ⊢
    have hbelow : ∀ {rank}, Ranks store.Leads rank → ∀ j, final.Mentions j → rank j < rank i := by
      intro rank hrank j hj
      rcases traced.mentions hrank hj with hj | ⟨u, spine', rfl, hju⟩
      · exact hrank i j ⟨target, htarget, hj⟩
      · exact Nat.lt_trans hju (hrank i u ⟨_, htarget, .here spine'⟩)
    have hlinked : (∀ u, (if final ≠ target then next.put i final else next).isSolved u =
        store.isSolved u) ∧ ∀ {rank}, Ranks store.Leads rank →
          Ranks (if final ≠ target then next.put i final else next).Leads rank := by
      split
      · refine ⟨fun u => ?_, fun hrank => ranks_put (traced.ranks hrank) (hbelow hrank)⟩
        rw [isSolved_put ((traced.solved i).trans hsolved), traced.solved]
      · exact ⟨traced.solved, traced.ranks⟩
    generalize (if final ≠ target then next.put i final else next) = linked at hlinked ⊢
    refine ⟨hlinked.1, fun hrank => hlinked.2 hrank, fun hrank j hj => ?_,
      fun _ u spine' hu hr => ?_⟩
    · rw [(Con.instantiate_resembles final spine linked.kinds).mentions_iff] at hj
      rcases Con.mentions_instantiated hj with hj | ⟨a, ha, hj⟩
      · exact .inr ⟨i, spine, rfl, hbelow hrank j hj⟩
      · exact .inl (.part ha hj)
    · cases hu
      obtain ⟨rank, hrank⟩ := acyclic
      exact absurd hr (not_resembles_instantiate (hbelow hrank))

/-- The discipline of computations that solve nothing and make no cycle. -/
def tracing : Discipline Store where
  Ok := Acyclic
  Grows store store' := ∀ i, store'.isSolved i = store.isSolved i
  refl _ _ _ := rfl
  trans _ _ _ h h' i := (h' i).trans (h i)

theorem resolve_traces (acyclic : store.Acyclic) (c : Con) :
    Yields tracing store (resolve c) fun r _ =>
      ∀ i spine, c = .mvar i spine → r = c → store.isSolved i = false := by
  have traced := traced_resolveWithin store.cells.size c acyclic
  refine Yields.of_exec rfl (acyclic.imp fun _ => traced.ranks) traced.solved
    fun i spine hi hr => ?_
  by_contra hsolved
  obtain ⟨target, htarget⟩ := Option.isSome_iff_exists.mp (Bool.not_eq_false _ ▸ hsolved)
  exact hsolved (traced.unsolved (Nat.lt_of_le_of_lt (Nat.zero_le _) (lt_of_solution htarget)) hi
    (.of_eq hr.symm))

theorem onKinds_traces {α : Type} (acyclic : store.Acyclic) (x : KindM α) :
    Yields tracing store (onKinds x) fun _ _ => True :=
  Yields.of_exec rfl acyclic (fun _ => rfl) trivial

/-! ## Reading all metavariables -/

/-- The specification of zonking, node by node. -/
private def exposing : Con.PassSpec Store where
  Pre _ _ _ := True
  KindPre _ _ _ := True
  Enters s _ c := ∀ i spine, c = .mvar i spine → s.isSolved i = false
  Post s _ _ c' := ∀ i, c'.Mentions i → s.isSolved i = false
  KindPost _ _ _ _ := True

/-- What is left after a pass over all metavariables is unsolved. -/
theorem zonk_traces (fuel : Nat) (c : Con) (acyclic : store.Acyclic) :
    Yields tracing store (zonk fuel c) fun c' store' =>
      ∀ i, c'.Mentions i → store'.isSolved i = false := by
  induction fuel generalizing c store with
  | zero => exact Yields.of_none rfl
  | succ fuel ih =>
    refine Con.Pass.rebuildM_yields (S := exposing) ?_ c acyclic trivial
    exact
    { pre_grows := fun _ _ h => h
      kindPre_grows := fun _ _ h => h
      enters_grows := fun _ grows h i spine hi => (grows i).trans (h i spine hi)
      post_grows := fun _ grows h i hi => (grows i).trans (h i hi)
      kindPost_grows := fun _ _ h => h
      pre_part := fun _ _ => trivial
      pre_kind := fun _ _ => trivial
      node_yields := by
        intro store d c acyclic _
        split
        next h =>
          simp only [Bool.not_eq_true', Bool.or_eq_false_iff] at h
          exact Yields.pure acyclic fun i hi => absurd hi (Con.not_mentions_of_has h.1)
        next =>
          split
          next i spine =>
            refine Yields.bind acyclic (.of_exec_eq rfl (resolve_traces acyclic _)) ?_
            intro r store' acyclic' grows headed
            split
            next => exact Yields.map acyclic' (ih r acyclic')
            next hr =>
              refine Yields.pure acyclic' fun j spine' hj => ?_
              rw [grows]
              exact headed j spine' hj (by simpa using hr)
          next hne => exact Yields.pure acyclic fun i spine hi => absurd hi (hne i spine)
      kind_yields := by
        intro store d k acyclic _
        exact (Yields.of_exec_eq rfl (onKinds_traces acyclic (KindStore.zonk k))).mono
          fun _ _ _ _ _ => trivial
      close := by
        intro store d c c' _ _ henters related i hi
        rcases Con.mentions_iff.mp hi with ⟨spine, rfl⟩ | ⟨p, hp, hi⟩
        · exact henters i _ (Con.eq_mvar_of_frame related.frame.symm)
        · exact Con.forall_mem_of_forall₂ related.parts (fun _ _ _ hp => hp) p hp i hi }

/-- A solution that has been renamed out of such an answer makes no cycle. -/
theorem Acyclic.put_renamed (acyclic : store.Acyclic) {zonked : Con} {vars : List Nat}
    (hzonked : ∀ i, zonked.Mentions i → store.isSolved i = false)
    (hrenamed : Con.Renamed id vars Depth.zero zonked solution) :
    (store.put id solution).Acyclic := by
  refine acyclic.put fun j hj => ⟨fun h => hrenamed.avoids (h ▸ hj), hzonked j ?_⟩
  rw [← hrenamed.instantiates]
  exact hj.traverse _

end Store

/-! ## Stores up to numbers -/

/-- The same cell. -/
structure Cell.Twin (ρ : Renumbering) (c c' : Cell) : Prop where
  kind : c.kind.Twin ρ c'.kind
  solution : Option.Rel (Con.Twin ρ) c.solution c'.solution

theorem Cell.Twin.mono {ρ ρ' : Renumbering} {c c' : Cell} (h : c.Twin ρ c') (hρ : ρ ≤ ρ') :
    c.Twin ρ' c' :=
  ⟨h.kind.mono hρ, optionRel_imp h.solution fun _ _ hc => hc.mono hρ⟩

namespace Store

/-- The cells that are paired are the same, and so are the kinds. -/
structure Mirrors (ρ : Renumbering) (s t : Store) : Prop where
  kinds : s.kinds.Twin ρ t.kinds
  cells : ∀ {i j}, ρ.cells i j → (s.cell i).Twin ρ (t.cell j)
  below : ∀ {i j}, ρ.cells i j → i < s.cells.size ∧ j < t.cells.size

/-- Stores that mirror each other and have no cycle. -/
structure Twin (ρ : Renumbering) (s t : Store) : Prop extends Mirrors ρ s t where
  left : s.Acyclic
  right : t.Acyclic

variable {ρ : Renumbering} {s t : Store} {c c' : Con} {i j : MetaId}

theorem Mirrors.withKinds (h : Mirrors ρ s t) {ks ks' : KindStore} (hks : ks.Twin ρ ks') :
    Mirrors ρ { s with kinds := ks } { t with kinds := ks' } :=
  ⟨hks, h.cells, h.below⟩

theorem Twin.withKinds (h : Twin ρ s t) {ks ks' : KindStore} (hks : ks.Twin ρ ks') :
    Twin ρ { s with kinds := ks } { t with kinds := ks' } :=
  ⟨h.toMirrors.withKinds hks, h.left, h.right⟩

theorem Mirrors.put (h : Mirrors ρ s t) (hi : ρ.cells i j) (hc : c.Twin ρ c') :
    Mirrors ρ (s.put i c) (t.put j c') where
  kinds := h.kinds
  cells {u v} hu := by
    have heq : u = i ↔ v = j :=
      ⟨fun heq => ρ.cells_unique.2 (heq ▸ hu) hi, fun heq => ρ.cells_unique.1 (heq ▸ hu) hi⟩
    rw [cell_put (h.below hi).1, cell_put (h.below hi).2]
    by_cases hu' : u = i
    · rw [if_pos hu', if_pos (heq.mp hu')]
      exact ⟨(h.cells hi).kind, .some hc⟩
    · rw [if_neg hu', if_neg (mt heq.mpr hu')]
      exact h.cells hu
  below hu := by
    rw [size_put, size_put]
    exact h.below hu

theorem Mirrors.solution? (h : Mirrors ρ s t) (hi : ρ.cells i j) :
    Option.Rel (Con.Twin ρ) (s.solution? i) (t.solution? j) :=
  (h.cells hi).solution

theorem Mirrors.isSolved_eq (h : Mirrors ρ s t) (hi : ρ.cells i j) :
    s.isSolved i = t.isSolved j := by
  have hsolution := h.solution? hi
  simp only [isSolved]
  revert hsolution
  generalize s.solution? i = x, t.solution? j = y
  rintro (_ | _) <;> rfl

/-! ## Kinds -/

/-- Computations over stores that mirror each other. -/
abbrev mirroring : Lifting Eq StoreM := .stateful Eq Mirrors

/-- Computations over twins that need no fuel. -/
abbrev lockstep : Lifting Eq StoreM := .stateful Eq Twin

/-- Computations over twins. -/
abbrev fuelledLockstep : Lifting Eq FuelM := .fuelled Eq Twin

section Kinds

variable {α β : Type} {A : Renumbering → α → β → Prop}

theorem onKinds_mirrors {x : KindM α} {y : KindM β} (h : KindStore.lockstep.Rel ρ A x y) :
    mirroring.Rel ρ A (onKinds x) (onKinds y) :=
  Lifting.stateful_still.mpr fun _ _ hst =>
    (Lifting.stateful_still.mp h _ _ hst.kinds).imp_right hst.withKinds

theorem onKinds_lockstep {x : KindM α} {y : KindM β} (h : KindStore.lockstep.Rel ρ A x y) :
    lockstep.Rel ρ A (onKinds x) (onKinds y) :=
  Lifting.stateful_still.mpr fun _ _ hst =>
    (Lifting.stateful_still.mp h _ _ hst.kinds).imp_right hst.withKinds

theorem onKindsFuelled_lockstep {x : Fuelled KindStore α} {y : Fuelled KindStore β}
    (h : (Lifting.fuelled Eq KindStore.Twin).Rel ρ A x y) :
    fuelledLockstep.Rel ρ A (onKindsFuelled x) (onKindsFuelled y) := by
  intro s t hst
  refine optionRel_map (h _ _ hst.kinds) fun _ _ ⟨ρ', hle, hab, hks⟩ => ?_
  subst hle
  exact ⟨ρ, rfl, hab, hst.withKinds hks⟩

end Kinds

/-! ## Following solutions -/

theorem setSolution_mirrors (hi : ρ.cells i j) (hc : c.Twin ρ c') :
    mirroring.Rel ρ (fun _ _ _ => True) (setSolution i (some c)) (setSolution j (some c')) :=
  Lifting.stateful_still.mpr fun _ _ hst => ⟨trivial, hst.put hi hc⟩

theorem resolveWithin_mirrors (n : Nat) (h : c.Twin ρ c') :
    mirroring.Rel ρ Con.Twin (resolveWithin n c) (resolveWithin n c') := by
  induction n generalizing c c' with
  | zero =>
    have hrun : ∀ c, resolveWithin 0 c = pure c := fun c => by cases c <;> rfl
    rw [hrun, hrun]
    exact mirroring.pure h
  | succ n ih =>
    cases h with
    | mvar hi hcs =>
      refine Lifting.bind_still Lifting.stateful_get fun s t hst => ?_
      have hsolution := hst.solution? hi
      revert hsolution
      generalize s.solution? _ = x, t.solution? _ = y
      rintro (htarget | _)
      · refine Lifting.bind_still (ih htarget) fun final final' hfinal => ?_
        have hread := onKinds_mirrors (Con.instantiate_lockstep hfinal hcs)
        simp only [ne_eq, hfinal.eq_iff htarget]
        split
        · exact Lifting.bind_still (setSolution_mirrors hi hfinal) fun _ _ _ => hread
        · exact hread
      · exact mirroring.pure (.mvar hi hcs)
    | _ => exact mirroring.pure (by constructor <;> assumption)

theorem resolve_lockstep (h : c.Twin ρ c') : lockstep.Rel ρ Con.Twin (resolve c) (resolve c') := by
  refine Lifting.stateful_still.mpr fun s t hst => ?_
  have hrun := Lifting.stateful_still.mp
    (resolveWithin_mirrors (max s.cells.size t.cells.size) h) s t hst.toMirrors
  rw [hst.left.resolveWithin_eq c (Nat.le_max_left _ _),
    hst.right.resolveWithin_eq c' (Nat.le_max_right _ _)] at hrun
  exact ⟨hrun.1, hrun.2, (resolve_traces hst.left c _ _ rfl).1,
    (resolve_traces hst.right c' _ _ rfl).1⟩

theorem unsolvedHead_lockstep (h : c.Twin ρ c') :
    lockstep.Rel ρ (fun ρ => Option.Rel ρ.cells) (unsolvedHead c) (unsolvedHead c') := by
  refine Lifting.bind_still (resolve_lockstep h) fun r r' hr => ?_
  cases hr with
  | mvar hi _ => exact lockstep.pure (.some hi)
  | _ => exact lockstep.pure .none

theorem zonk_lockstep (fuel : Nat) (h : c.Twin ρ c') :
    fuelledLockstep.Rel ρ Con.Twin (zonk fuel c) (zonk fuel c') := by
  induction fuel generalizing c c' with
  | zero => exact fun _ _ _ => .none
  | succ fuel ih =>
    refine Con.rebuildM_twins fuelledLockstep (fun d n n' hn => ?_)
      (fun _ _ _ hk => onKinds_lockstep (KindStore.zonk_lockstep hk)) h _
    simp only [hn.has_eq]
    split
    · exact fuelledLockstep.pure (.some hn)
    cases hn with
    | mvar hi hcs =>
      refine Lifting.bind_still (resolve_lockstep (.mvar hi hcs)) fun r r' hr => ?_
      simp only [ne_eq, hr.eq_iff (.mvar hi hcs)]
      split
      · exact Lifting.map (ih hr) fun _ _ _ h => .some h
      · exact fuelledLockstep.pure .none
    | _ => exact fuelledLockstep.pure .none

theorem unsolvedMVars_lockstep (fuel : Nat) (h : c.Twin ρ c') :
    fuelledLockstep.Rel ρ (fun ρ => List.Forall₂ ρ.cells) (unsolvedMVars fuel c)
      (unsolvedMVars fuel c') :=
  Lifting.bind_still (zonk_lockstep fuel h) fun _ _ h => fuelledLockstep.pure h.mvars

/-! ## New metavariables -/

/-- Computations over twins that may make metavariables. -/
abbrev extending : Lifting (· ≤ ·) FuelM := .fuelled (· ≤ ·) Twin

theorem Mirrors.unpaired (h : Mirrors ρ s t) :
    (∀ j, ¬ ρ.cells s.cells.size j) ∧ ∀ i, ¬ ρ.cells i t.cells.size :=
  ⟨fun _ hi => Nat.lt_irrefl _ (h.below hi).1, fun _ hi => Nat.lt_irrefl _ (h.below hi).2⟩

/-- The renumbering that pairs the next cells of two stores as well. -/
abbrev Mirrors.next (h : Mirrors ρ s t) : Renumbering :=
  ρ.withCell s.cells.size t.cells.size h.unpaired.1 h.unpaired.2

theorem Acyclic.extended (acyclic : s.Acyclic) (kind : Kind) (arity : Nat) :
    (s.extended kind arity).Acyclic :=
  acyclic.imp fun _ hrank i j ⟨x, hx, hj⟩ => hrank i j ⟨x, solution?_extended kind arity i ▸ hx, hj⟩

theorem Twin.extended (h : Twin ρ s t) {k k' : Kind} (hk : k.Twin ρ k') (m n : Nat) :
    Twin h.next (s.extended k m) (t.extended k' n) where
  kinds := h.kinds.mono (ρ.le_withCell _ _) fun _ _ hv => hv
  cells {i j} hi := by
    rw [cell_extended, cell_extended]
    rcases hi with hi | ⟨rfl, rfl⟩
    · rw [if_neg (Nat.ne_of_lt (h.below hi).1), if_neg (Nat.ne_of_lt (h.below hi).2)]
      exact (h.cells hi).mono (ρ.le_withCell _ _)
    · rw [if_pos rfl, if_pos rfl]
      exact ⟨hk.mono (ρ.le_withCell _ _), .none⟩
  below {i j} hi := by
    have hsize : ∀ (s : Store) k n, (s.extended k n).cells.size = s.cells.size + 1 :=
      fun _ _ _ => Array.size_push _
    rw [hsize, hsize]
    rcases hi with hi | ⟨rfl, rfl⟩
    · exact ⟨Nat.lt_succ_of_lt (h.below hi).1, Nat.lt_succ_of_lt (h.below hi).2⟩
    · exact ⟨Nat.lt_succ_self _, Nat.lt_succ_self _⟩
  left := h.left.extended k m
  right := h.right.extended k' n

theorem freshWithSpine_lockstep {k k' : Kind} (hk : k.Twin ρ k') {spine spine' : List Con}
    (hspine : List.Forall₂ (Con.Twin ρ) spine spine') :
    extending.Rel ρ Con.Twin (liftM (freshWithSpine k spine)) (liftM (freshWithSpine k' spine')) :=
  fun _ _ hst => .some ⟨hst.next, ρ.le_withCell _ _,
    .mvar (.inr ⟨rfl, rfl⟩) (hspine.imp fun _ _ h => h.mono (ρ.le_withCell _ _)),
    hst.extended hk spine.length spine'.length⟩

theorem fresh_lockstep {k k' : Kind} (hk : k.Twin ρ k') (depth : Nat) :
    extending.Rel ρ Con.Twin (liftM (fresh k depth)) (liftM (fresh k' depth)) := by
  refine freshWithSpine_lockstep hk (List.forall₂_same.mpr fun c hc => ?_)
  obtain ⟨i, -, rfl⟩ := List.mem_map.mp hc
  exact .bvar i

theorem freshKind_lockstep (predicate : KindPredicate) :
    extending.Rel ρ Kind.Twin (liftM (onKinds (KindStore.fresh predicate)))
      (liftM (onKinds (KindStore.fresh predicate))) := by
  refine fun s t hst => .some ⟨hst.kinds.next, ρ.le_withKind _ _, .mvar (.inr ⟨rfl, rfl⟩), ?_⟩
  exact
  { kinds := hst.kinds.extend predicate
    cells := fun hi => (hst.cells hi).mono (ρ.le_withKind _ _)
    below := hst.below
    left := hst.left
    right := hst.right }

end Store

end RowML
