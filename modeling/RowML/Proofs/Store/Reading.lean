import RowML.Proofs.Store.Substitution
import RowML.Store.Zonk

/-!
# Reading solutions is sound

Following solved metavariables, at the head or everywhere, gives a constructor that is the same up
to solutions.  Both shorten chains of solutions on the way; every cell keeps its meaning, and no
cell becomes solved.
-/

namespace RowML

namespace Store

variable {layout : Layout} {store store' : Store}

/-- The second store differs from the first one in what it has found out about solutions. -/
structure Reads (store store' : Store) : Prop extends store.Grows store' where
  cells : store'.cells.size = store.cells.size
  solved : ∀ i, store'.isSolved i = store.isSolved i

theorem Reads.refl (store : Store) : Reads store store :=
  ⟨.refl store, rfl, fun _ => rfl⟩

theorem Reads.trans {store'' : Store} (h : Reads store store') (h' : Reads store' store'') :
    Reads store store'' :=
  ⟨h.toGrows.trans h'.toGrows, h'.cells.trans h.cells, fun i => (h'.solved i).trans (h.solved i)⟩

/-- The discipline of computations that solve nothing. -/
def reading (layout : Layout) : Discipline Store where
  Ok := WellFormed layout
  Grows := Reads
  refl store _ := Reads.refl store
  trans _ _ _ := Reads.trans

end Store

/-- A computation that solves nothing keeps to the general discipline. -/
theorem Yields.of_reading {m : Type → Type} [Monad m] [Executes m Store] {α : Type}
    {layout : Layout} {store : Store} {x : m α} {Post : α → Store → Prop}
    (h : Yields (Store.reading layout) store x Post) :
    Yields (Store.discipline layout) store x fun a store' =>
      store.Reads store' ∧ Post a store' := by
  intro r store' hexec
  obtain ⟨ok, reads, post⟩ := h r store' hexec
  exact ⟨ok, reads.toGrows, fun a ha => ⟨reads, post a ha⟩⟩

namespace Store

variable {layout : Layout} {store store' : Store}

/-! ## Kinds inside a store -/

theorem Reads.withKinds {kinds : KindStore} (h : store.kinds.Grows kinds) :
    Reads store (store.withKinds kinds) := by
  refine ⟨⟨h, Nat.le_refl _, fun _ _ => rfl, fun _ {a b} hab => ?_⟩, rfl, fun _ => rfl⟩
  cases hab with
  | intro hsolution hlength => exact .step (.intro hsolution hlength)

theorem WellFormed.withKinds (ok : store.WellFormed layout) {kinds : KindStore}
    (ok' : kinds.WellFormed) (h : store.kinds.Grows kinds) :
    (store.withKinds kinds).WellFormed layout where
  kinds := ok'
  cellKinds i hi := (ok.cellKinds i hi).mono h.size
  solutions hi := (ok.solutions hi).mono (Reads.withKinds h).toGrows
  bounds := ok.bounds
  acyclic := ok.acyclic

theorem onKinds_yields {α : Type} {x : KindM α} {Post : α → KindStore → Prop}
    (ok : store.WellFormed layout) (hx : Yields KindStore.discipline store.kinds x Post) :
    Yields (reading layout) store (onKinds x) fun a store' =>
      store' = store.withKinds store'.kinds ∧ Post a store'.kinds := by
  obtain ⟨ok', grows, post⟩ := hx _ _ rfl
  exact Yields.of_exec rfl (ok.withKinds ok' grows) (Reads.withKinds grows) ⟨rfl, post _ rfl⟩

/-! ## Instantiation -/

/-- Sameness is closed under instantiation. -/
theorem Same.instantiatedAt (ok : store.WellFormed layout) {a b : Con} (h : store.Same a b)
    (spine : List Con) (d : Depth) :
    store.Same (a.instantiatedAt spine d) (b.instantiatedAt spine d) := by
  refine Con.Congr.instantiatedAt (fun {a b d} hab => ?_) h d
  cases hab with
  | @intro id solution spine' hsolution hlength =>
    have hbound := ok.bounds hsolution
    rw [Con.instantiatedAt_instantiated (hlength ▸ hbound)]
    have hmvar : (Con.mvar id spine').instantiatedAt spine d =
        .mvar id (spine'.map (Con.instantiatedAt spine d)) := Con.traverse_mvar id spine'
    rw [hmvar]
    exact .step (.intro hsolution (by simpa using hlength))

/-- Constructors that are alike up to the kinds they read are the same. -/
theorem Same.of_alike {a b : Con} (hclosed : store.kinds.Closed)
    (h : Con.Alike store.kinds.Reads a b) : store.Same a b :=
  Con.Congr.of_alike (h.mono fun _ _ hk => hk.conv hclosed)

/-! ## Setting one solution -/

/-- The store after `setSolution`. -/
def put (store : Store) (id : MetaId) (solution : Con) : Store :=
  ((setSolution id (some solution)).run store).2

theorem exec_setSolution (store : Store) (id : MetaId) (solution : Con) :
    exec (setSolution id (some solution)) store = some (some (), store.put id solution) :=
  rfl

@[simp] theorem kinds_put (id : MetaId) (solution : Con) :
    (store.put id solution).kinds = store.kinds :=
  rfl

@[simp] theorem size_put (id : MetaId) (solution : Con) :
    (store.put id solution).cells.size = store.cells.size :=
  Array.size_modify

theorem cell_put {id : MetaId} (hid : id < store.cells.size) (solution : Con) (i : MetaId) :
    (store.put id solution).cell i =
      if i = id then { store.cell id with solution := some solution } else store.cell i := by
  change ((store.cells.modify id _)[i]?).getD _ = _
  rw [Array.getElem?_modify]
  by_cases h : id = i
  · subst h
    simp [cell, hid]
  · rw [if_neg h, if_neg (Ne.symm h)]
    rfl

theorem solution?_put {id : MetaId} (hid : id < store.cells.size) (solution : Con) (i : MetaId) :
    (store.put id solution).solution? i = if i = id then some solution else store.solution? i := by
  unfold solution?
  rw [cell_put hid]
  split <;> rfl

theorem cell_put_of_ne {id i : MetaId} (h : i ≠ id) (solution : Con) :
    (store.put id solution).cell i = store.cell i := by
  change ((store.cells.modify id _)[i]?).getD _ = _
  rw [Array.getElem?_modify, if_neg (Ne.symm h)]
  rfl

theorem solution?_put_of_ne {id i : MetaId} (h : i ≠ id) (solution : Con) :
    (store.put id solution).solution? i = store.solution? i :=
  congrArg Cell.solution (cell_put_of_ne h solution)

theorem arity_put {id : MetaId} (hid : id < store.cells.size) (solution : Con) (i : MetaId) :
    ((store.put id solution).cell i).arity = (store.cell i).arity := by
  rw [cell_put hid]
  split
  next h => rw [h]
  next => rfl

theorem kind_put {id : MetaId} (hid : id < store.cells.size) (solution : Con) (i : MetaId) :
    ((store.put id solution).cell i).kind = (store.cell i).kind := by
  rw [cell_put hid]
  split
  next h => rw [h]
  next => rfl

theorem sound_put {id : MetaId} (hid : id < store.cells.size) {solution c : Con} :
    c.Sound layout store → c.Sound layout (store.put id solution) := fun h =>
  h.extend (Nat.le_refl _) (Nat.le_of_eq (size_put _ _).symm) fun i _ => arity_put hid solution i

theorem WellFormed.put (ok : store.WellFormed layout) {id : MetaId} (hid : id < store.cells.size)
    {solution : Con} (hsound : solution.Sound layout store)
    (hbound : solution.bound ≤ (store.cell id).arity)
    (acyclic : ∃ rank, Ranks (store.put id solution).Leads rank) :
    (store.put id solution).WellFormed layout where
  kinds := ok.kinds
  cellKinds i hi := by
    rw [kind_put hid]
    exact ok.cellKinds i (by simpa using hi)
  solutions := by
    intro i x hi
    rw [solution?_put hid] at hi
    split at hi
    · cases hi
      exact sound_put hid hsound
    · exact sound_put hid (ok.solutions hi)
  bounds := by
    intro i x hi
    rw [arity_put hid]
    rw [solution?_put hid] at hi
    split at hi
    next h =>
      cases hi
      exact h ▸ hbound
    next => exact ok.bounds hi
  acyclic := acyclic

/-- A new solution that is the same as the old one, if there was one. -/
theorem grows_put {id : MetaId} (hid : id < store.cells.size) {solution : Con}
    (ok' : (store.put id solution).WellFormed layout)
    (hold : store.kinds.Closed → ∀ x, store.solution? id = some x →
      (store.put id solution).Same solution x) :
    store.Grows (store.put id solution) := by
  refine ⟨.refl _, Nat.le_of_eq (size_put _ _).symm, fun i _ => arity_put hid solution i,
    fun hclosed {a b} hab => ?_⟩
  cases hab with
  | @intro i x spine hx hlength =>
    by_cases h : i = id
    · subst h
      have hnew : (store.put i solution).solution? i = some solution := by
        rw [solution?_put hid, if_pos rfl]
      have hlength' : spine.length = ((store.put i solution).cell i).arity := by
        rw [arity_put hid, hlength]
      refine (Con.Congr.step (.intro hnew hlength')).trans ?_
      exact Same.instantiatedAt ok' (hold hclosed x hx) spine Depth.zero
    · refine .step (.intro ?_ ?_)
      · rw [solution?_put hid, if_neg h, hx]
      · rw [arity_put hid, hlength]

/-! ## Following solutions -/

/-- What following the solutions from `c` has done to the store, given the answer `r`. -/
structure Followed (layout : Layout) (store : Store) (fuel : Nat) (c r : Con) (store' : Store) :
    Prop where
  sound : r.Sound layout store'
  bound : ∀ {n}, c.bound ≤ n → r.bound ≤ n
  answer : r = c ∨ ∃ i spine x, c = .mvar i spine ∧ store'.solution? i = some x ∧
    Con.Alike store'.kinds.Reads (x.instantiated spine) r
  ranks : ∀ {rank}, Ranks store.Leads rank → Ranks store'.Leads rank
  above : ∀ {rank}, Ranks store.Leads rank → ∀ u, (∀ i spine, c = .mvar i spine → rank i < rank u) →
    store'.solution? u = store.solution? u
  mentions : ∀ {rank}, Ranks store.Leads rank → ∀ {j}, r.Mentions j →
    c.Mentions j ∨ ∃ i spine, c = .mvar i spine ∧ rank j < rank i
  unsolved : 0 < fuel → ∀ {i spine}, c = .mvar i spine → r = c → store.isSolved i = false

private theorem Followed.self {fuel : Nat} {c : Con} (hc : c.Sound layout store)
    (unsolved : 0 < fuel → ∀ {i spine}, c = .mvar i spine → store.isSolved i = false) :
    Followed layout store fuel c c store where
  sound := hc
  bound h := h
  answer := .inl rfl
  ranks h := h
  above _ _ _ := rfl
  mentions _ _ h := .inl h
  unsolved hfuel _ _ hi _ := unsolved hfuel hi

/-- The store after the cell `i` has been linked to the end of the chain that starts with its
solution. -/
private structure Relinked (layout : Layout) (store store' : Store) (i : MetaId) (final : Con)
    (store'' : Store) : Prop where
  ok : store''.WellFormed layout
  reads : store'.Reads store''
  solution : store''.solution? i = some final
  others : ∀ u, u ≠ i → store''.solution? u = store'.solution? u
  ranks : ∀ {rank}, Ranks store.Leads rank → Ranks store''.Leads rank

private theorem Followed.relinked {fuel : Nat} {i : MetaId} {target final : Con}
    (followed : Followed layout store fuel target final store') (ok : store.WellFormed layout)
    (ok' : store'.WellFormed layout) (reads : store.Reads store')
    (hi : store.solution? i = some target) :
    Relinked layout store store' i final
      (if final ≠ target then store'.put i final else store') := by
  obtain ⟨rank, hrank⟩ := ok.acyclic
  have below : ∀ {rank}, Ranks store.Leads rank → ∀ j, target.Mentions j → rank j < rank i :=
    fun hrank j hj => hrank i j ⟨target, hi, hj⟩
  have hi' : store'.solution? i = some target :=
    (followed.above hrank i fun j spine hj => below hrank j (hj ▸ .here spine)).trans hi
  have hlt := lt_of_solution hi'
  by_cases hfinal : final = target
  · rw [if_neg (by simpa using hfinal)]
    exact ⟨ok', .refl store', hfinal ▸ hi', fun _ _ => rfl, followed.ranks⟩
  · rw [if_pos hfinal]
    have ranks : ∀ {rank}, Ranks store.Leads rank → Ranks (store'.put i final).Leads rank := by
      rintro rank hrank u w ⟨x, hx, hw⟩
      rw [solution?_put hlt] at hx
      split at hx
      next h =>
        cases hx
        subst h
        rcases followed.mentions hrank hw with hw | ⟨j, spine, hj, hwj⟩
        · exact below hrank w hw
        · exact Nat.lt_trans hwj (below hrank j (hj ▸ .here spine))
      next => exact followed.ranks hrank u w ⟨x, hx, hw⟩
    have harity : (store'.cell i).arity = (store.cell i).arity :=
      reads.arity i (lt_of_solution hi)
    have ok'' : (store'.put i final).WellFormed layout :=
      ok'.put hlt followed.sound (harity ▸ followed.bound (ok.bounds hi)) ⟨rank, ranks hrank⟩
    have hothers : ∀ u, u ≠ i → (store'.put i final).solution? u = store'.solution? u := by
      intro u hu
      rw [solution?_put hlt, if_neg hu]
    refine ⟨ok'', ⟨grows_put hlt ok'' fun hclosed x hx => ?_, size_put _ _, fun u => ?_⟩,
      by rw [solution?_put hlt, if_pos rfl], hothers, ranks⟩
    · -- the old solution is a solved metavariable other than `i`, whose solution the store keeps
      rw [hi'] at hx
      cases hx
      rcases followed.answer with h | ⟨j, spine, y, rfl, hj, halike⟩
      · exact absurd h hfinal
      · have hne : j ≠ i := by
          rintro rfl
          exact absurd (below hrank j (.here spine)) (Nat.lt_irrefl _)
        have hlength : spine.length = ((store'.put i final).cell j).arity := by
          rw [arity_put hlt]
          exact ((ok'.solutions hi').top.mvar rfl).2
        have hstep : (store'.put i final).Same (.mvar j spine) (y.instantiated spine) :=
          .step (.intro ((hothers j hne).trans hj) hlength)
        exact (hstep.trans (Same.of_alike hclosed halike)).symm
    · simp only [isSolved, solution?_put hlt]
      split
      next h => simp [h, hi']
      next => rfl

private theorem Followed.instantiate {fuel : Nat} {i : MetaId} {spine : List Con}
    {target final : Con} {store'' : Store}
    (followed : Followed layout store fuel target final store') (ok : store.WellFormed layout)
    (reads : store.Reads store') (hi : store.solution? i = some target)
    (hc : (Con.mvar i spine).Sound layout store)
    (relinked : Relinked layout store store' i final store'') :
    Yields (reading layout) store'' (onKinds (final.instantiate spine)) fun r store₃ =>
      Followed layout store (fuel + 1) (.mvar i spine) r store₃ := by
  have hspine : ∀ a ∈ spine, a.Sound layout store'' := fun a ha =>
    (hc.part ha).mono (reads.trans relinked.reads).toGrows
  have hfinal : final.Sound layout store'' := relinked.ok.solutions relinked.solution
  have hrun := Con.instantiate_yields relinked.ok.kinds hfinal hspine
  refine (onKinds_yields relinked.ok hrun).mono fun r store₃ ok₃ reads₃ h => ?_
  obtain ⟨hstore, halike⟩ := h
  have hsolution : ∀ u, store₃.solution? u = store''.solution? u := by
    intro u
    rw [hstore]
    rfl
  have hlength : spine.length = (store.cell i).arity := (hc.top.mvar rfl).2
  have harity : (store''.cell i).arity = spine.length := by
    rw [(reads.trans relinked.reads).arity i (lt_of_solution hi), hlength]
  have hbound : final.bound ≤ spine.length := harity ▸ relinked.ok.bounds relinked.solution
  have hinstantiated : (final.instantiated spine).Sound layout store₃ :=
    (hfinal.instantiated hspine).mono reads₃.toGrows
  have hranks : ∀ {rank}, Ranks store.Leads rank → Ranks store₃.Leads rank := by
    rintro rank hrank u w ⟨x, hx, hw⟩
    exact relinked.ranks hrank u w ⟨x, hsolution u ▸ hx, hw⟩
  have hbelow : ∀ {rank}, Ranks store.Leads rank → ∀ {j}, final.Mentions j → rank j < rank i :=
    fun hrank j hj => relinked.ranks hrank i j ⟨final, relinked.solution, hj⟩
  refine ⟨hinstantiated.of_alike halike fun _ _ hk => hk.sound, fun {n} hn => ?_, ?_, hranks,
    fun {rank} hrank u hu => ?_, fun {rank} hrank j hj => ?_, fun _ j spine' hj hr => ?_⟩
  · rw [halike.bound_le_iff]
    rw [Con.bound_le_iff_parts] at hn
    exact Con.bound_instantiated hbound fun a ha => hn.2 a ha
  · exact .inr ⟨i, spine, final, rfl, (hsolution i).trans relinked.solution, halike⟩
  · have hlt := hu i spine rfl
    have hne : u ≠ i := by
      rintro rfl
      omega
    rw [hsolution, relinked.others u hne]
    refine followed.above hrank u fun j spine hj => Nat.lt_trans ?_ hlt
    exact hrank i j ⟨target, hi, hj ▸ .here spine⟩
  · rw [halike.mentions_iff] at hj
    rcases Con.mentions_instantiated hj with hj | ⟨a, ha, hj⟩
    · exact .inr ⟨i, spine, rfl, hbelow hrank hj⟩
    · exact .inl (.part ha hj)
  · -- a solved metavariable is never its own answer
    exfalso
    cases hj
    subst hr
    obtain ⟨rank, hrank⟩ := ok.acyclic
    by_cases hbvar : ∃ b, final = .bvar b
    · obtain ⟨b, rfl⟩ := hbvar
      change Con.Alike _ (Con.spineVar spine Depth.zero b) _ at halike
      rcases hget : spine.reverse[b]? with _ | a
      · rw [Con.spineVar_of_none (Nat.zero_le b) hget] at halike
        cases halike.leaf rfl rfl
      · rw [Con.spineVar_of_some (Nat.zero_le b) hget, Con.weakened_zero] at halike
        exact halike.not_mem_parts (List.mem_reverse.mp (List.mem_of_getElem? hget))
    · have hbvar : ∀ b, final ≠ .bvar b := fun b hb => hbvar ⟨b, hb⟩
      have hframe : (final.instantiated spine).frame = final.frame := Con.frame_traverse hbvar
      have hmvar := Con.eq_mvar_of_frame (halike.frame_eq.symm.trans hframe)
      have := hbelow hrank (hmvar ▸ Con.Mentions.here _)
      omega

theorem resolveWithin_yields (fuel : Nat) {c : Con} {store : Store} (ok : store.WellFormed layout)
    (hc : c.Sound layout store) :
    Yields (reading layout) store (resolveWithin fuel c) fun r store' =>
      Followed layout store fuel c r store' := by
  induction fuel generalizing c store with
  | zero =>
    have hrun : resolveWithin 0 c = pure c := by cases c <;> rfl
    rw [hrun]
    exact Yields.pure ok (.self hc (by simp))
  | succ fuel ih =>
    by_cases hmvar : ∃ i spine, c = .mvar i spine
    · obtain ⟨i, spine, rfl⟩ := hmvar
      refine Yields.read (rfl : exec get store = some (some store, store)) ok ?_
      cases hi : store.solution? i with
      | none =>
        simp only
        refine Yields.pure ok (.self hc fun _ {u spine} hu => ?_)
        cases hu
        simp [isSolved, hi]
      | some target =>
        simp only
        refine Yields.bind ok (ih ok (ok.solutions hi)) fun final store' ok' reads followed => ?_
        have relinked := followed.relinked ok ok' reads hi
        split
        next h =>
          rw [if_pos h] at relinked
          refine Yields.next (exec_setSolution store' i final) ok' relinked.ok relinked.reads ?_
          exact followed.instantiate ok reads hi hc relinked
        next h =>
          rw [if_neg h] at relinked
          exact followed.instantiate ok reads hi hc relinked
    · have hrun : resolveWithin (fuel + 1) c = pure c := by
        cases c <;> first | rfl | exact absurd ⟨_, _, rfl⟩ hmvar
      rw [hrun]
      exact Yields.pure ok (.self hc fun _ {i spine} hi => absurd ⟨i, spine, hi⟩ hmvar)

/-- What `resolve` answers. -/
structure Resolved (layout : Layout) (store : Store) (c r : Con) (store' : Store) : Prop where
  sound : r.Sound layout store'
  same : store'.kinds.Closed → store'.Same c r
  bound : ∀ {n}, c.bound ≤ n → r.bound ≤ n
  unsolved : ∀ {i spine}, c = .mvar i spine → r = c → store.isSolved i = false
  other : (∀ i spine, c ≠ .mvar i spine) → r = c

theorem resolve_yields {c : Con} (ok : store.WellFormed layout) (hc : c.Sound layout store) :
    Yields (reading layout) store (resolve c) fun r store' =>
      Resolved layout store c r store' := by
  refine Yields.read (rfl : exec get store = some (some store, store)) ok ?_
  refine (resolveWithin_yields _ ok hc).mono fun r store' ok' reads followed => ?_
  refine ⟨followed.sound, fun hclosed => ?_, followed.bound, fun {i spine} hi hr => ?_,
    fun hne => ?_⟩
  · rcases followed.answer with rfl | ⟨i, spine, x, rfl, hx, halike⟩
    · exact .refl _
    · have hlength : spine.length = (store'.cell i).arity :=
        ((hc.mono reads.toGrows).top.mvar rfl).2
      exact (Con.Congr.step (.intro hx hlength)).trans (Same.of_alike hclosed halike)
  · subst hi
    have hlt := (hc.top.mvar rfl).1
    exact followed.unsolved (Nat.lt_of_le_of_lt (Nat.zero_le _) hlt) rfl hr
  · rcases followed.answer with h | ⟨i, spine, x, hi, -⟩
    · exact h
    · exact absurd hi (hne i spine)

/-! ## Zonking -/

/-- What `zonk` answers. -/
structure Zonked (layout : Layout) (store : Store) (c c' : Con) : Prop where
  sound : c'.Sound layout store
  same : store.kinds.Closed → store.Same c c'
  label : Con.KeepsLabel c c'
  unsolved : ∀ {i}, c'.Mentions i → store.isSolved i = false

theorem Zonked.grows {c c' : Con} (h : Zonked layout store c c') (reads : store.Reads store') :
    Zonked layout store' c c' where
  sound := h.sound.mono reads.toGrows
  same hclosed := reads.lift hclosed (h.same (reads.kinds.closed hclosed))
  label := h.label
  unsolved hi := (reads.solved _).trans (h.unsolved hi)

/-- The specification of zonking, node by node. -/
private def zonking (layout : Layout) : Con.PassSpec Store where
  Pre s _ c := c.Sound layout s
  KindPre s _ k := k.Sound s.kinds.vars.size
  Enters s _ c := ∀ i spine, c = .mvar i spine → s.isSolved i = false
  Post s _ c c' := Zonked layout s c c'
  KindPost s _ k k' := s.kinds.Reads k k'

private theorem zonked_of_related {d : Depth} {c c' : Con} (hc : c.Sound layout store)
    (henters : ∀ i spine, c = .mvar i spine → store.isSolved i = false)
    (related : (zonking layout).Related store d c c') : Zonked layout store c c' where
  sound := by
    refine .intro (hc.top.of_frame related.frame ?_ ?_) ?_
    · exact Con.forall_mem_of_forall₂ related.annotations fun _ _ _ hk => hk.sound
    · exact related.parts.imp fun _ _ hp => hp.label
    · exact Con.forall_mem_of_forall₂ related.parts fun _ _ _ hp => hp.sound
  same hclosed := .of_forall₂ related.frame (related.annotations.imp fun _ _ hk => hk.conv hclosed)
    (related.parts.imp fun _ _ hp => hp.same hclosed)
  label := .of_frame related.frame
  unsolved := by
    intro i hi
    rcases Con.mentions_iff.mp hi with ⟨spine, rfl⟩ | ⟨p, hp, hmentions⟩
    · exact henters i _ (Con.eq_mvar_of_frame related.frame.symm)
    · exact Con.forall_mem_of_forall₂ related.parts
        (Q := fun p => p.Mentions i → store.isSolved i = false) (fun _ _ _ hp => hp.unsolved) p hp
        hmentions

theorem zonk_yields (fuel : Nat) {c : Con} (ok : store.WellFormed layout)
    (hc : c.Sound layout store) :
    Yields (reading layout) store (zonk fuel c) fun c' store' => Zonked layout store' c c' := by
  induction fuel generalizing c store with
  | zero => exact Yields.of_none rfl
  | succ fuel ih =>
    refine Con.Pass.rebuildM_yields (S := zonking layout) ?_ c ok hc
    exact
    { pre_grows := fun _ reads h => h.mono reads.toGrows
      kindPre_grows := fun _ reads h => h.mono reads.kinds.size
      enters_grows := fun _ reads h i spine hi => (reads.solved i).trans (h i spine hi)
      post_grows := fun _ reads h => h.grows reads
      kindPost_grows := fun _ reads h => h.grows reads.kinds
      pre_part := fun h hp => h.part hp
      pre_kind := fun h hk => h.kind hk
      node_yields := by
        intro store d c ok hc
        split
        next h =>
          simp only [Bool.not_eq_true', Bool.or_eq_false_iff] at h
          exact Yields.pure ok ⟨hc, fun _ => .refl c, fun _ h => h,
            fun hi => absurd hi (Con.not_mentions_of_has h.1)⟩
        next =>
          split
          next i spine =>
            refine Yields.bind ok (.of_exec_eq rfl (resolve_yields ok hc)) ?_
            intro r store' ok' reads resolved
            split
            next hr =>
              refine Yields.map ok' ((ih ok' resolved.sound).mono fun c' store'' _ reads' h => ?_)
              refine ⟨h.sound, fun hclosed => ?_, by rintro x ⟨⟩, h.unsolved⟩
              exact (reads'.lift hclosed (resolved.same (reads'.kinds.closed hclosed))).trans
                (h.same hclosed)
            next hr =>
              refine Yields.pure ok' fun j spine' hj => ?_
              rw [reads.solved]
              exact resolved.unsolved hj (by simpa using hr)
          next hne => exact Yields.pure ok fun i spine hi => absurd hi (hne i spine)
      kind_yields := by
        intro store d k ok hk
        have hzonk := onKinds_yields ok (KindStore.zonk_yields ok.kinds hk)
        refine (Yields.of_exec_eq rfl hzonk).mono ?_
        exact fun k' store' _ _ h => h.2
      close := fun _ pre enters related => zonked_of_related pre enters related }

end Store

end RowML
