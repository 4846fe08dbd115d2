import RowML.Proofs.Normal.Repetition
import RowML.Proofs.Store.Links

/-!
# Reading solutions in any order

Reading the head of a constructor links the cells that it passes to the end of the chain, in the
context of each cell, and instantiates that end at the spine of the occurrence.  Every other
constructor that is read afterwards is read through the new links.  What is left of it once all its
nodes have been followed is the same: a new link leads past links that were there before.
-/

namespace RowML

open RowML.Con

namespace Store

variable {store store' : Store} {base : KindStore} {θ : MetaId → Option Con} {c e r : Con}
  {i : MetaId} {spine : List Con}

/-! ## Stores with the same ends -/

/-- What the cells stand for, with annotations spelled out. -/
def links (base : KindStore) (store : Store) (i : MetaId) : Option Con :=
  (store.solution? i).map (expandKinds base)

theorem links_eq {target : Con} (h : store.solution? i = some target) :
    store.links base i = some (target.expandKinds base) :=
  congrArg (Option.map _) h

theorem links_put (hlt : i < store.cells.size) (solution : Con) :
    (store.put i solution).links base =
      Function.update (store.links base) i (some (solution.expandKinds base)) := by
  funext j
  rw [links, solution?_put_eq_update hlt]
  by_cases hj : j = i
  · rw [hj, Function.update_self, Function.update_self, Option.map_some]
  · rw [Function.update_of_ne hj, Function.update_of_ne hj, links]

/-- The store is in order, and following its links ends where following `θ` does. -/
structure Settling (base : KindStore) (θ : MetaId → Option Con) (store : Store) : Prop where
  steady : store.Steady
  chains : base.SameChains store.kinds
  solved : ∀ i, θ i = none ↔ store.isSolved i = false
  ends : ∀ {c e}, EndsAt (store.links base) c e ↔ EndsAt θ c e

/-- The discipline of computations that only read solutions. -/
def settling (base : KindStore) (θ : MetaId → Option Con) : Discipline Store where
  Ok := Settling base θ
  Grows := Compresses
  refl store _ := Compresses.refl store
  trans _ _ _ := Compresses.trans

theorem Settling.withKinds (ok : Settling base θ store) {kinds : KindStore}
    (h : base.SameChains kinds) : Settling base θ (store.withKinds kinds) where
  steady := (sameCells_withKinds store kinds).steady ok.steady
  chains := h
  solved := ok.solved
  ends := ok.ends

/-- The second constructor is the first one, or what the cell at the head of the first one stands
for. -/
inductive Answers (base : KindStore) (store : Store) : Con → Con → Prop
  | itself (c : Con) : Answers base store c c
  | solution {i : MetaId} {spine : List Con} {target r : Con}
      (hi : store.solution? i = some target)
      (hr : r.expandKinds base =
        (target.expandKinds base).instantiated (spine.map (expandKinds base))) :
      Answers base store (.mvar i spine) r

theorem Answers.endsAt_iff (h : Answers base store c r) (ok : Settling base θ store) :
    EndsAt θ (r.expandKinds base) e ↔ EndsAt θ (c.expandKinds base) e := by
  cases h with
  | itself => rfl
  | solution hi hr => rw [← ok.ends, ← ok.ends, expandKinds_mvar, EndsAt.mvar_iff (links_eq hi), hr]

/-- A cell may be linked to what the cell at the head of its solution stands for. -/
theorem endsAt_put {target final : Con} (ok : Settling base θ store)
    (hi : store.solution? i = some target) (hanswer : Answers base store target final)
    (hne : ∀ w spine, target = .mvar w spine → w ≠ i) :
    EndsAt ((store.put i final).links base) c e ↔ EndsAt θ c e := by
  rw [links_put (lt_of_solution hi), ← ok.ends]
  cases hanswer with
  | itself => rw [← links_eq hi, Function.update_eq_self]
  | @solution w arguments target _ hw hr =>
    have hlength := (ok.steady.fits hi).top w arguments rfl
    have hbound := ok.steady.bounds hw
    rw [hr]
    refine EndsAt.update_iff ?_ (links_eq hw) (hne w arguments rfl) ?_
    · rw [links_eq hi, expandKinds_mvar]
    · rw [List.length_map, hlength.2]
      exact bound_expandKinds hbound

/-- What a reader leaves of the cell from which it has followed a chain. -/
private theorem linked {target final : Con} (ok : Settling base θ store)
    (hi : store.solution? i = some target) (hanswer : Answers base store target final)
    (hne : ∀ w spine, target = .mvar w spine → w ≠ i) :
    (if final ≠ target then store.put i final else store).solution? i = some final ∧
      (if final ≠ target then store.put i final else store).kinds = store.kinds ∧
      ∀ {c e}, EndsAt ((if final ≠ target then store.put i final else store).links base) c e ↔
        EndsAt θ c e := by
  split
  next =>
    refine ⟨?_, rfl, endsAt_put ok hi hanswer hne⟩
    rw [solution?_put (lt_of_solution hi), if_pos rfl]
  next h => exact ⟨hi.trans (congrArg some (not_not.mp h).symm), rfl, ok.ends⟩

/-! ## Readers -/

theorem headUnsolved_iff_stays : store.HeadUnsolved c ↔ c.Stays store.solution? := by
  simp [HeadUnsolved, Stays, isSolved]

section Readers

variable (hclosed : base.Closed)
include hclosed

/-- Following a chain. -/
theorem resolveWithin_answers (fuel : Nat) (ok : Settling base θ store) (hc : c.Fits store) :
    Settling base θ ((resolveWithin fuel c).run store).2 ∧
      Answers base ((resolveWithin fuel c).run store).2 c ((resolveWithin fuel c).run store).1 := by
  induction fuel generalizing c store with
  | zero =>
    have hrun : resolveWithin 0 c = pure c := by cases c <;> rfl
    rw [hrun]
    exact ⟨ok, .itself c⟩
  | succ fuel ih =>
    rcases solved_or_stays store.solution? c with ⟨i, spine, target, rfl, hi⟩ | hstays
    · have chased' := chased_resolveWithin (fuel + 1) ok.steady hc
      have chased := chased_resolveWithin fuel ok.steady (ok.steady.fits hi)
      obtain ⟨ok', hanswer⟩ := ih ok (ok.steady.fits hi)
      rw [resolveWithin_solved fuel spine hi] at chased' ⊢
      generalize (resolveWithin fuel target).run store = next at *
      obtain ⟨final, next⟩ := next
      -- the cell still has its old solution when it is linked to the end of the chain
      obtain ⟨rank, hrank⟩ := ok.steady.acyclic
      have hbelow : ∀ w arguments, target = .mvar w arguments → rank w < rank i :=
        fun w arguments hw => hrank i w ⟨target, hi, hw ▸ .here arguments⟩
      have hi' : next.solution? i = some target := (chased.above hrank i hbelow).trans hi
      have hne : ∀ w arguments, target = .mvar w arguments → w ≠ i := by
        rintro w arguments hw rfl
        exact Nat.lt_irrefl _ (hbelow w arguments hw)
      obtain ⟨hsolution, hkinds, hends⟩ := linked ok' hi' hanswer hne
      obtain ⟨hchains, hexpand⟩ := expandKinds_instantiate (hkinds ▸ ok'.chains) hclosed final spine
      refine ⟨⟨chased'.ok, hchains, fun j => ?_, hends⟩, .solution hsolution hexpand⟩
      exact (ok.solved j).trans (by rw [chased'.compresses.solved])
    · rw [resolveWithin_unsolved (headUnsolved_iff_stays.mpr hstays)]
      exact ⟨ok, .itself c⟩

/-- The specification of zonking. -/
private def following (base : KindStore) (θ : MetaId → Option Con) : Con.PassSpec Store where
  Pre s _ c := c.Fits s
  KindPre _ _ _ := True
  Enters _ _ c := c.Stays θ
  Post _ _ c c' := Settles θ (c.expandKinds base) c'
  KindPost _ _ k k' := k' = base.expand k

private theorem zonk_settles_yields (fuel : Nat) (ok : Settling base θ store) (hc : c.Fits store) :
    Yields (settling base θ) store (zonk fuel c) fun r _ => Settles θ (c.expandKinds base) r := by
  induction fuel generalizing c store with
  | zero => exact Yields.of_none rfl
  | succ fuel ih =>
    have hpass : Con.Pass (settling base θ) (following base θ) (zonkNode fuel) zonkKind :=
      { pre_grows := fun _ compresses h => h.evolves compresses.toEvolves
        kindPre_grows := fun _ _ h => h
        enters_grows := fun _ _ h => h
        post_grows := fun _ _ h => h
        kindPost_grows := fun _ _ h => h
        pre_part := fun h hp => h.part hp
        pre_kind := fun _ _ => trivial
        node_yields := by
          intro store d c ok hc
          have ok : Settling base θ store := ok
          unfold zonkNode
          split
          next h =>
            simp only [Bool.not_eq_true', Bool.or_eq_false_iff] at h
            refine Yields.pure ok ?_
            change Settles θ (c.expandKinds base) c
            rw [expandKinds_of_has h.2]
            exact .self fun i hi => absurd hi (not_mentions_of_has h.1)
          next =>
            split
            next i spine _ =>
              have chased := chased_resolveWithin store.cells.size ok.steady hc
              obtain ⟨ok', hanswer⟩ := resolveWithin_answers hclosed store.cells.size ok hc
              refine Yields.next rfl ok ok' chased.compresses ?_
              split
              next =>
                refine Yields.map ok' ((ih ok' chased.fits).mono fun r s _ _ hr => ?_)
                exact hr.of_endsAt (hanswer.endsAt_iff ok').mp
              next hsame =>
                refine Yields.pure ok' fun v spine' hv => (ok.solved v).mpr ?_
                have hlt := (hc.top v spine' hv).1
                exact chased.unsolved (Nat.lt_of_le_of_lt (Nat.zero_le _) hlt) hv
                  (Decidable.not_not.mp hsame)
            next hne => exact Yields.pure ok fun v spine hv => absurd hv (hne v spine)
        kind_yields := by
          intro store d k ok _
          have ok : Settling base θ store := ok
          have hfollows : KindStore.OnlyFollows (KindStore.zonk k) := fun hr =>
            KindStore.zonk_throughout hr k
          have hchains := ok.chains.trans (hfollows.again (.refl ok.chains.acyclic.2)).2
          refine Yields.of_exec rfl (ok.withKinds hchains)
            (.of_sameCells (sameCells_withKinds _ _)) ?_
          exact (hfollows.again ok.chains).1.trans (ok.chains.acyclic.1.zonk_eq k)
        close := by
          intro store d c c' ok _ hstays related
          have hstays : (c.expandKinds base).Stays θ := fun v spine hv =>
            hstays v _ (eq_mvar_of_frame ((congrArg Con.frame hv).symm.trans (frame_expandKinds c)))
          refine .of_forall₂ (.stop hstays) ((frame_expandKinds c).trans related.frame) ?_ ?_
          · rw [annotations_expandKinds]
            simpa using (map_eq_map_of_forall₂ (g := id) related.annotations).symm
          · rw [parts_expandKinds, List.forall₂_map_left_iff]
            exact related.parts }
    exact hpass.rebuildM_yields c ok hc

/-- Zonking follows every node. -/
theorem zonk_settles (ok : Settling base θ store) (hc : c.Fits store) :
    Ends (settling base θ) store (fun fuel => zonk fuel c) fun r _ =>
      Settles θ (c.expandKinds base) r := by
  obtain ⟨n, r, hrun⟩ := zonk_ends ok.steady hc
  have hends : Ends (.indifferent Store) store (fun fuel => zonk fuel c) fun _ _ => True :=
    ⟨n, r.1, r.2, fun fuel hfuel => exec_of_run (hrun fuel hfuel), trivial, trivial, trivial⟩
  exact .of_yields hends fun fuel => zonk_settles_yields hclosed fuel ok hc

end Readers

/-- The second store is what calls of `resolve` and `zonk` make of the first one. -/
inductive Rereads : Store → Store → Prop
  | refl (store : Store) : Rereads store store
  | resolve {store store' : Store} (c : Con) (hc : c.Fits store)
      (rest : Rereads ((resolve c).run store).2 store') : Rereads store store'
  | zonk {store next store' : Store} {fuel : Nat} {c r : Con} (hc : c.Fits store)
      (hrun : (zonk fuel c).run store = some (r, next)) (rest : Rereads next store') :
      Rereads store store'

namespace Rereads

theorem settling (h : Rereads store store') (hclosed : base.Closed) (ok : Settling base θ store) :
    Settling base θ store' ∧ store.Compresses store' := by
  induction h with
  | refl store => exact ⟨ok, .refl store⟩
  | @resolve store _ c hc _ ih =>
    obtain ⟨ok', compresses⟩ := ih (resolveWithin_answers hclosed store.cells.size ok hc).1
    exact ⟨ok', (chased_resolveWithin store.cells.size ok.steady hc).compresses.trans compresses⟩
  | @zonk store next _ fuel c r hc hrun _ ih =>
    obtain ⟨ok', compresses, -⟩ := zonk_settles_yields hclosed fuel ok hc _ _ (exec_of_run hrun)
    obtain ⟨ok'', compresses'⟩ := ih ok'
    exact ⟨ok'', compresses.trans compresses'⟩

theorem readAlike (h : Rereads store store') (ok : condensation.Ok store) :
    ReadAlike store store' := by
  induction h with
  | refl => exact .refl ok
  | resolve c _ _ ih =>
    have h := (resolve_reads ok c).2
    exact trans_of ReadAlike h (ih h.ok.2)
  | @zonk store next _ fuel c r _ hrun _ ih =>
    have hzonk : Repeatable ReadAlike Con (Store.zonk fuel c) :=
      zonk_throughout (P := Repeatable ReadAlike) fuel c
    have h := (hzonk (.refl ok) hrun).1
    exact trans_of ReadAlike h (ih h.ok.2)

end Rereads

/-! ## One link at a time -/

/-- Following the links at the head of the first constructor, one at a time and without rewriting
any, ends at the second one. -/
inductive Follows (store : Store) : Con → Con → Prop
  | itself {c : Con} (unsolved : store.HeadUnsolved c) : Follows store c c
  | link {i : MetaId} {spine : List Con} {target e : Con} (hi : store.solution? i = some target)
      (rest : Follows store ((target.instantiate spine).run store.kinds).1 e) :
      Follows store (.mvar i spine) e

namespace Follows

theorem unique {e' : Con} (h : store.Follows c e) (h' : store.Follows c e') : e = e' := by
  induction h with
  | itself unsolved =>
    cases h' with
    | itself => rfl
    | link hi => exact absurd unsolved (ReadsTo.not_headUnsolved hi)
  | link hi _ ih =>
    cases h' with
    | itself unsolved => exact absurd unsolved (ReadsTo.not_headUnsolved hi)
    | link hi' rest =>
      cases hi.symm.trans hi'
      exact ih rest

/-- The end exists where it does with annotations spelled out, and is the same then. -/
theorem exists_of_endsAt (hclosed : base.Closed) (ok : Settling base θ store)
    (h : EndsAt θ (c.expandKinds base) e) :
    ∃ e', store.Follows c e' ∧ e'.expandKinds base = e := by
  rw [← ok.ends] at h
  generalize hc : c.expandKinds base = c' at h
  induction h generalizing c with
  | stop stays =>
    subst hc
    refine ⟨c, .itself (headUnsolved_iff_stays.mpr fun i spine hi => ?_), rfl⟩
    rw [hi, expandKinds_mvar] at stays
    simpa [links] using stays i _ rfl
  | @link i spine target e hi _ ih =>
    have hframe := (congrArg Con.frame hc).symm.trans (frame_expandKinds c)
    obtain ⟨target, hsolution, rfl⟩ := Option.map_eq_some_iff.mp hi
    rw [eq_mvar_of_frame hframe] at hc ⊢
    rw [expandKinds_mvar] at hc
    obtain rfl := (Con.mvar.inj hc).2
    obtain ⟨e', hfollows, he⟩ := ih (expandKinds_instantiate ok.chains hclosed target c.parts).2
    exact ⟨e', .link hsolution hfollows, he⟩

end Follows

/-! ## Main result -/

theorem Settling.of_steady (ok : store.Steady) (acyclic : store.kinds.Acyclic) :
    Settling store.kinds (store.links store.kinds) store where
  steady := ok
  chains := .refl acyclic
  solved i := by simp [links, isSolved]
  ends := Iff.rfl

/-- What is left once every node has been followed is spelled out. -/
theorem annotated_of_settles (acyclic : base.Acyclic)
    (h : Settles (store.links base) (c.expandKinds base) r) : r.Annotated base.Spelled := by
  refine h.annotated Annotated.instantiated (fun hi => ?_) (annotated_expandKinds acyclic c)
  obtain ⟨target, -, rfl⟩ := Option.map_eq_some_iff.mp hi
  exact annotated_expandKinds acyclic target

/-- Where no solution is a variable, the answer of `resolve` is the end of the chain, whatever has
been read before. -/
theorem resolve_again (ok : condensation.Ok store) (h : Rereads store store') (hc : c.Fits store') :
    ((resolve c).run store').1 = ((resolve c).run store).1 ∧
      store'.HeadUnsolved ((resolve c).run store').1 := by
  have alike := h.readAlike ok
  refine ⟨?_, ?_⟩
  · have hreads := (resolve_reads alike.ok.2 c).1
    exact ((alike.reads _ _).mp hreads).unique (resolve_reads ok c).1
  · obtain ⟨-, compresses, post⟩ := resolve_shows alike.ok.2.1 hc _ _ rfl
    exact fun i spine hi => (compresses.solved i).symm.trans ((post _ rfl).2 i spine hi)

end Store

/-- Where the links of kinds have no free kind variables, no sequence of `resolve` and `zonk`
changes what zonking a constructor gives: nothing solved is left in it, and zonking it again changes
nothing.  The metavariables of a constructor are listed at their first occurrences in it.  What
`resolve` gives leads to the end that following one link at a time leads to, and where no solution
is a variable, it is that end. -/
theorem reading_settles {store : Store} (ok : store.Steady) (acyclic : store.kinds.Acyclic)
    (hclosed : store.kinds.Closed) {c : Con} (hc : c.Fits store) :
    ∃ r e, ∀ store', store.Rereads store' →
      Ends (.indifferent Store) store' (fun fuel => Store.zonk fuel c) (fun x _ => x = r) ∧
      (∀ i, r.Mentions i → store'.isSolved i = false) ∧ r.Annotated store'.kinds.Spelled ∧
      Ends (.indifferent Store) store' (fun fuel => Store.zonk fuel r) (fun x _ => x = r) ∧
      Ends (.indifferent Store) store' (fun fuel => Store.unsolvedMVars fuel c)
        (fun vs _ => vs = r.occurrences.eraseDups) ∧
      (∃ e', store'.Follows c e' ∧ e'.expandKinds store.kinds = e) ∧
      (∃ e', store'.Follows ((Store.resolve c).run store').1 e' ∧
        e'.expandKinds store.kinds = e) ∧
      (store.Imitates → ((Store.resolve c).run store').1 = ((Store.resolve c).run store).1 ∧
        store'.HeadUnsolved ((Store.resolve c).run store').1 ∧
        ((Store.resolve c).run store').1.expandKinds store.kinds = e) := by
  have settling := Store.Settling.of_steady ok acyclic
  obtain ⟨n, r, next, hrun, -, compresses, hr⟩ := Store.zonk_settles hclosed settling hc
  have hspelled := Store.annotated_of_settles acyclic hr
  have hfits : r.Fits store := by
    obtain ⟨-, compresses, hr⟩ := Store.zonk_keeps n ok hc _ _ (hrun n le_rfl)
    exact (hr r rfl).fits.mono compresses.cells.le fun i hi =>
      (compresses.arity i (compresses.cells ▸ hi)).symm
  obtain ⟨e, hends⟩ : ∃ e, EndsAt (store.links store.kinds) (c.expandKinds store.kinds) e := by
    cases hr with
    | intro head => exact ⟨_, head⟩
  refine ⟨r, e, fun store' h => ?_⟩
  obtain ⟨ok', compresses'⟩ := h.settling hclosed settling
  have hc' : c.Fits store' := hc.evolves compresses'.toEvolves
  have hzonk : ∀ {d : Con}, d.Fits store →
      Settles (store.links store.kinds) (d.expandKinds store.kinds) r →
      Ends (.indifferent Store) store' (fun fuel => Store.zonk fuel d) fun x _ => x = r := by
    intro d hd hdr
    obtain ⟨n, x, s, hrun, -, -, hx⟩ :=
      Store.zonk_settles hclosed ok' (hd.evolves compresses'.toEvolves)
    exact ⟨n, x, s, hrun, trivial, trivial, hx.unique hdr⟩
  have hself : Settles (store.links store.kinds) (r.expandKinds store.kinds) r := by
    rw [expandKinds_of_spelled acyclic hspelled]
    exact .self fun i => hr.stays
  obtain ⟨ok'', hanswer⟩ := Store.resolveWithin_answers hclosed store'.cells.size ok' hc'
  have hresolve := Store.Follows.exists_of_endsAt hclosed ok' ((hanswer.endsAt_iff ok'').mpr hends)
  refine ⟨hzonk hc hr, fun i hi => (ok'.solved i).mp (hr.stays hi), ?_, hzonk hfits hself, ?_,
    Store.Follows.exists_of_endsAt hclosed ok' hends, hresolve, fun himitates => ?_⟩
  · exact hspelled.mono fun k hk => ok'.chains.spells hk
  · refine Ends.map trivial (hzonk hc hr) fun x _ hx => ?_
    rw [hx, mvars_eq_eraseDups]
  · obtain ⟨hagain, hunsolved⟩ := Store.resolve_again ⟨⟨ok, himitates⟩, acyclic⟩ h hc'
    obtain ⟨e', hfollows, he⟩ := hresolve
    exact ⟨hagain, hunsolved, by rw [(Store.Follows.itself hunsolved).unique hfollows, he]⟩

/-- Three cells: `int`, the variable of a context, and the latter at the former. -/
def solvedByVariable (kinds : KindStore) : Store :=
  { Store.empty with
    kinds
    cells := #[⟨.type, 0, some (.prim .int)⟩, ⟨.type, 1, some (.bvar 0)⟩,
      ⟨.type, 0, some (.mvar 1 [.mvar 0 []])⟩] }

private theorem steady_solvedByVariable (kinds : KindStore) : (solvedByVariable kinds).Steady := by
  let store := ((Store.empty.extended .type 0).extended .type 1).extended .type 0
  have ok : store.Steady :=
    ((Store.steady_empty.extended .type 0).extended .type 1).extended .type 0
  have happlied : (Con.mvar 1 [.mvar 0 []]).Fits store := by
    refine .intro (by rintro _ _ ⟨⟩; exact ⟨by decide, rfl⟩) fun p hp => ?_
    obtain rfl := List.mem_singleton.mp hp
    exact .intro (by rintro _ _ ⟨⟩; exact ⟨by decide, rfl⟩) fun p hp => by cases hp
  -- a solution may mention unsolved cells only, so the last cell is solved first
  obtain ⟨ok₂, -⟩ := ok.solve (show 2 < store.cells.size by decide) rfl happlied (Nat.le_refl 0)
    fun j hj => by
      have hj : j ∈ [1, 0] := mem_occurrences.mpr hj
      rcases List.mem_pair.mp hj with rfl | rfl <;> exact ⟨by decide, rfl⟩
  obtain ⟨ok₁, -⟩ := ok₂.solve (show 1 < _ by decide) rfl (.bvar 0) (Nat.le_refl 1)
    fun j hj => absurd hj (not_mentions_of_has rfl)
  have hint : ∀ store : Store, (Con.prim .int).Fits store := fun _ => .leaf (by simp) rfl
  obtain ⟨ok₀, -⟩ := ok₁.solve (show 0 < _ by decide) rfl (hint _) (Nat.le_refl 0)
    fun j hj => absurd hj (not_mentions_of_has rfl)
  exact (Store.sameCells_withKinds _ kinds).steady ok₀

theorem reading_settles_throughVariable :
    let store := solvedByVariable linkedToType
    let c : Con := .abs "x" (.mvar 0) (.mvar 2 [])
    (Store.zonk 4 c store).map Prod.fst = some (.abs "x" .type (.prim .int)) ∧
      ∃ r, ∀ store', store.Rereads store' →
        Ends (.indifferent Store) store' (fun fuel => Store.zonk fuel c) (fun x _ => x = r) ∧
        Ends (.indifferent Store) store' (fun fuel => Store.zonk fuel r) fun x _ => x = r := by
  intro store c
  have hclosed : linkedToType.Closed := fun hv =>
    eq_of_linkedToType hv ▸ Kind.vars_of_hasBVar rfl 0
  have hc : c.Fits store := by
    refine .node (by simp [c]) fun p hp => ?_
    obtain rfl := List.mem_singleton.mp hp
    exact .intro (by rintro _ _ ⟨⟩; exact ⟨by decide, rfl⟩) fun p hp => by cases hp
  obtain ⟨r, e, h⟩ :=
    reading_settles (steady_solvedByVariable linkedToType) acyclic_linkedToType hclosed hc
  refine ⟨rfl, r, fun store' hstore' => ?_⟩
  obtain ⟨hzonk, -, -, hagain, -⟩ := h store' hstore'
  exact ⟨hzonk, hagain⟩

/-- Where a solution is a variable, `resolve` gives back a solved metavariable, and once more it
gives what that stands for. -/
theorem resolve_changes :
    let store := solvedByVariable KindStore.empty
    let c : Con := .mvar 2 []
    store.Steady ∧ store.Follows c (.prim .int) ∧ ((Store.resolve c).run store).1 = .mvar 0 [] ∧
      ((Store.resolve c).run ((Store.resolve c).run store).2).1 = .prim .int := by
  refine ⟨steady_solvedByVariable _, ?_, rfl, rfl⟩
  exact .link rfl (.link rfl (.link rfl (.itself fun i spine h => by cases h)))

end RowML
