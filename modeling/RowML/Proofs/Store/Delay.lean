import RowML.Proofs.Store.Spelling
import RowML.Proofs.Store.Termination

/-!
# Substitution before and after solving

An occurrence of a metavariable carries its spine, so it can be moved under binders, and
constructors can be put for the variables around it, before the metavariable has a solution.
Reading the solution afterwards gives what the same operation makes of the constructor in which the
solution has been read.
-/

namespace RowML

open RowML.Con

theorem Kind.mvars_shift (k : Kind) (amount cutoff : Nat) :
    (k.shift amount cutoff).mvars = k.mvars := by
  unfold Kind.shift
  generalize 0 = d
  induction k using Kind.inductionOnParts generalizing d with
  | step k ih =>
    cases k with
    | tuple ks =>
      simp only [Kind.mapVars, mapVarsList_eq, mvars, mvarsList_eq, List.flatMap_map]
      exact List.flatMap_congr fun k hk => ih k hk d
    | arrow a b => simp [Kind.mapVars, mvars, ih a (by simp [parts]), ih b (by simp [parts])]
    | record a => simp [Kind.mapVars, mvars, ih a (by simp [parts])]
    | poly x body => simp [Kind.mapVars, mvars, ih body (by simp [parts])]
    | bvar i => rfl
    | type | unit | name | error | mvar => rfl

/-- A kind that is spelled out is so in every store with the same chains. -/
theorem KindStore.SameChains.spells {store store' : KindStore}
    (h : store.SameChains store') {k : Kind}
    (hk : store.Spelled k) : store'.Spelled k := by
  intro v hv
  refine h.acyclic.2.not_linked_of_mem_expand (k := .mvar v) ?_
  rw [h.expand, expand_of_not_linked (hk v hv)]
  exact List.mem_singleton_self v

namespace Con

variable {base ks : KindStore} {θ : MetaId → Option Con} {c : Con} {spine : List Con}

/-! ## Operations that follow links of kinds -/

private theorem relates_expand : Relates (KindStore.rereading base) (fun _ _ => True)
    fun _ k k' => base.expand k = base.expand k' :=
  ⟨fun _ _ h => h, fun _ _ h => h, fun _ => rfl⟩

private theorem shifts_expand (hclosed : base.Closed) : Shifts (KindStore.rereading base)
    (fun _ _ => True) fun _ k k' => base.expand k = base.expand k' := by
  intro ks k amount cutoff ok _
  have ok : base.SameChains ks := ok
  have acyclic := ok.acyclic.1
  refine (KindStore.lift_rereads ok (acyclic.shows hclosed k) amount cutoff).mono
    fun k' _ _ _ h => ?_
  exact (acyclic.expand_shift hclosed k amount cutoff).trans h.symm

/-- Instantiation spells annotations as it does where nothing is linked. -/
theorem instantiate_expands (same : base.SameChains ks) (hclosed : base.Closed) (c : Con)
    (spine : List Con) :
    base.SameChains ((c.instantiate spine).run ks).2 ∧
      Alike (fun k k' => base.expand k = base.expand k') (c.instantiated spine)
        ((c.instantiate spine).run ks).1 := by
  have hc : c.Annotated fun _ => True := .of_forall fun _ => trivial
  have h := relates_expand.instantiate (shifts_expand hclosed) same hc
    fun a (_ : a ∈ spine) => .of_forall fun _ => trivial
  obtain ⟨ok, -, halike⟩ := h _ _ rfl
  exact ⟨ok, halike _ rfl⟩

/-! ## Annotations of what is spelled out -/

theorem Annotated.weakened (h : c.Annotated ks.Spelled) (d : Depth) :
    (c.weakened d).Annotated ks.Spelled := by
  refine h.traverse (fun _ _ => .bvar _) (fun e k hk v hv => hk v ?_) Depth.zero
  rwa [weakenKind, Kind.mvars_shift] at hv

theorem Annotated.instantiated (h : c.Annotated ks.Spelled)
    (hspine : ∀ a ∈ spine, a.Annotated ks.Spelled) :
    (c.instantiated spine).Annotated ks.Spelled := by
  refine h.traverse (fun d i => ?_) (fun _ _ hk => hk) Depth.zero
  unfold spineVar
  split
  · exact .bvar i
  · split
    next argument hget =>
      exact (hspine argument (List.mem_reverse.mp (List.mem_of_getElem? hget))).weakened d
    next => exact .bvar _

theorem annotated_spell (acyclic : ks.Acyclic)
    (hθ : ∀ {v solution}, θ v = some solution → solution.Annotated ks.Spelled) (c : Con) :
    (c.spell ks θ).Annotated ks.Spelled := by
  induction c using inductionOnParts with
  | step c ih =>
    rcases solved_or_stays θ c with ⟨v, spine, solution, rfl, hv⟩ | hstays
    · rw [spell_solved hv]
      exact (hθ hv).instantiated (List.forall_mem_map.mpr ih)
    · refine .intro ?_ ?_
      · rw [annotations_spell hstays]
        exact List.forall_mem_map.mpr fun k _ v hv => acyclic.not_linked_of_mem_expand hv
      · rw [parts_spell hstays]
        exact List.forall_mem_map.mpr ih

end Con

namespace Store

variable {store store' : Store} {base : KindStore} {θ : MetaId → Option Con} {c : Con} {i : MetaId}
  {spine : List Con}

/-! ## Solutions, spelled out -/

/-- What `θ` gives stands in the contexts of the cells, mentions no kind variables, and is spelled
out. -/
structure Regular (store : Store) (base : KindStore) (θ : MetaId → Option Con) : Prop where
  bound : ∀ {i solution}, θ i = some solution → solution.bound ≤ (store.cell i).arity
  closed : ∀ {i solution}, θ i = some solution → solution.KindScoped .zero
  spelled : ∀ {i solution}, θ i = some solution → solution.Annotated base.Spelled

theorem Regular.served (h : store.Regular base θ) (hc : c.Fits store) : c.Served θ :=
  All.mono hc fun _ hnode v spine _ hmvar hv =>
    ⟨(hnode v spine hmvar).2 ▸ h.bound hv, h.closed hv⟩

/-- `θ` gives the solution of every solved cell, spelled out. -/
structure Spells (store : Store) (base : KindStore) (θ : MetaId → Option Con) : Prop
    extends store.Regular base θ where
  solution : ∀ i, θ i = (store.solution? i).map (Con.spell base θ)

namespace Spells

theorem solved (h : store.Spells base θ) {target : Con} (hi : store.solution? i = some target)
    (spine : List Con) : spell base θ (.mvar i spine) =
      (target.spell base θ).instantiated (spine.map (spell base θ)) :=
  spell_solved ((h.solution i).trans (by rw [hi]; rfl))

theorem unsolved (h : store.Spells base θ) (hi : store.isSolved i = false) : θ i = none := by
  have hnone : store.solution? i = none := by simpa [isSolved] using hi
  rw [h.solution, hnone]
  rfl

theorem sameCells (h : store.Spells base θ) (same : SameCells store store') :
    store'.Spells base θ where
  bound hi := same.cell ▸ h.bound hi
  closed := h.closed
  spelled := h.spelled
  solution i := same.solution? ▸ h.solution i

/-- A cell may be given another solution that is spelled alike. -/
theorem put (h : store.Spells base θ) {target solution : Con} (hi : store.solution? i = some target)
    (hsame : solution.spell base θ = target.spell base θ) :
    (store.put i solution).Spells base θ where
  bound hj := arity_put (lt_of_solution hi) solution _ ▸ h.bound hj
  closed := h.closed
  spelled := h.spelled
  solution j := by
    rw [solution?_put (lt_of_solution hi), h.solution]
    split
    next heq => rw [heq, hi, Option.map_some, Option.map_some, hsame]
    next => rfl

end Spells

/-- The solutions, each spelled out with the solutions of `n` rounds before. -/
private def spelledWithin (store : Store) (base : KindStore) : Nat → MetaId → Option Con
  | 0, _ => none
  | n + 1, i => (store.solution? i).map (Con.spell base (store.spelledWithin base n))

/-- A solution is spelled out once the rounds are as many as its rank. -/
private theorem spelledWithin_succ {rank : MetaId → Nat} (hrank : Ranks store.Leads rank)
    (hpositive : ∀ i, store.isSolved i = true → 0 < rank i) {n : Nat} (hi : rank i ≤ n) :
    store.spelledWithin base (n + 1) i = store.spelledWithin base n i := by
  induction n generalizing i with
  | zero =>
    cases hsolution : store.solution? i with
    | none => simp [spelledWithin, hsolution]
    | some solution =>
      have := hpositive i (by simp [isSolved, hsolution])
      omega
  | succ n ih =>
    cases hsolution : store.solution? i with
    | none => simp [spelledWithin, hsolution]
    | some solution =>
      rw [spelledWithin, spelledWithin, hsolution, Option.map_some, Option.map_some]
      refine congrArg some (spell_congr fun w hw => ih ?_)
      have := hrank i w ⟨solution, hsolution, hw⟩
      omega

/-- Solutions without free kind variables can be spelled out. -/
theorem exists_spells (ok : store.Steady) (acyclic : base.Acyclic) (hclosed : base.Closed)
    (hscoped : ∀ {i solution}, store.solution? i = some solution → solution.KindScoped .zero) :
    ∃ θ, store.Spells base θ := by
  obtain ⟨rank, hrank, hpositive, hle⟩ := ok.acyclic.exists_bounded_rank
  let θ := store.spelledWithin base store.cells.size
  have hθ : ∀ i, θ i = (store.solution? i).map (Con.spell base θ) := fun i =>
    (spelledWithin_succ hrank hpositive (hle i)).symm
  -- below a rank, what `θ` gives is regular
  suffices hbelow : ∀ n, store.Regular base fun i => if rank i < n then θ i else none by
    have hall : (fun i => if rank i < store.cells.size + 1 then θ i else none) = θ :=
      funext fun i => if_pos (Nat.lt_succ_of_le (hle i))
    exact ⟨θ, { hall ▸ hbelow (store.cells.size + 1) with solution := hθ }⟩
  intro n
  induction n with
  | zero => exact ⟨by simp, by simp, by simp⟩
  | succ n ih =>
    have hspelled : ∀ {i solution}, (if rank i < n + 1 then θ i else none) = some solution →
        ∃ target, store.solution? i = some target ∧
          solution = target.spell base fun i => if rank i < n then θ i else none := by
      intro i solution hi
      obtain ⟨hlt, hi⟩ := Option.ite_none_right_eq_some.mp hi
      rw [hθ] at hi
      obtain ⟨target, htarget, rfl⟩ := Option.map_eq_some_iff.mp hi
      refine ⟨target, htarget, spell_congr fun v hv => ?_⟩
      have := hrank i v ⟨target, htarget, hv⟩
      rw [if_pos (by omega)]
    refine ⟨fun hi => ?_, fun hi => ?_, fun hi => ?_⟩ <;>
      obtain ⟨target, htarget, rfl⟩ := hspelled hi
    · exact bound_spell (ih.served (ok.fits htarget)) (ok.bounds htarget)
    · exact (hscoped htarget).spell acyclic hclosed (ih.served (ok.fits htarget))
    · exact annotated_spell acyclic ih.spelled target

/-! ## Reading solutions -/

/-- The discipline of computations that solve nothing, where solutions are spelled as `θ` says. -/
def spelling (base : KindStore) (θ : MetaId → Option Con) : Discipline Store where
  Ok store := store.Steady ∧ store.Spells base θ ∧ base.SameChains store.kinds
  Grows := Compresses
  refl store _ := Compresses.refl store
  trans _ _ _ := Compresses.trans

variable (hclosed : base.Closed)
include hclosed

/-- Instantiation goes along with spelling out. -/
theorem spell_instantiate (same : base.SameChains store.kinds) (hc : c.Served θ)
    (hspine : ∀ a ∈ spine, a.Served θ) :
    base.SameChains ((c.instantiate spine).run store.kinds).2 ∧
      ((c.instantiate spine).run store.kinds).1.spell base θ =
        (c.spell base θ).instantiated (spine.map (spell base θ)) := by
  obtain ⟨same', halike⟩ := instantiate_expands same hclosed c spine
  exact ⟨same', (spell_alike halike).trans
    (spell_instantiated same.acyclic.1 hclosed hc hspine)⟩

theorem resolveWithin_spell (fuel : Nat) (ok : (spelling base θ).Ok store) (hc : c.Fits store) :
    (spelling base θ).Ok ((resolveWithin fuel c).run store).2 ∧
      ((resolveWithin fuel c).run store).1.spell base θ = c.spell base θ := by
  induction fuel generalizing c store with
  | zero =>
    have hrun : resolveWithin 0 c = pure c := by cases c <;> rfl
    rw [hrun]
    exact ⟨ok, rfl⟩
  | succ fuel ih =>
    by_cases hmvar : ∃ i spine, c = .mvar i spine
    · obtain ⟨i, spine, rfl⟩ := hmvar
      cases hi : store.solution? i with
      | none =>
        have hrun : (resolveWithin (fuel + 1) (.mvar i spine)).run store =
            (.mvar i spine, store) := by
          rw [resolveWithin, StateT.run_bind, StateT.run_get, pure_bind, hi]
          rfl
        rw [hrun]
        exact ⟨ok, rfl⟩
      | some target =>
        have chased' := chased_resolveWithin (fuel + 1) ok.1 hc
        have chased := chased_resolveWithin fuel ok.1 (ok.1.fits hi)
        obtain ⟨⟨-, hspells, hsame⟩, hfinal⟩ := ih ok (ok.1.fits hi)
        rw [resolveWithin_solved fuel spine hi] at chased' ⊢
        generalize (resolveWithin fuel target).run store = next at *
        obtain ⟨final, next⟩ := next
        -- the cell still has its old solution when it is linked to the end of the chain
        obtain ⟨rank, hrank⟩ := ok.1.acyclic
        have hi' : next.solution? i = some target := (chased.above hrank i fun j spine' hj =>
          hrank i j ⟨target, hi, hj ▸ .here spine'⟩).trans hi
        have hrelinked : (if final ≠ target then next.put i final else next).Spells base θ ∧
            base.SameChains (if final ≠ target then next.put i final else next).kinds := by
          split
          next => exact ⟨hspells.put hi' hfinal, hsame⟩
          next => exact ⟨hspells, hsame⟩
        obtain ⟨hspells', hsame'⟩ := hrelinked
        obtain ⟨hsame'', hanswer⟩ := spell_instantiate hclosed hsame'
          (hspells.toRegular.served chased.fits) fun a ha => ok.2.1.toRegular.served (hc.part ha)
        refine ⟨⟨chased'.ok, hspells'.sameCells (sameCells_withKinds _ _), hsame''⟩, ?_⟩
        exact hanswer.trans (by rw [hfinal]; exact (ok.2.1.solved hi spine).symm)
    · have hrun : resolveWithin (fuel + 1) c = pure c := by
        cases c <;> first | rfl | exact absurd ⟨_, _, rfl⟩ hmvar
      rw [hrun]
      exact ⟨ok, rfl⟩

/-- The specification of zonking. -/
private def spellsOut (base : KindStore) (θ : MetaId → Option Con) : Con.PassSpec Store where
  Pre s _ c := c.Fits s
  KindPre _ _ _ := True
  Enters _ _ c := c.Stays θ
  Post _ _ c c' := c' = c.spell base θ
  KindPost _ _ k k' := k' = base.expand k

private theorem zonk_spell_yields (fuel : Nat) (ok : (spelling base θ).Ok store)
    (hc : c.Fits store) :
    Yields (spelling base θ) store (zonk fuel c) fun r _ => r = c.spell base θ := by
  induction fuel generalizing c store with
  | zero => exact Yields.of_none rfl
  | succ fuel ih =>
    have hpass : Con.Pass (spelling base θ) (spellsOut base θ) (zonkNode fuel) zonkKind :=
      { pre_grows := fun _ compresses h => h.evolves compresses.toEvolves
        kindPre_grows := fun _ _ h => h
        enters_grows := fun _ _ h => h
        post_grows := fun _ _ h => h
        kindPost_grows := fun _ _ h => h
        pre_part := fun h hp => h.part hp
        pre_kind := fun _ _ => trivial
        node_yields := by
          intro store d c ok hc
          unfold zonkNode
          split
          next h =>
            simp only [Bool.not_eq_true', Bool.or_eq_false_iff] at h
            exact Yields.pure ok (spell_of_has h.1 h.2).symm
          next =>
            split
            next i spine _ =>
              have chased := chased_resolveWithin store.cells.size ok.1 hc
              obtain ⟨ok', hspell⟩ := resolveWithin_spell hclosed store.cells.size ok hc
              refine Yields.next rfl ok ok' chased.compresses ?_
              split
              next =>
                refine Yields.map ok' ((ih ok' chased.fits).mono fun r s _ _ hr => ?_)
                exact hr.trans hspell
              next hsame =>
                refine Yields.pure ok' fun v spine' hv => ok.2.1.unsolved ?_
                have hlt := (hc.top v spine' hv).1
                exact chased.unsolved (Nat.lt_of_le_of_lt (Nat.zero_le _) hlt) hv
                  (Decidable.not_not.mp hsame)
            next hne => exact Yields.pure ok fun v spine hv => absurd hv (hne v spine)
        kind_yields := by
          intro store d k ok _
          have same : SameCells store (store.withKinds ((KindStore.zonk k).run store.kinds).2) :=
            sameCells_withKinds _ _
          have hfollows : KindStore.OnlyFollows (KindStore.zonk k) := fun hr =>
            KindStore.zonk_throughout hr k
          have hsame := ok.2.2.trans (hfollows.again (.refl ok.2.2.acyclic.2)).2
          refine Yields.of_exec rfl ⟨same.steady ok.1, ok.2.1.sameCells same, hsame⟩
            (.of_sameCells same) ?_
          exact (hfollows.again ok.2.2).1.trans (ok.2.2.acyclic.1.zonk_eq k)
        close := by
          intro store d c c' ok _ hstays related
          refine Con.eq_of_frame ?_ ?_ ?_
          · rw [frame_spell hstays, related.frame]
          · rw [annotations_spell hstays]
            simpa using map_eq_map_of_forall₂ (g := id) related.annotations
          · rw [parts_spell hstays]
            simpa using map_eq_map_of_forall₂ (g := id) related.parts }
    exact hpass.rebuildM_yields c ok hc

/-- Zonking spells a constructor out. -/
theorem zonk_spell (ok : (spelling base θ).Ok store) (hc : c.Fits store) :
    Ends (spelling base θ) store (fun fuel => zonk fuel c) fun r _ => r = c.spell base θ := by
  obtain ⟨n, r, hrun⟩ := zonk_ends ok.1 hc
  have hends : Ends (.indifferent Store) store (fun fuel => zonk fuel c) fun _ _ => True :=
    ⟨n, r.1, r.2, fun fuel hfuel => exec_of_run (hrun fuel hfuel), trivial, trivial, trivial⟩
  exact .of_yields hends fun fuel => zonk_spell_yields hclosed fuel ok hc

/-- Instantiation of what has been zonked. -/
private theorem instantiate_zonked (ok : (spelling base θ).Ok store) (c : Con) (spine : List Con) :
    Ends (spelling base θ) store (fun _ =>
      (liftM (onKinds ((c.spell base θ).instantiate (spine.map (spell base θ)))) : FuelM Con))
      fun r _ => r = (c.spell base θ).instantiated (spine.map (spell base θ)) := by
  have hspelled : ∀ c : Con, (c.spell base θ).Annotated store.kinds.Spelled := fun c =>
    (annotated_spell ok.2.2.acyclic.1 ok.2.1.spelled c).mono fun _ hk => ok.2.2.spells hk
  have same : SameCells store (store.withKinds
      (((c.spell base θ).instantiate (spine.map (spell base θ))).run store.kinds).2) :=
    sameCells_withKinds _ _
  refine .of_exec (fun _ => rfl) ⟨same.steady ok.1, ok.2.1.sameCells same, ?_⟩ (.of_sameCells same)
    (instantiate_spelled (hspelled c) (List.forall_mem_map.mpr fun a _ => hspelled a))
  exact (instantiate_expands ok.2.2 hclosed _ _).1

end Store

/-! ## Main result -/

/-- The kinds `after` know all that the kinds `before` do. -/
def KindStore.Precedes (before after : KindStore) : Prop :=
  ∀ {v target}, before.stateOf v = .link target → after.expand (.mvar v) = after.expand target

namespace KindStore

variable {before after : KindStore}

/-- Links are not taken back. -/
theorem Acyclic.precedes (acyclic : after.Acyclic)
    (h : ∀ {v target}, before.stateOf v = .link target → after.stateOf v = .link target) :
    before.Precedes after := by
  intro v target hv
  rw [expand_eq_assign (k := target)]
  exact acyclic.spelled_link (h hv)

theorem Precedes.expand (h : before.Precedes after) (acyclic : before.Acyclic) (k : Kind) :
    after.expand (before.expand k) = after.expand k := by
  have hspelled : ∀ v, (before.spelled v).assign after.spelled = after.spelled v := by
    intro v
    induction v using acyclic.induction with
    | step v ih =>
      by_cases hv : before.Linked v
      · obtain ⟨target, hv⟩ := hv
        rw [acyclic.spelled_link hv, Kind.assign_assign,
          Kind.assign_congr fun w hw => ih w ⟨target, hv, hw⟩, ← expand_eq_assign]
        exact (h hv).symm
      · rw [spelled_of_not_linked hv, Kind.assign_mvar]
  rw [expand_eq_assign after, expand_eq_assign before, Kind.assign_assign, expand_eq_assign after]
  exact Kind.assign_congr fun v _ => hspelled v

end KindStore

namespace Store

variable {store : Store} {before : KindStore} {θ : MetaId → Option Con} {c : Con} {spine : List Con}

private theorem Fits.instantiate (hc : c.Fits store) (hspine : ∀ a ∈ spine, a.Fits store)
    (before : KindStore) : ((c.instantiate spine).run before).1.Fits store :=
  (hc.instantiated hspine).of_alike (instantiate_resembles c spine before)

/-- A constructor in which solutions are read after the spine has been put in. -/
private theorem zonk_instantiate (ok : (spelling store.kinds θ).Ok store)
    (hclosed : store.kinds.Closed)
    (acyclic : before.Acyclic) (hclosed' : before.Closed) (precedes : before.Precedes store.kinds)
    (hc : c.Fits store) (hspine : ∀ a ∈ spine, a.Fits store) :
    Ends (spelling store.kinds θ) store
      (fun fuel => zonk fuel ((c.instantiate spine).run before).1) fun r _ =>
        r = (c.spell store.kinds θ).instantiated (spine.map (spell store.kinds θ)) := by
  obtain ⟨-, halike⟩ := instantiate_expands (.refl acyclic) hclosed' c spine
  have hexpand : ∀ k k', before.expand k = before.expand k' →
      store.kinds.expand k = store.kinds.expand k' := fun k k' h => by
    rw [← precedes.expand acyclic k, h, precedes.expand acyclic k']
  have halike' := halike.mono hexpand
  have hserved : ∀ {c : Con}, c.Fits store → c.Served θ := fun hc => ok.2.1.toRegular.served hc
  rw [← spell_instantiated ok.2.2.acyclic.1 hclosed (hserved hc) fun a ha => hserved (hspine a ha),
    ← spell_alike halike']
  exact zonk_spell hclosed ok (Fits.instantiate hc hspine before)

end Store

/-- Where solutions and links of kinds have no free kind variables, lifting, substitution and
instantiation come to the same before solutions are read, and in the kinds of an earlier state, as
they do afterwards. -/
theorem substitution_delayed {store : Store} (ok : store.Steady)
    (hsolutions : ∀ {i solution}, store.solution? i = some solution → solution.KindScoped .zero)
    (acyclic : store.kinds.Acyclic) (hclosed : store.kinds.Closed) {before : KindStore}
    (acyclic' : before.Acyclic) (hclosed' : before.Closed) (precedes : before.Precedes store.kinds)
    {c argument : Con} {spine : List Con} (hc : c.Fits store) (hargument : argument.Fits store)
    (hspine : ∀ a ∈ spine, a.Fits store) (amount : Nat) :
    (∃ r, Ends (.indifferent Store) store (fun fuel =>
          Store.zonk fuel (c.lift amount)) (fun x _ => x = r) ∧
        Ends (.indifferent Store) store (fun fuel => (do
          let c ← Store.zonk fuel c
          return c.lift amount : FuelM Con)) fun x _ => x = r) ∧
      (∃ r, Ends (.indifferent Store) store (fun fuel =>
          Store.zonk fuel ((c.subst argument).run before).1) (fun x _ => x = r) ∧
        Ends (.indifferent Store) store (fun fuel => (do
          let c ← Store.zonk fuel c
          let argument ← Store.zonk fuel argument
          onKinds (c.subst argument) : FuelM Con)) fun x _ => x = r) ∧
      ∃ r, Ends (.indifferent Store) store (fun fuel =>
          Store.zonk fuel ((c.instantiate spine).run before).1) (fun x _ => x = r) ∧
        Ends (.indifferent Store) store (fun fuel => (do
          let c ← Store.zonk fuel c
          let spine ← spine.mapM (Store.zonk fuel)
          onKinds (c.instantiate spine) : FuelM Con)) fun x _ => x = r := by
  obtain ⟨θ, spells⟩ := Store.exists_spells ok acyclic hclosed hsolutions
  have hok : (Store.spelling store.kinds θ).Ok store := ⟨ok, spells, .refl acyclic⟩
  have hlift : (c.lift amount).Fits store := by
    rw [lift_eq_traverse]
    exact hc.traverse (fun _ _ => .bvar _) _
  have hbefore : ∀ {c : Con} {spine : List Con}, c.Fits store → (∀ a ∈ spine, a.Fits store) → _ :=
    fun hc hspine => Store.zonk_instantiate hok hclosed acyclic' hclosed' precedes hc hspine
  refine ⟨⟨(c.spell store.kinds θ).lift amount, ?_, ?_⟩,
    ⟨(c.spell store.kinds θ).instantiated [argument.spell store.kinds θ], ?_, ?_⟩,
    ⟨(c.spell store.kinds θ).instantiated (spine.map (spell store.kinds θ)), ?_, ?_⟩⟩
  · have h := Store.zonk_spell hclosed hok hlift
    rw [spell_lift acyclic hclosed (spells.toRegular.served hc)] at h
    exact h.answer
  · refine Ends.answer (.bind hok (Store.zonk_spell hclosed hok hc) fun c' s ok _ hc' => ?_)
    exact .pure ok (by rw [hc'])
  · rw [subst_eq_instantiate]
    exact (hbefore hc (List.forall_mem_singleton.mpr hargument)).answer
  · refine Ends.answer (.bind hok (Store.zonk_spell hclosed hok hc) fun c' s ok grows hc' => ?_)
    have hargument' := hargument.evolves grows.toEvolves
    refine .bind ok (Store.zonk_spell hclosed ok hargument') fun a s ok _ ha => ?_
    subst hc' ha
    rw [subst_eq_instantiate]
    exact Store.instantiate_zonked hclosed ok c [argument]
  · exact (hbefore hc hspine).answer
  · refine Ends.answer (.bind hok (Store.zonk_spell hclosed hok hc) fun c' s ok grows hc' => ?_)
    refine .bind ok (.mapM ok fun a ha s ok grows' => Store.zonk_spell hclosed ok
      ((hspine a ha).evolves (grows.trans grows').toEvolves)) fun spine' s ok _ hspine' => ?_
    have hspine' : spine' = spine.map (spell store.kinds θ) := by
      simpa using map_eq_map_of_forall₂ (g := id) hspine'
    subst hc' hspine'
    exact Store.instantiate_zonked hclosed ok c spine

/-- A cell in a context of one variable, solved by a function that forgets its argument. -/
def solvedByConstant (kinds : KindStore) : Store :=
  { Store.empty with
    kinds, cells := #[⟨.arrow .type .type, 1, some (.abs "y" (.mvar 0) (.bvar 1))⟩] }

theorem steady_solvedByConstant (kinds : KindStore) : (solvedByConstant kinds).Steady := by
  have hfits : (Con.abs "y" (.mvar 0) (.bvar 1)).Fits
      (Store.empty.extended (.arrow .type .type) 1) :=
    .node (by simp) fun p hp => List.mem_singleton.mp hp ▸ .bvar 1
  have hsize : 0 < (Store.empty.extended (.arrow .type .type) 1).cells.size := Nat.zero_lt_one
  obtain ⟨ok, -⟩ := (Store.steady_empty.extended (.arrow .type .type) 1).solve hsize rfl hfits
    (Nat.le_refl 1) fun j hj => absurd hj (not_mentions_of_has rfl)
  exact (Store.sameCells_withKinds _ kinds).steady ok

/-- A kind metavariable, before and after it is linked to `Type`. -/
def unlinked : KindStore := ⟨#[.unbound .any []], [], 0⟩

def linkedToType : KindStore := ⟨#[.link .type], [], 0⟩

private theorem not_linked_unlinked {v : KindVar} {target : Kind} :
    unlinked.stateOf v ≠ .link target := by
  intro hv
  obtain rfl : v = 0 := Nat.lt_one_iff.mp (KindStore.lt_of_link hv)
  cases hv

theorem eq_of_linkedToType {v : KindVar} {target : Kind}
    (hv : linkedToType.stateOf v = .link target) : target = .type := by
  obtain rfl : v = 0 := Nat.lt_one_iff.mp (KindStore.lt_of_link hv)
  cases hv
  rfl

theorem acyclic_linkedToType : linkedToType.Acyclic := by
  refine ⟨fun _ => 0, ?_⟩
  rintro v w ⟨target, hv, hw⟩
  rw [eq_of_linkedToType hv] at hw
  cases hw

theorem substitution_delayed_underBinder :
    let store := solvedByConstant linkedToType
    let c : Con := .abs "x" (.mvar 0) (.mvar 0 [.bvar 1])
    (Store.zonk 3 ((c.subst (.prim .int)).run unlinked).1 store).map Prod.fst =
        some (.abs "x" .type (.abs "y" .type (.prim .int))) ∧
      ∃ r, Ends (.indifferent Store) store (fun fuel =>
          Store.zonk fuel ((c.subst (.prim .int)).run unlinked).1) (fun x _ => x = r) ∧
        Ends (.indifferent Store) store (fun fuel => (do
          let c ← Store.zonk fuel c
          let argument ← Store.zonk fuel (.prim .int)
          onKinds (c.subst argument) : FuelM Con)) fun x _ => x = r := by
  intro store c
  have hsolution : ∀ {i solution}, store.solution? i = some solution →
      solution.KindScoped .zero := by
    intro i solution hi
    obtain rfl : i = 0 := Nat.lt_one_iff.mp (Store.lt_of_solution hi)
    cases hi
    refine .intro (fun k hk => ?_) fun p hp => List.mem_singleton.mp hp ▸ KindScoped.bvar 1
    exact List.mem_singleton.mp hk ▸ Kind.vars_of_hasBVar rfl 0
  have hclosed : linkedToType.Closed := fun hv => eq_of_linkedToType hv ▸ Kind.vars_of_hasBVar rfl 0
  have hmvar : (Con.mvar 0 [.bvar 1]).Fits store := .intro (fun i spine h => by
    cases h
    exact ⟨Nat.zero_lt_one, rfl⟩) fun p hp => List.mem_singleton.mp hp ▸ Fits.bvar 1
  have hc : c.Fits store := .node (by simp [c]) fun p hp => List.mem_singleton.mp hp ▸ hmvar
  have hargument : (Con.prim .int).Fits store := .leaf (by simp) rfl
  have hspine : ∀ a ∈ ([] : List Con), a.Fits store := by simp
  have hunlinked : unlinked.Acyclic :=
    ⟨fun _ => 0, fun v w ⟨_, hv, _⟩ => absurd hv not_linked_unlinked⟩
  obtain ⟨-, hsubst, -⟩ := substitution_delayed (steady_solvedByConstant linkedToType) hsolution
    acyclic_linkedToType hclosed hunlinked
    (fun hv => absurd hv not_linked_unlinked)
    (acyclic_linkedToType.precedes fun hv => absurd hv not_linked_unlinked) hc
    hargument hspine 0
  exact ⟨rfl, hsubst⟩

/-- Where the annotation is a kind metavariable that is linked to a variable, the operations before
solutions are read do not see the variable. -/
theorem substitution_captured :
    let store : Store :=
      { Store.empty with kinds := linkedToVariable, cells := #[⟨.type, 0, some (.prim .int)⟩] }
    let argument : Con := .abs "x" (.mvar 0) (.mvar 0 [])
    (Con.prim .int).bound = 0 ∧ (Con.prim .int).KindScoped .zero ∧
      (Store.zonk 2 (((Con.kabs "K" (.bvar 0)).subst argument).run linkedToVariable).1 store).map
        Prod.fst = some (.kabs "K" (.abs "x" (.bvar 0) (.prim .int))) ∧
      ((do
        let c ← Store.zonk 2 (.kabs "K" (.bvar 0))
        let argument ← Store.zonk 2 argument
        onKinds (c.subst argument) : FuelM Con) store).map
        Prod.fst = some (.kabs "K" (.abs "x" (.bvar 1) (.prim .int))) :=
  ⟨rfl, .intro (by simp [annotations]) (by simp [parts]), rfl, rfl⟩

end RowML
