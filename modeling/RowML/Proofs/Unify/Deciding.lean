import RowML.Proofs.Row.FirstOrder
import RowML.Proofs.Unify.Integrity

/-!
# Solving one equation between first-order constructors

An equation is decided if unification fails only where no solution of the store makes its sides
equal, and otherwise leaves a store whose solutions are those of the old store that do.  A
metavariable that occurs in the other side has no solution, since no ground constructor is a proper
part of itself.
-/

namespace RowML

open Ground

/-! ## Occurrences -/

namespace Con

/-- The metavariable is one of the rows that a row is concatenated from. -/
inductive Tail (v : MetaId) : Con → Prop where
  | here (spine : List Con) : Tail v (.mvar v spine)
  | left {l : Con} (r : Con) (h : Tail v l) : Tail v (.concat l r)
  | right (l : Con) {r : Con} (h : Tail v r) : Tail v (.concat l r)

theorem Tail.tails_pos {v : MetaId} {c : Con} (h : Tail v c) : 0 < c.tails := by
  induction h with
  | here => exact Nat.one_pos
  | left | right => simp only [tails]; omega

end Con

/-- All that stands directly inside the first constructor stands inside the second one. -/
def Ground.Covers (s t : Ground) : Prop := ∀ u, Inside u s → Inside u t

theorem Ground.Covers.inside {s t u : Ground} (h : s.Covers t) (hu : Relation.TransGen Inside u s) :
    Relation.TransGen Inside u t := by
  obtain ⟨w, huw, hws⟩ := Relation.TransGen.tail'_iff.mp hu
  exact Relation.TransGen.tail' huw (h w hws)

theorem Ground.covers_of_subset {f h : Fields} (hsub : ∀ x t, f x = some t → h x = some t) :
    (Ground.row f).Covers (.row h) := by
  intro u hu
  cases hu with
  | field hx => exact .field (hsub _ _ hx)

namespace Con.Denotes

variable {θ : MetaId → Ground} {c : Con} {v : MetaId} {h : Fields}

/-- A row contains the rows that it is concatenated from. -/
theorem tail_subset (htail : Tail v c) (hc : c.Denotes θ (.row h)) :
    ∃ f, θ v = .row f ∧ ∀ x t, f x = some t → h x = some t := by
  induction htail generalizing h with
  | here =>
    generalize ht : Ground.row h = t at hc
    cases hc
    exact ⟨h, ht.symm, fun _ _ hx => hx⟩
  | left r _ ih =>
    cases hc with
    | concat hl _ hjoin =>
      obtain ⟨f, hf, hsub⟩ := ih hl
      exact ⟨f, hf, fun x t hx => hjoin.subset_left (hsub x t hx)⟩
  | right l _ ih =>
    cases hc with
    | concat _ hr hjoin =>
      obtain ⟨f, hf, hsub⟩ := ih hr
      exact ⟨f, hf, fun x t hx => hjoin.subset_right (hsub x t hx)⟩

theorem tail_covers {t : Ground} (htail : Tail v c) (hc : c.Denotes θ t) : (θ v).Covers t := by
  cases htail with
  | here =>
    cases hc
    exact fun _ hu => hu
  | left | right =>
    obtain ⟨h, rfl⟩ : ∃ h, t = .row h := by
      cases hc
      exact ⟨_, rfl⟩
    obtain ⟨f, hf, hsub⟩ := tail_subset (by first | exact .left _ ‹_› | exact .right _ ‹_›) hc
    rw [hf]
    exact covers_of_subset hsub

theorem exists_field (hfield : c.hasField = true) (hc : c.Denotes θ (.row h)) :
    ∃ x t, h x = some t := by
  induction c using Con.inductionOnParts generalizing h with
  | step c ih =>
    cases c with
    | row k fields =>
      obtain _ | ⟨field, fields⟩ := fields
      · cases hfield
      cases hc with
      | @rowCons _ x _ _ t _ _ _ _ hjoin => exact ⟨x, t, hjoin.subset_left (by simp [single])⟩
    | concat l r =>
      cases hc with
      | concat hl hr hjoin =>
        simp only [hasField, Bool.or_eq_true] at hfield
        rcases hfield with hfield | hfield
        · obtain ⟨x, t, hx⟩ := ih l (by simp [parts]) hfield hl
          exact ⟨x, t, hjoin.subset_left hx⟩
        · obtain ⟨x, t, hx⟩ := ih r (by simp [parts]) hfield hr
          exact ⟨x, t, hjoin.subset_right hx⟩
    | _ => cases hfield

/-- With a field, it contains more than that. -/
theorem tail_proper (htail : Tail v c) (hfield : c.hasField = true) (hc : c.Denotes θ (.row h)) :
    ∃ f x t, θ v = .row f ∧ f x = none ∧ h x = some t := by
  have other : ∀ {l r : Con} {a b k : Fields}, Tail v l → l.Denotes θ (.row a) →
      r.Denotes θ (.row b) → Joins a b k → r.hasField = true →
      ∃ f x t, θ v = .row f ∧ f x = none ∧ k x = some t := by
    intro l r a b k hl ha hb hjoin hfield
    obtain ⟨f, hf, hsub⟩ := tail_subset hl ha
    obtain ⟨x, t, hx⟩ := exists_field hfield hb
    refine ⟨f, x, t, hf, ?_, hjoin.subset_right hx⟩
    rcases hfx : f x with _ | s
    · rfl
    · rcases hjoin x with ⟨hnone, -⟩ | ⟨hnone, -⟩
      · rw [hsub x s hfx] at hnone
        cases hnone
      · rw [hx] at hnone
        cases hnone
  induction htail generalizing h with
  | here => cases hfield
  | left r hl ih =>
    cases hc with
    | concat ha hb hjoin =>
      simp only [hasField, Bool.or_eq_true] at hfield
      rcases hfield with hfield | hfield
      · obtain ⟨f, x, t, hf, hfx, hx⟩ := ih hfield ha
        exact ⟨f, x, t, hf, hfx, hjoin.subset_left hx⟩
      · exact other hl ha hb hjoin hfield
  | right l hr ih =>
    cases hc with
    | concat ha hb hjoin =>
      simp only [hasField, Bool.or_eq_true] at hfield
      rcases hfield with hfield | hfield
      · exact other hr hb ha hjoin.symm hfield
      · obtain ⟨f, x, t, hf, hfx, hx⟩ := ih hfield hb
        exact ⟨f, x, t, hf, hfx, hjoin.subset_right hx⟩

/-- What a metavariable stands for inside of a constructor, other than as a part of a row, is a
proper part of the constructor. -/
theorem inside_of_mentions {t : Ground} (hc : c.Denotes θ t) (hv : c.Mentions v) :
    Tail v c ∨ ∃ u, (θ v).Covers u ∧ Relation.TransGen Inside u t := by
  -- one level up from a part that mentions the metavariable
  have up : ∀ {p : Con} {s t : Ground}, p.Denotes θ s → Inside s t →
      (Tail v p ∨ ∃ u, (θ v).Covers u ∧ Relation.TransGen Inside u s) →
      ∃ u, (θ v).Covers u ∧ Relation.TransGen Inside u t := by
    rintro p s t hp hst (htail | ⟨u, hu, hus⟩)
    · exact ⟨s, tail_covers htail hp, .single hst⟩
    · exact ⟨u, hu, hus.tail hst⟩
  -- a part of a list that stands in a larger list
  have along : ∀ {s t : Ground}, s.Covers t → (∃ u, (θ v).Covers u ∧ Relation.TransGen Inside u s) →
      ∃ u, (θ v).Covers u ∧ Relation.TransGen Inside u t :=
    fun hst ⟨u, hu, hus⟩ => ⟨u, hu, hst.inside hus⟩
  have split : ∀ {c : Con}, (∀ spine, c ≠ .mvar v spine) → c.Mentions v →
      ∃ p ∈ c.parts, p.Mentions v := fun hne hv =>
    (mentions_iff.mp hv).resolve_left fun ⟨spine, hspine⟩ => hne spine hspine
  induction hc with
  | prim | bvar | skolem | tupleNil | rowNil =>
    obtain ⟨p, hp, -⟩ := split (by simp) hv
    cases hp
  | mvar w =>
    rcases mentions_iff.mp hv with ⟨spine, hspine⟩ | ⟨p, hp, -⟩
    · cases hspine
      exact .inl (.here [])
    · cases hp
  | @app a b s t ha hb iha ihb =>
    obtain ⟨p, hp, hpv⟩ := split (by simp) hv
    rcases List.mem_pair.mp hp with rfl | rfl
    · exact .inr (up ha (.function s t) (iha hpv))
    · exact .inr (up hb (.argument s t) (ihb hpv))
  | @arrow a b s t ha hb iha ihb =>
    obtain ⟨p, hp, hpv⟩ := split (by simp) hv
    rcases List.mem_pair.mp hp with rfl | rfl
    · exact .inr (up ha (.domain s t) (iha hpv))
    · exact .inr (up hb (.codomain s t) (ihb hpv))
  | abs ha ih | poly ha ih | record ha ih | variant ha ih =>
    obtain ⟨p, hp, hpv⟩ := split (by simp) hv
    cases List.mem_singleton.mp hp
    exact .inr (up ha (by constructor) (ih hpv))
  | @tupleCons c cs t ts hc hcs ihc ihcs =>
    obtain ⟨p, hp, hpv⟩ := split (by simp) hv
    rcases List.mem_cons.mp hp with rfl | hp
    · exact .inr (up hc (.component (by simp)) (ihc hpv))
    · refine .inr
        (along (s := .tuple ts) (fun u hu => ?_) ((ihcs (.part hp hpv)).resolve_left nofun))
      cases hu with
      | component hu => exact .component (List.mem_cons_of_mem _ hu)
  | @rowCons k x value fields t f h hvalue hfields hjoin ihvalue ihfields =>
    obtain ⟨p, hp, hpv⟩ := split (by simp) hv
    rcases List.mem_append.mp hp with hp | hp
    · rcases List.mem_pair.mp hp with rfl | rfl
      · obtain ⟨q, hq, -⟩ := split (by simp) hpv
        cases hq
      · exact .inr (up hvalue (.field (x := x) (hjoin.subset_left (if_pos rfl))) (ihvalue hpv))
    · refine .inr (along (s := .row f) ?_ ((ihfields (.part hp hpv)).resolve_left nofun))
      exact covers_of_subset fun _ _ => hjoin.subset_right
  | @concat l r a b h hl hr hjoin ihl ihr =>
    obtain ⟨p, hp, hpv⟩ := split (by simp) hv
    rcases List.mem_pair.mp hp with rfl | rfl
    · refine (ihl hpv).imp (.left r) (along ?_)
      exact covers_of_subset fun _ _ => hjoin.subset_left
    · refine (ihr hpv).imp (.right l) (along ?_)
      exact covers_of_subset fun _ _ => hjoin.subset_right

/-- Nothing is made of itself. -/
theorem not_mentions (hc : c.Denotes θ (θ v)) (hrow : c.tails = 0 ∨ c.hasField = true) :
    ¬ c.Mentions v := by
  intro hv
  rcases hc.inside_of_mentions hv with htail | ⟨u, hcovers, hu⟩
  · have hfield := hrow.resolve_left (Nat.ne_of_gt htail.tails_pos)
    obtain ⟨h, hh⟩ : ∃ h, θ v = .row h := by
      cases htail with
      | here => cases hfield
      | left | right =>
        generalize θ v = t at hc
        cases hc
        exact ⟨_, rfl⟩
    obtain ⟨f, x, t, hf, hnone, hsome⟩ := tail_proper htail hfield (hh ▸ hc)
    rw [hh] at hf
    cases hf
    rw [hnone] at hsome
    cases hsome
  · obtain ⟨w, huw, hw⟩ := Relation.TransGen.tail'_iff.mp hu
    exact not_inside_self u (Relation.TransGen.tail' huw (hcovers w hw))

end Con.Denotes

/-! ## Renaming -/

namespace Con

variable {store : Store} {c c' : Con}

/-- Renaming has succeeded so far, or the metavariable occurs, or a variable is free. -/
private def failing (root : Con) (target : MetaId) : Discipline RenameState where
  Ok state := state.outcome = .renamed ∨ state.outcome = .occurs ∧ root.Mentions target ∨
    state.outcome = .escape ∧ root.bound ≠ 0
  Grows _ _ := True
  refl _ _ := trivial
  trans _ _ _ _ _ := trivial

/-- The specification of renaming a part of `root`. -/
private def failingSpec (store : Store) (root : Con) (target : MetaId) : PassSpec RenameState where
  Pre _ depth c := c.Plain store ∧ (c.Mentions target → root.Mentions target) ∧
    (root.bound = 0 → c.bound ≤ depth.con)
  KindPre _ _ _ := True
  Enters _ _ _ := True
  Post _ _ _ _ := True
  KindPost _ _ _ _ := True

/-- Renaming a first-order constructor fails only if the metavariable occurs in it or a variable is
free in it. -/
theorem renameFor_plain {target : MetaId} {fuel : Nat} {state : RenameState} (hc : c.Plain store)
    (h : c.renameFor target [] fuel = some (c', state)) :
    state.outcome = .renamed ∨ state.outcome = .occurs ∧ c.Mentions target ∨
      state.outcome = .escape ∧ c.bound ≠ 0 := by
  cases fuel with
  | zero => cases h
  | succ fuel =>
  have hexec : exec (c.renameAt target [] (fuel + 1) false Depth.zero) RenameState.start =
      some (some c', state) := by
    change Option.map _ (c.renameFor target [] (fuel + 1)) = _
    rw [h]
    rfl
  have hpass : Yields (failing c target) RenameState.start
      (c.renameAt target [] (fuel + 1) false Depth.zero) fun _ _ => True := by
    refine Pass.rebuildM_yields (S := failingSpec store c target) ?_ c (.inl rfl)
      ⟨hc, id, fun h => h ▸ Nat.zero_le _⟩
    exact
    { pre_grows := fun _ _ h => h
      kindPre_grows := fun _ _ h => h
      enters_grows := fun _ _ h => h
      post_grows := fun _ _ h => h
      kindPost_grows := fun _ _ h => h
      pre_part := fun h hp => ⟨h.1.part hp, fun hv => h.2.1 (.part hp hv),
        fun hroot => (bound_le_iff_parts.mp (h.2.2 hroot)).2 _ hp⟩
      pre_kind := fun _ _ => trivial
      node_yields := by
        rintro state depth node ok ⟨hnode, hmentions, hbound⟩
        refine Yields.read (rfl : exec get state = some (some state, state)) ok ?_
        split
        next => exact Yields.pure ok trivial
        next =>
        split
        next => exact Yields.pure ok trivial
        next =>
        split
        next i _ =>
          split
          next => exact Yields.pure ok trivial
          next hi =>
            refine Yields.of_exec rfl (.inr (.inr ⟨rfl, fun hroot => hi ?_⟩)) trivial trivial
            exact (bound_le_iff_parts.mp (hbound hroot)).1 i rfl
        next v spine _ =>
          split
          next hv =>
            refine Yields.of_exec rfl (.inr (.inl ⟨rfl, hmentions ?_⟩)) trivial trivial
            exact hv ▸ .here spine
          next =>
            have hspine : spine = [] := by
              rcases hnode with ⟨x, hx⟩ | ⟨Γ, g, hnode⟩
              · cases hx
              · exact hnode.spine_eq
            subst hspine
            refine Yields.read (rfl : exec (pure [] : RenameM (List Con)) state = _) ok ?_
            refine Yields.read (rfl : exec get state = some (some state, state)) ok ?_
            rw [if_neg (by rcases ok with h | ⟨h, -⟩ | ⟨h, -⟩ <;> simp [h])]
            exact Yields.pure ok trivial
        next => exact Yields.pure ok trivial
      kind_yields := fun ok _ => Yields.pure ok trivial
      close := fun _ _ _ _ => trivial }
  exact (hpass _ _ hexec).1

end Con

/-! ## Computations that decide -/

namespace Unify

variable {α β : Type} {goal : (MetaId → Ground) → Prop} {store store' store'' : Store}
  {postponed : List Postponed}

/-- The goal is about the first `n` metavariables. -/
def Local (n : Nat) (goal : (MetaId → Ground) → Prop) : Prop :=
  ∀ θ θ', (∀ i < n, θ i = θ' i) → goal θ → goal θ'

theorem Local.mono {n m : Nat} (h : Local n goal) (hle : n ≤ m) : Local m goal :=
  fun θ θ' hagree => h θ θ' fun i hi => hagree i (Nat.lt_of_lt_of_le hi hle)

theorem Local.and {n : Nat} {goal' : (MetaId → Ground) → Prop} (h : Local n goal)
    (h' : Local n goal') : Local n fun θ => goal θ ∧ goal' θ :=
  fun θ θ' hagree hgoal => ⟨h θ θ' hagree hgoal.1, h' θ θ' hagree hgoal.2⟩

theorem local_agree {Γ : List Kind} {g : Kind} {a b : Con} (ha : a.FirstOrder store Γ g)
    (hb : b.FirstOrder store Γ g) :
    Local store.cells.size fun θ => a.Agree θ b := by
  rintro θ θ' hagree ⟨t, hat, hbt⟩
  exact ⟨t, (ha.denotes_congr hagree).mp hat, (hb.denotes_congr hagree).mp hbt⟩

/-- The solutions of the second store are solutions of the first one, and all those of the first one
that meet the goal, as far as the metavariables of the first one are concerned. -/
structure Refines (goal : (MetaId → Ground) → Prop) (store store' : Store) : Prop
    extends store.Extends store' where
  back : ∀ θ, store'.SolvedBy θ → store.SolvedBy θ
  forth : ∀ θ, store.SolvedBy θ → goal θ →
    ∃ θ', (∀ i < store.cells.size, θ i = θ' i) ∧ store'.SolvedBy θ'

namespace Refines

theorem of_respells (h : store.Respells store') : Refines goal store store' :=
  ⟨h.toExtends, fun θ hθ => (h.solvedBy θ).mp hθ,
    fun θ hθ _ => ⟨θ, fun _ _ => rfl, (h.solvedBy θ).mpr hθ⟩⟩

theorem refl (store : Store) : Refines goal store store := .of_respells (.refl store)

theorem trans (hlocal : Local store.cells.size goal) (h : Refines goal store store')
    (h' : Refines goal store' store'') : Refines goal store store'' where
  toExtends := h.toExtends.trans h'.toExtends
  back θ hθ := h.back θ (h'.back θ hθ)
  forth θ hθ hgoal := by
    obtain ⟨θ', hagree, hθ'⟩ := h.forth θ hθ hgoal
    obtain ⟨θ'', hagree', hθ''⟩ := h'.forth θ' hθ' (hlocal θ θ' hagree hgoal)
    refine ⟨θ'', fun i hi => ?_, hθ''⟩
    exact (hagree i hi).trans (hagree' i (Nat.lt_of_lt_of_le hi h.size))

end Refines

/-- The computation postpones nothing.  It fails only if no solution of the store meets the goal;
otherwise it refines the store to the solutions that meet the goal, or to more than these. -/
def Decides (goal : (MetaId → Ground) → Prop) (postponed : List Postponed) (store : Store)
    (x : UnifyM α) (Post : α → Store → Prop) : Prop :=
  Local store.cells.size goal → ∀ r postponed' store',
    exec x (postponed, store) = some (r, postponed', store') →
      postponed' = postponed ∧ (r = none → ∀ θ, store.SolvedBy θ → ¬ goal θ) ∧
        ∀ a, r = some a → store'.FirstOrder ∧ Refines goal store store' ∧ Post a store'

namespace Decides

variable {x : UnifyM α} {f : α → UnifyM β} {Post Mid : α → Store → Prop}
  {Post' : β → Store → Prop}

theorem pure {a : α} (ok : store.FirstOrder) (h : Post a store) :
    Decides goal postponed store (Pure.pure a : UnifyM α) Post := by
  intro _ r postponed' store' hexec
  rw [exec_pure] at hexec
  cases hexec
  refine ⟨rfl, nofun, ?_⟩
  rintro _ ⟨⟩
  exact ⟨ok, .refl store, h⟩

theorem bind (hx : Decides goal postponed store x Mid)
    (hf : ∀ a store', store'.FirstOrder → Refines goal store store' → Mid a store' →
      Decides goal postponed store' (f a) Post') :
    Decides goal postponed store (x >>= f) Post' := by
  intro hlocal r postponed' store'' hexec
  rw [exec_bind] at hexec
  rcases hrun : exec x (postponed, store) with _ | ⟨_ | a, postponed₁, store₁⟩
  · rw [hrun] at hexec
    cases hexec
  · rw [hrun] at hexec
    cases hexec
    obtain ⟨hpostponed, hfails, -⟩ := hx hlocal _ _ _ hrun
    exact ⟨hpostponed, fun _ => hfails rfl, nofun⟩
  · rw [hrun] at hexec
    obtain ⟨rfl, -, hsucceeds⟩ := hx hlocal _ _ _ hrun
    obtain ⟨ok₁, refines, mid⟩ := hsucceeds a rfl
    have hlocal₁ : Local store₁.cells.size goal := fun θ θ' hagree =>
      hlocal θ θ' fun i hi => hagree i (Nat.lt_of_lt_of_le hi refines.size)
    obtain ⟨hpostponed, hfails, hsucceeds⟩ := hf a store₁ ok₁ refines mid hlocal₁ _ _ _ hexec
    refine ⟨hpostponed, fun hr θ hθ hgoal => ?_, fun b hb => ?_⟩
    · obtain ⟨θ', hagree, hθ'⟩ := refines.forth θ hθ hgoal
      exact hfails hr θ' hθ' (hlocal θ θ' hagree hgoal)
    · obtain ⟨ok₂, refines₂, post⟩ := hsucceeds b hb
      exact ⟨ok₂, refines.trans hlocal refines₂, post⟩

theorem mono {Post' : α → Store → Prop} (hx : Decides goal postponed store x Post)
    (himp : ∀ a store', Refines goal store store' → Post a store' → Post' a store') :
    Decides goal postponed store x Post' := by
  intro hlocal r postponed' store' hexec
  obtain ⟨hpostponed, hfails, hsucceeds⟩ := hx hlocal r postponed' store' hexec
  refine ⟨hpostponed, hfails, fun a ha => ?_⟩
  obtain ⟨ok, refines, post⟩ := hsucceeds a ha
  exact ⟨ok, refines, himp a store' refines post⟩

theorem of_none (h : exec x (postponed, store) = none) : Decides goal postponed store x Post := by
  intro _ r postponed' store' hexec
  rw [h] at hexec
  cases hexec

/-- A failure is right if there is nothing to find. -/
theorem mismatch {a b : Con} {reason : MismatchReason}
    (h : ∀ θ, store.SolvedBy θ → ¬ goal θ) :
    Decides goal postponed store (Unify.mismatch a b reason : UnifyM α) Post := by
  intro _ r postponed' store' hexec
  have hrun : exec (Unify.mismatch a b reason : UnifyM α) (postponed, store) =
      some (none, postponed, store) := rfl
  rw [hrun] at hexec
  cases hexec
  exact ⟨rfl, fun _ => h, nofun⟩

/-- A step whose outcome is known and that only respells the store. -/
theorem next {a : α} (hrun : exec x (postponed, store) = some (some a, postponed, store'))
    (ok : store'.FirstOrder) (respells : store.Respells store')
    (hf : Decides goal postponed store' (f a) Post') :
    Decides goal postponed store (x >>= f) Post' := by
  have hx : Decides goal postponed store x fun b store'' => b = a ∧ store'' = store' := by
    intro _ r postponed' store'' hexec
    rw [hrun] at hexec
    cases hexec
    refine ⟨rfl, nofun, ?_⟩
    rintro _ ⟨⟩
    exact ⟨ok, .of_respells respells, rfl, rfl⟩
  refine hx.bind ?_
  rintro _ _ - - ⟨rfl, rfl⟩
  exact hf

theorem read {a : α} (hrun : exec x (postponed, store) = some (some a, postponed, store))
    (ok : store.FirstOrder) (hf : Decides goal postponed store (f a) Post') :
    Decides goal postponed store (x >>= f) Post' :=
  .next hrun ok (.refl store) hf

/-- A computation that reads solutions. -/
theorem of_fuelM {x : FuelM α} (hx : Yields Store.respelling store x Post) :
    Decides goal postponed store (liftM x) fun a store' =>
      store.Respells store' ∧ Post a store' := by
  intro _ r postponed' store' hexec
  rw [exec_fuelM, Option.map_eq_some_iff] at hexec
  obtain ⟨⟨r, store'⟩, hrun, hstate⟩ := hexec
  cases hstate
  obtain ⟨⟨a, store'⟩, ha, hr⟩ := Option.map_eq_some_iff.mp hrun
  cases hr
  obtain ⟨ok, respells, post⟩ := hx _ _ hrun
  refine ⟨rfl, nofun, ?_⟩
  rintro _ ⟨⟩
  exact ⟨ok, .of_respells respells, respells, post a rfl⟩

end Decides

/-! ## Solving a metavariable -/

variable {Γ : List Kind} {g : Kind} {c : Con} {v : MetaId}

/-- The outermost form of a first-order constructor tells its kind. -/
theorem kindOfHead_known {k : Kind} (hc : c.FirstOrder store Γ g)
    (h : kindOfHead? store c = some k) : k.Known store.kinds g := by
  cases hc with
  | prim | arrow | poly | record | variant =>
    cases h
    exact .type
  | bvar | skolem | app | abs | tupleNil | tupleCons | concat => cases h
  | mvar _ _ hkind =>
    cases h
    exact hkind
  | rowNil hk =>
    cases h
    exact .record hk
  | rowCons _ hfields =>
    cases h
    rename_i fields _
    induction fields with
    | nil =>
      cases hfields with
      | rowNil hk => exact .record hk
    | cons _ _ ih =>
      cases hfields with
      | rowCons _ hfields => exact ih hfields

theorem unifyKinds_decides (fuel : Nat) (ok : store.FirstOrder) {k k' : Kind}
    (hk : k.Known store.kinds g) (hk' : k'.Known store.kinds g) :
    Decides goal postponed store (unifyKinds fuel k k') fun _ store' => store.Respells store' := by
  intro _ r postponed' store' hexec
  rw [exec_unifyKinds, Option.map_eq_some_iff] at hexec
  obtain ⟨⟨r, kinds⟩, hrun, hstate⟩ := hexec
  cases hstate
  obtain ⟨rfl, keeps⟩ := KindStore.unify_succeeds fuel hk hk' r kinds hrun
  obtain ⟨ok', respells⟩ := Store.respells_withKinds ok keeps
  refine ⟨rfl, nofun, ?_⟩
  rintro _ ⟨⟩
  exact ⟨ok', .of_respells respells, respells⟩

/-- The solutions after a cell has been solved. -/
theorem solvedBy_assigned (hv : v < store.cells.size) (hunsolved : store.solution? v = none)
    (x : Con) (θ : MetaId → Ground) :
    (store.assigned v x).SolvedBy θ ↔ store.SolvedBy θ ∧ x.Denotes θ (θ v) := by
  have hsolution : ∀ i, (store.assigned v x).solution? i =
      if i = v then some x else store.solution? i := Store.solution?_put hv x
  have hkind : ∀ i, ((store.assigned v x).cell i).kind = (store.cell i).kind :=
    Store.kind_put hv x
  constructor
  · intro hθ
    refine ⟨⟨hθ.closed, fun {i g} hi => hθ.rows (v := i) (hkind i ▸ hi), fun {i y} hi => ?_⟩, ?_⟩
    · refine hθ.solutions ?_
      rw [hsolution, if_neg, hi]
      rintro rfl
      rw [hunsolved] at hi
      cases hi
    · exact hθ.solutions (by rw [hsolution, if_pos rfl])
  · rintro ⟨hθ, hx⟩
    refine ⟨hθ.closed, fun {i g} hi => hθ.rows (v := i) (hkind i ▸ hi), fun {i y} hi => ?_⟩
    rw [hsolution] at hi
    split at hi
    next h =>
      cases hi
      exact h ▸ hx
    next => exact hθ.solutions hi

theorem firstOrder_assigned (ok : store.FirstOrder)
    (hv : (Con.mvar v []).FirstOrder store Γ g) (hunsolved : store.solution? v = none) {x : Con}
    (hx : x.FirstOrder store Γ g) (hclosed : x.bound = 0)
    (hmentions : ∀ j, x.Mentions j → j ≠ v ∧ store.isSolved j = false) :
    (store.assigned v x).FirstOrder ∧ store.Extends (store.assigned v x) := by
  cases hv with
  | mvar hv harity hkind =>
    have hbound : x.bound ≤ (store.cell v).arity := hclosed ▸ Nat.zero_le _
    obtain ⟨steady, -⟩ := ok.steady.solve hv hunsolved hx.fits hbound hmentions
    have same : Store.SameCells (store.put v x) (store.assigned v x) := ⟨rfl, rfl, rfl⟩
    have grows : store.Extends (store.assigned v x) :=
      ⟨by simp [same.cells], fun i _ => by rw [same.cell, Store.arity_put hv],
        fun i _ => by rw [same.cell, Store.kind_put hv], rfl, .refl _⟩
    refine ⟨⟨same.steady steady, fun {i y} hi => ?_⟩, grows⟩
    rw [same.solution?, Store.solution?_put hv] at hi
    rw [same.cell, Store.kind_put hv]
    split at hi
    next h =>
      cases hi
      exact ⟨g, h ▸ hkind, (hx.strengthen hclosed.le).mono grows⟩
    next =>
      obtain ⟨g', hg', hy⟩ := ok.solutions hi
      exact ⟨g', hg', hy.mono grows⟩

/-- Assigning a constructor that does not mention the metavariable. -/
theorem assign_decides {x : Con} {other : Con} (ok : store.FirstOrder)
    (hv : (Con.mvar v []).FirstOrder store Γ g) (hunsolved : store.isSolved v = false)
    (hx : x.FirstOrder store Γ g) (hclosed : x.bound = 0)
    (hmentions : ∀ j, x.Mentions j → j ≠ v ∧ store.isSolved j = false)
    (hgoal : ∀ θ, store.SolvedBy θ → goal θ → x.Denotes θ (θ v)) :
    Decides goal postponed store (do
      match ← (Store.assign v x).run with
      | .ok () => pure ()
      | .error _ => mismatch (.mvar v []) other .structural : UnifyM Unit) fun _ store' =>
      ∀ θ, store'.SolvedBy θ → x.Denotes θ (θ v) := by
  have hnone : store.solution? v = none := by simpa [Store.isSolved] using hunsolved
  have hlt : v < store.cells.size := by
    cases hv with
    | mvar hv => exact hv
  obtain ⟨ok', grows⟩ := firstOrder_assigned ok hv hnone hx hclosed hmentions
  have hsolved := solvedBy_assigned hlt hnone x
  have hassign : exec (liftM (Store.assign v x).run : UnifyM _) (postponed, store) =
      some (some ((Store.assign v x).run.run store).1, postponed,
        ((Store.assign v x).run.run store).2) := rfl
  rw [Store.assign_run, hnone] at hassign
  intro _ r postponed' store' hexec
  rw [exec_bind, hassign] at hexec
  cases hexec
  refine ⟨rfl, ?_, ?_⟩
  · rintro ⟨⟩
  rintro _ ⟨⟩
  refine ⟨ok', ⟨grows, fun θ hθ => ((hsolved θ).mp hθ).1, fun θ hθ hgoal' => ?_⟩,
    fun θ hθ => ((hsolved θ).mp hθ).2⟩
  exact ⟨θ, fun _ _ => rfl, (hsolved θ).mpr ⟨hθ, hgoal θ hθ hgoal'⟩⟩

/-- An unsolved metavariable stays what it is. -/
private theorem zonk_unsolved (fuel : Nat) (h : store.isSolved v = false) :
    Yields (.indifferent Store) store (Store.zonk fuel (.mvar v [])) fun c _ => c = .mvar v [] := by
  cases fuel with
  | zero => exact Yields.of_none rfl
  | succ fuel =>
    have hresolve : (Store.resolve (.mvar v [])).run store = (.mvar v [], store) := by
      refine Store.resolveWithin_unsolved ?_ _
      rintro i spine ⟨⟩
      exact h
    have hlift : ∀ f : Con → FuelM (Option Con),
        ((liftM (Store.resolve (.mvar v [])) : FuelM Con) >>= f).run store =
          (f (.mvar v [])).run store := by
      intro f
      change (f ((Store.resolve (.mvar v [])).run store).1).run
        ((Store.resolve (.mvar v [])).run store).2 = _
      rw [hresolve]
    have hhas : (Con.mvar v []).has .mvar = true := rfl
    have hrun : (Store.zonk (fuel + 1) (.mvar v [])).run store = some (.mvar v [], store) := by
      simp only [Store.zonk, Con.rebuildM, Con.orRebuild, hhas, Bool.true_or, Bool.not_true,
        Bool.false_eq_true, if_false, StateT.run_bind, hlift]
      simp [Con.rebuildListM]
    have hexec : exec (Store.zonk (fuel + 1) (.mvar v [])) store =
        some (some (.mvar v []), store) := congrArg (Option.map _) hrun
    exact Yields.of_exec hexec trivial trivial rfl

/-- What replaces a metavariable does not mention it, if a solution makes the two equal. -/
private theorem not_mentions_zonked {other zonked : Con} {θ : MetaId → Ground}
    (hother : other.FirstOrder store Γ g) (hshown : store.Shown other) (hne : other ≠ .mvar v [])
    (restates : store'.Restates Γ g other zonked) (hsame : other.isMVar = true → zonked = other)
    (hzonked : zonked.Denotes θ (θ v)) : ¬ zonked.Mentions v := by
  by_cases hmvar : other.isMVar = true
  · rw [hsame hmvar]
    intro hv
    cases hother with
    | mvar =>
      rcases Con.mentions_iff.mp hv with ⟨spine, hspine⟩ | ⟨p, hp, -⟩
      · cases hspine
        exact hne rfl
      · cases hp
    | _ => cases hmvar
  · refine hzonked.not_mentions ?_
    have htails := restates.tails
    cases hother with
    | mvar => exact absurd rfl hmvar
    | concat => exact .inr (restates.fields (hshown.concat rfl))
    | _ => exact .inl (Nat.le_zero.mp htails)

/-- Solving an unsolved metavariable by a constructor in head normal form. -/
theorem solve_decides (fuel depth : Nat) {other : Con} (ok : store.FirstOrder)
    (hv : (Con.mvar v []).FirstOrder store Γ g) (hunsolved : store.isSolved v = false)
    (hother : other.FirstOrder store Γ g) (hshown : store.Shown other) (hne : other ≠ .mvar v [])
    (hgoal : ∀ θ, store.SolvedBy θ → goal θ → other.Denotes θ (θ v)) :
    Decides goal postponed store (solve fuel depth v [] other) fun _ store' =>
      ∀ θ, store'.SolvedBy θ → other.Denotes θ (θ v) := by
  have hsame : Yields (.indifferent Store) store (Store.zonk fuel other) fun c _ =>
      other.isMVar = true → c = other := by
    by_cases hmvar : other.isMVar = true
    · cases hother with
      | mvar =>
        exact (zonk_unsolved fuel (hshown.unsolved _ _ rfl)).mono fun _ _ _ _ hc _ => hc
      | _ => cases hmvar
    · exact fun r store' _ => ⟨trivial, trivial, fun _ _ h => absurd h hmvar⟩
  refine .read (rfl : exec (liftM (patternVars []) : UnifyM _) (postponed, store) = _) ok ?_
  refine .bind (.of_fuelM ((Store.zonk_restates fuel ok hother).and
    ((Store.zonk_keeps fuel ok.steady hother.fits).and hsame))) ?_
  rintro zonked store₁ ok₁ - ⟨respells, restates, expanded, hsame⟩
  have hgoal₁ : ∀ θ, store₁.SolvedBy θ → goal θ → zonked.Denotes θ (θ v) := fun θ hθ hθ' =>
    (restates.denotes θ hθ (θ v)).mpr (hgoal θ ((respells.solvedBy θ).mp hθ) hθ')
  have hplain : zonked.Plain store₁ := .inr ⟨Γ, g, restates.firstOrder⟩
  split
  next => exact .of_none rfl
  next solution rename hrename =>
  split
  next houtcome =>
    refine .mismatch fun θ hθ hθ' => ?_
    have hfailed := Con.renameFor_plain hplain hrename
    simp only [houtcome, reduceCtorEq, false_or, false_and, or_false, true_and] at hfailed
    exact not_mentions_zonked hother hshown hne restates hsame (hgoal₁ θ hθ hθ') hfailed
  next houtcome =>
    -- a closed constructor has no free variable
    refine .mismatch fun θ hθ hθ' => ?_
    have hfailed := Con.renameFor_plain hplain hrename
    simp only [houtcome, reduceCtorEq, false_or, false_and, true_and] at hfailed
    exact hfailed (Nat.le_zero.mp ((hgoal₁ θ hθ hθ').bound_le (hθ.closed v)))
  next houtcome =>
    rcases Con.renameFor_plain hplain hrename with h | ⟨h, -⟩ | ⟨h, -⟩ <;> simp [houtcome] at h
  next houtcome =>
    have hrenamed := Con.renamed_of_renameFor hrename houtcome
    have hsolution : solution = zonked := (Con.instantiated_nil solution).symm.trans
      hrenamed.instantiates
    subst hsolution
    have hassign : ∀ {store₂}, store₂.FirstOrder → store₁.Respells store₂ → Decides goal postponed
        store₂ (do
          match ← (Store.assign v solution).run with
          | .ok () => pure ()
          | .error _ => mismatch (.mvar v []) other .structural : UnifyM Unit) fun _ store' =>
          ∀ θ, store'.SolvedBy θ → solution.Denotes θ (θ v) := by
      intro store₂ ok₂ respells₂
      have grows := respells.toExtends.trans respells₂.toExtends
      have hunsolved₂ : ∀ {i}, store₁.isSolved i = false → store₂.isSolved i = false := fun hi =>
        (respells₂.solved _).trans hi
      refine assign_decides ok₂ (hv.mono grows) (hunsolved₂ ((respells.solved v).trans hunsolved))
        (restates.firstOrder.mono respells₂.toExtends) (Nat.le_zero.mp hrenamed.bound)
        (fun j hj => ⟨?_, ?_⟩) ?_
      · exact fun h => hrenamed.avoids (h ▸ hj)
      · exact hunsolved₂ (expanded.unsolved hj)
      · exact fun θ hθ => hgoal₁ θ ((respells₂.solvedBy θ).mp hθ)
    suffices h : Decides goal postponed store₁ _ fun _ store' =>
        ∀ θ, store'.SolvedBy θ → solution.Denotes θ (θ v) from
      h.mono fun _ store' refines h θ hθ =>
        (restates.denotes θ (refines.back θ hθ) _).mp (h θ hθ)
    refine .read (rfl : exec getStore (postponed, store₁) = some (some store₁, _)) ok₁ ?_
    split
    next kind hkind =>
      have hcell : (store₁.cell v).kind.Known store₁.kinds g := by
        cases hv.mono respells.toExtends with
        | mvar _ _ hcell => exact hcell
      refine .read (rfl : exec getStore (postponed, store₁) = some (some store₁, _)) ok₁ ?_
      refine .bind
        (unifyKinds_decides fuel ok₁ hcell (kindOfHead_known restates.firstOrder hkind)) ?_
      exact fun _ store₂ ok₂ _ respells₂ => hassign ok₂ respells₂
    next => exact hassign ok₁ (.refl store₁)

/-! ## A new metavariable -/

theorem firstOrder_extended (ok : store.FirstOrder) (kind : Kind) :
    (store.extended kind 0).FirstOrder ∧ store.Extends (store.extended kind 0) := by
  have hcell : ∀ i < store.cells.size, (store.extended kind 0).cell i = store.cell i := by
    intro i hi
    rw [Store.cell_extended, if_neg (Nat.ne_of_lt hi)]
  have grows : store.Extends (store.extended kind 0) :=
    ⟨by simp [Store.extended], fun i hi => by rw [hcell i hi], fun i hi => by rw [hcell i hi],
      rfl, .refl _⟩
  refine ⟨⟨ok.steady.extended kind 0, fun {i x} hi => ?_⟩, grows⟩
  rw [Store.solution?_extended] at hi
  obtain ⟨g, hg, hx⟩ := ok.solutions hi
  exact ⟨g, by rwa [hcell i (Store.lt_of_solution hi)], hx.mono grows⟩

theorem firstOrder_fresh {kind : Kind} (hkind : kind.Known store.kinds g) :
    (Con.mvar store.cells.size []).FirstOrder (store.extended kind 0) Γ g := by
  have hcell : (store.extended kind 0).cell store.cells.size = ⟨kind, 0, none⟩ := by
    rw [Store.cell_extended, if_pos rfl]
  exact .mvar (by simp [Store.extended]) (by rw [hcell]) (by rwa [hcell])

/-- A new row metavariable stands for any row. -/
theorem solvedBy_extended {kind : Kind} (hkind : kind.Known store.kinds (.record g))
    (θ : MetaId → Ground) :
    (store.extended kind 0).SolvedBy θ ↔
      store.SolvedBy θ ∧ ∃ f, θ store.cells.size = .row f := by
  have hsolution : ∀ i, (store.extended kind 0).solution? i = store.solution? i :=
    Store.solution?_extended kind 0
  have hcell : ∀ i, (store.extended kind 0).cell i =
      if i = store.cells.size then ⟨kind, 0, none⟩ else store.cell i := Store.cell_extended kind 0
  constructor
  · refine fun hθ => ⟨⟨hθ.closed, fun {v g'} hv => ?_, fun {i x} hi => ?_⟩, ?_⟩
    · exact hθ.rows (g := g') (by rwa [hcell, if_neg (Nat.ne_of_lt (Store.lt_of_row hv))])
    · exact hθ.solutions ((hsolution i).trans hi)
    · exact hθ.rows (g := g) (by rwa [hcell, if_pos rfl])
  · rintro ⟨hθ, hnew⟩
    refine ⟨hθ.closed, fun {v g'} hv => ?_, fun {i x} hi =>
      hθ.solutions ((hsolution i).symm.trans hi)⟩
    rw [hcell] at hv
    split at hv
    next h => exact h ▸ hnew
    next => exact hθ.rows hv

/-- With a new row metavariable there is more to say about a solution. -/
theorem fresh_decides {α : Type} {f : Con → UnifyM α} {Post : α → Store → Prop}
    {extra : (MetaId → Ground) → Prop} {kind : Kind}
    (hkind : kind.Known store.kinds (.record g))
    (hlocal : Local (store.extended kind 0).cells.size extra)
    (hextra : ∀ θ, store.SolvedBy θ → goal θ → ∃ f : Fields, (Ground.row f).Closed 0 ∧
      ∀ θ', (∀ i < store.cells.size, θ i = θ' i) → θ' store.cells.size = .row f →
        (store.extended kind 0).SolvedBy θ' → extra θ')
    (hf : Decides (fun θ => goal θ ∧ extra θ) postponed (store.extended kind 0)
      (f (.mvar store.cells.size [])) Post) (ok : store.FirstOrder) :
    Decides goal postponed store (liftM (Store.freshWithSpine kind []) >>= f) Post := by
  intro hgoal r postponed' store' hexec
  obtain ⟨-, grows⟩ := firstOrder_extended ok kind
  have hsolved := solvedBy_extended hkind
  -- a solution goes on with a value for the new metavariable
  have hnew : ∀ θ, store.SolvedBy θ → goal θ → ∃ θ', (∀ i < store.cells.size, θ i = θ' i) ∧
      (store.extended kind 0).SolvedBy θ' ∧ goal θ' ∧ extra θ' := by
    intro θ hθ hθ'
    obtain ⟨f, hclosed, hf⟩ := hextra θ hθ hθ'
    have hagree : ∀ i < store.cells.size, θ i = Function.update θ store.cells.size (.row f) i :=
      fun i hi => (Function.update_of_ne (Nat.ne_of_lt hi) _ _).symm
    have hsolved' : (store.extended kind 0).SolvedBy
        (Function.update θ store.cells.size (.row f)) := by
      refine (hsolved _).mpr ⟨hθ.congr ok hagree fun i => ?_, f, Function.update_self ..⟩
      by_cases h : i = store.cells.size
      · rwa [h, Function.update_self]
      · rw [Function.update_of_ne h]
        exact hθ.closed i
    exact ⟨_, hagree, hsolved', hgoal θ _ hagree hθ',
      hf _ hagree (Function.update_self ..) hsolved'⟩
  have hrun : exec (liftM (Store.freshWithSpine kind []) : UnifyM Con) (postponed, store) =
      some (some (.mvar store.cells.size []), postponed, store.extended kind 0) := rfl
  rw [exec_bind, hrun] at hexec
  obtain ⟨hpostponed, hfails, hsucceeds⟩ :=
    hf ((hgoal.mono grows.size).and hlocal) r postponed' store' hexec
  refine ⟨hpostponed, fun hr θ hθ hθ' => ?_, fun a ha => ?_⟩
  · obtain ⟨θ', -, hsolved', hgoal'⟩ := hnew θ hθ hθ'
    exact hfails hr θ' hsolved' hgoal'
  · obtain ⟨ok', refines, post⟩ := hsucceeds a ha
    refine ⟨ok', ⟨grows.trans refines.toExtends, fun θ hθ => ?_, fun θ hθ hθ' => ?_⟩, post⟩
    · exact ((hsolved θ).mp (refines.back θ hθ)).1
    · obtain ⟨θ', hagree, hsolved', hgoal'⟩ := hnew θ hθ hθ'
      obtain ⟨θ'', hagree', hθ''⟩ := refines.forth θ' hsolved' hgoal'
      refine ⟨θ'', fun i hi => ?_, hθ''⟩
      exact (hagree i hi).trans (hagree' i (Nat.lt_of_lt_of_le hi grows.size))

end Unify

end RowML
