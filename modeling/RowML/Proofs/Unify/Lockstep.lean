import RowML.Proofs.Row.Lockstep
import RowML.Proofs.Unify.Equations
import RowML.Unify.Engine

/-!
# Unification side by side

Unification of twins solves the partners of the metavariables that it solves, makes partners of the
metavariables that it makes, fails when unification of the twins fails, and postpones equations when
that does.  For what reason it fails, and what exactly is postponed, depends on numbers no more than
the rest but is not compared.  Unification of rows pairs the same pieces of twins, and new tails and
new fields are partners, so the recursion of unification is the same for twins.
-/

namespace RowML

open Store (lockstep fuelledLockstep extending)

namespace Unify

variable {ρ ρ' : Renumbering} {c c' : Con} {i j : MetaId}

/-- The equations are between twins. -/
structure EquationTwin (ρ : Renumbering) (p p' : Postponed) : Prop where
  expected : p.expected.Twin ρ p'.expected
  found : p.found.Twin ρ p'.found

/-- Postponed equations that correspond one by one. -/
abbrev PostponedTwins (ρ : Renumbering) : List Postponed → List Postponed → Prop :=
  List.Forall₂ (EquationTwin ρ)

theorem PostponedTwins.mono {ps ps' : List Postponed} (hρ : ρ ≤ ρ') (h : PostponedTwins ρ ps ps') :
    PostponedTwins ρ' ps ps' :=
  h.imp fun _ _ hp => ⟨hp.expected.mono hρ, hp.found.mono hρ⟩

/-- Computations that unify twins. -/
abbrev unifying : Lifting (· ≤ ·) UnifyM :=
  (extending.stateT PostponedTwins).exceptT fun _ _ _ => True

section Rules

variable {α β γ δ : Type} {A : Renumbering → α → β → Prop} {B : Renumbering → γ → δ → Prop}

theorem lift_extending {x : FuelM α} {y : FuelM β} (h : extending.Rel ρ A x y) :
    unifying.Rel ρ A (liftM x) (liftM y) :=
  Lifting.exceptT_lift (Lifting.stateT_lift PostponedTwins.mono h)

/-- Sequencing after what makes no metavariables. -/
theorem bind_lift {x : FuelM α} {y : FuelM β} {f : α → UnifyM γ} {g : β → UnifyM δ}
    (h : fuelledLockstep.Rel ρ A x y) (hf : ∀ a b, A ρ a b → unifying.Rel ρ B (f a) (g b)) :
    unifying.Rel ρ B (liftM x >>= f) (liftM y >>= g) := by
  refine Lifting.bind_fuelled_still ?_ h hf
  exact PostponedTwins.mono

theorem mismatch_lockstep {a b a' b' : Con} {reason reason' : MismatchReason} :
    unifying.Rel ρ A (mismatch a b reason : UnifyM α) (mismatch a' b' reason' : UnifyM β) :=
  Lifting.exceptT_throw trivial

theorem postpone_lockstep {depth depth' : Nat} {a b a' b' : Con} {is js : List MetaId}
    (ha : a.Twin ρ a') (hb : b.Twin ρ b') :
    unifying.Rel ρ (fun _ _ _ => True) (postpone depth a b is) (postpone depth' a' b' js) :=
  fun _ _ hpq _ _ hst =>
    .some ⟨ρ, le_refl ρ, ⟨.ok trivial, List.rel_append hpq (.cons ⟨ha, hb⟩ .nil)⟩, hst⟩

end Rules

/-! ## Equations -/

theorem unifyKinds_lockstep (fuel : Nat) {k k' l l' : Kind} (hk : k.Twin ρ k') (hl : l.Twin ρ l') :
    unifying.Rel ρ (fun _ _ _ => True) (unifyKinds fuel k l) (unifyKinds fuel k' l') := by
  refine bind_lift (Store.onKindsFuelled_lockstep (KindStore.unify_lockstep fuel hk hl))
    fun r r' hr => ?_
  cases hr with
  | ok => exact unifying.pure trivial
  | error => exact Lifting.exceptT_throw trivial

theorem kindOfHead?_twins {s t : Store} (hst : Store.Mirrors ρ s t) (h : c.Twin ρ c') :
    Option.Rel (Kind.Twin ρ) (kindOfHead? s c) (kindOfHead? t c') := by
  cases h with
  | row hk _ => exact .some (.record hk)
  | mvar hi _ => exact .some (hst.cells hi).kind
  | unit => exact .some .unit
  | label => exact .some .name
  | prim | arrow | poly | kpoly | disjoint | record | variant => exact .some .type
  | _ => exact .none

theorem patternVars_lockstep {spine spine' : List Con}
    (h : List.Forall₂ (Con.Twin ρ) spine spine') :
    lockstep.Rel ρ (fun _ vars vars' => vars = vars') (patternVars spine) (patternVars spine') := by
  have hgo : ∀ seen, lockstep.Rel ρ (fun _ vars vars' => vars = vars') (patternVars.go seen spine)
      (patternVars.go seen spine') := by
    induction h with
    | nil => exact fun seen => lockstep.pure rfl
    | cons hc _ ih =>
      intro seen
      refine Lifting.bind_still (Store.resolve_lockstep hc) fun r r' hr => ?_
      cases hr with
      | bvar i =>
        simp only
        split
        · exact lockstep.pure rfl
        · exact ih _
      | _ => exact lockstep.pure rfl
  exact hgo []

theorem unsolvedHeads_lockstep {spine spine' : List Con}
    (h : List.Forall₂ (Con.Twin ρ) spine spine') :
    lockstep.Rel ρ (fun ρ => List.Forall₂ ρ.cells) (unsolvedHeads spine) (unsolvedHeads spine') :=
  Lifting.bind_still (Lifting.mapM h (fun hle h => hle ▸ h) fun _ hle _ _ hc => by
      subst hle
      exact Store.unsolvedHead_lockstep hc)
    fun _ _ hheads => lockstep.pure (List.rel_filterMap (fun _ _ h => h) hheads)

/-! ## Solving -/

/-- The run of a computation over a store inside one that unifies. -/
theorem run_lift_bind {α β : Type} (x : FuelM α) (f : α → UnifyM β) (p : List Postponed)
    (s : Store) : (liftM x >>= f : UnifyM β).run.run p s =
      (x s).bind fun r => (f r.1).run.run p r.2 := by
  change Option.bind (Option.bind (Option.bind (x s) _) _) _ = _
  rcases x s with _ | r <;> rfl

/-- The results of two computations that unify twins. -/
def Ended (ρ : Renumbering) (r q : (Except UnifyError Unit × List Postponed) × Store) : Prop :=
  ∃ ρ', ρ ≤ ρ' ∧ (ExceptRel (fun _ _ => True) (fun _ _ => True) r.1.1 q.1.1 ∧
    PostponedTwins ρ' r.1.2 q.1.2) ∧ Store.Twin ρ' r.2 q.2

/-- Assigning from particular stores, in which the solutions make no cycle. -/
theorem assign_ends {s t : Store} {p q : List Postponed} (hpq : PostponedTwins ρ p q)
    (hst : Store.Twin ρ s t) (hi : ρ.cells i j) (hc : c.Twin ρ c') (hs : (s.put i c).Acyclic)
    (ht : (t.put j c').Acyclic) {a b a' b' : Con} :
    Option.Rel (Ended ρ)
      ((do
        match ← (Store.assign i c).run with
        | .ok () => pure ()
        | .error _ => mismatch a b .structural : UnifyM Unit).run.run p s)
      ((do
        match ← (Store.assign j c').run with
        | .ok () => pure ()
        | .error _ => mismatch a' b' .structural : UnifyM Unit).run.run q t) := by
  have hrun : ∀ (i : MetaId) (c : Con) (s : Store) (p : List Postponed) (a b : Con),
      (do
        match ← (Store.assign i c).run with
        | .ok () => pure ()
        | .error _ => mismatch a b .structural : UnifyM Unit).run.run p s =
      (match ((Store.assign i c).run.run s).1 with
        | .ok () => pure ()
        | .error _ => mismatch a b .structural : UnifyM Unit).run.run p
          ((Store.assign i c).run.run s).2 := fun _ _ _ _ _ _ => rfl
  rw [hrun, hrun, Store.assign_run, Store.assign_run]
  have hends : ∀ {r r' : Except UnifyError Unit},
      ExceptRel (fun _ _ => True) (fun _ _ => True) r r' →
      Option.Rel (Ended ρ) (some ((r, p), s)) (some ((r', q), t)) :=
    fun h => .some ⟨ρ, le_refl ρ, ⟨h, hpq⟩, hst⟩
  have hsolution := hst.solution? hi
  generalize s.solution? i = x, t.solution? j = y at hsolution
  cases hsolution with
  | @some existing existing' hexisting =>
    by_cases heq : existing' = c'
    · simp only [(hexisting.eq_iff hc).mpr heq, heq, if_true]
      exact hends (.ok trivial)
    · simp only [mt (hexisting.eq_iff hc).mp heq, heq, if_false]
      exact hends (.error trivial)
  | none =>
    exact .some ⟨ρ, le_refl ρ, ⟨.ok trivial, hpq⟩,
      { hst.toMirrors.put hi hc with left := hs, right := ht }⟩

/-- Unifying kinds in particular stores, before anything that may depend on the cells. -/
theorem unifyKinds_ends {s t : Store} {p q : List Postponed} (hpq : PostponedTwins ρ p q)
    (hst : Store.Twin ρ s t) {fuel : Nat} {k k' l l' : Kind} (hk : k.Twin ρ k') (hl : l.Twin ρ l')
    {f g : Unit → UnifyM Unit}
    (hfg : ∀ ks ks' : KindStore, ks.Twin ρ ks' → Option.Rel (Ended ρ)
      ((f ()).run.run p { s with kinds := ks }) ((g ()).run.run q { t with kinds := ks' })) :
    Option.Rel (Ended ρ) ((unifyKinds fuel k l >>= f).run.run p s)
      ((unifyKinds fuel k' l' >>= g).run.run q t) := by
  simp only [unifyKinds, bind_assoc]
  rw [run_lift_bind, run_lift_bind]
  have hrun := KindStore.unify_lockstep fuel hk hl _ _ hst.kinds
  have hon : ∀ (s : Store) (k l : Kind), (onKindsFallibly (KindStore.unify fuel k l)).run s =
      ((KindStore.unify fuel k l).run.run s.kinds).map fun r => (r.1, { s with kinds := r.2 }) :=
    fun _ _ _ => rfl
  rw [hon, hon]
  change Option.Rel _ ((KindStore.unify fuel k l).run.run s.kinds)
    ((KindStore.unify fuel k' l').run.run t.kinds) at hrun
  generalize (KindStore.unify fuel k l).run.run s.kinds = x,
    (KindStore.unify fuel k' l').run.run t.kinds = y at hrun ⊢
  cases hrun with
  | none => exact .none
  | @some r r' h =>
    obtain ⟨_, rfl, h, hks⟩ := h
    obtain ⟨r, ks⟩ := r
    obtain ⟨r', ks'⟩ := r'
    cases h with
    | ok => exact hfg ks ks' hks
    | error => exact .some ⟨ρ, le_refl ρ, ⟨.error trivial, hpq⟩, hst.withKinds hks⟩

/-- The answer of a pass over all metavariables, renamed, solves its metavariable. -/
theorem acyclic_of_renamed {s s' : Store} (acyclic : s.Acyclic) {fuel : Nat} {other zonked : Con}
    (hzonk : Store.zonk fuel other s = some (zonked, s')) {vars : List Nat} {state : RenameState}
    (hrename : zonked.renameFor i vars fuel = some (c, state))
    (hrenamed : state.outcome = .renamed) :
    (s'.put i c).Acyclic := by
  have hexec : exec (Store.zonk fuel other) s = some (some zonked, s') := by
    change Option.map _ (Store.zonk fuel other s) = _
    rw [hzonk]
    rfl
  obtain ⟨acyclic', -, hunsolved⟩ := Store.zonk_traces fuel other acyclic _ _ hexec
  exact acyclic'.put_renamed (hunsolved zonked rfl) (Con.renamed_of_renameFor hrename hrenamed)

/-- Solving with a renamed constructor. -/
theorem solved_ends {s t : Store} {p q : List Postponed} (hpq : PostponedTwins ρ p q)
    (hst : Store.Twin ρ s t) (hi : ρ.cells i j) (hc : c.Twin ρ c') (hs : (s.put i c).Acyclic)
    (ht : (t.put j c').Acyclic) {fuel : Nat} {a b a' b' : Con} :
    Option.Rel (Ended ρ)
      ((do
        match kindOfHead? (← getStore) c with
        | some kind => unifyKinds fuel ((← getStore).cell i).kind kind
        | none => pure ()
        match ← (Store.assign i c).run with
        | .ok () => pure ()
        | .error _ => mismatch a b .structural : UnifyM Unit).run.run p s)
      ((do
        match kindOfHead? (← getStore) c' with
        | some kind => unifyKinds fuel ((← getStore).cell j).kind kind
        | none => pure ()
        match ← (Store.assign j c').run with
        | .ok () => pure ()
        | .error _ => mismatch a' b' .structural : UnifyM Unit).run.run q t) := by
  have hread : ∀ (f : Store → UnifyM Unit) (p : List Postponed) (s : Store),
      (getStore >>= f).run.run p s = (f s).run.run p s := fun f p s => run_lift_bind get f p s
  have hkind := kindOfHead?_twins hst.toMirrors hc
  rw [hread, hread]
  generalize kindOfHead? s c = kind, kindOfHead? t c' = kind' at hkind ⊢
  cases hkind with
  | some hkind =>
    simp only
    rw [hread, hread]
    refine unifyKinds_ends hpq hst (hst.cells hi).kind hkind fun ks ks' hks => ?_
    exact assign_ends hpq (hst.withKinds hks) hi hc hs ht
  | none => exact assign_ends hpq hst hi hc hs ht

theorem solve_lockstep (fuel depth : Nat) (hi : ρ.cells i j) {spine spine' : List Con}
    (hspine : List.Forall₂ (Con.Twin ρ) spine spine') (h : c.Twin ρ c') :
    unifying.Rel ρ (fun _ _ _ => True) (solve fuel depth i spine c)
      (solve fuel depth j spine' c') := by
  refine bind_lift (patternVars_lockstep hspine) fun vars vars' hvars => ?_
  subst hvars
  cases vars with
  | none =>
    exact bind_lift (unsolvedHeads_lockstep hspine) fun _ _ _ =>
      postpone_lockstep (.mvar hi hspine) h
  | some vars =>
    intro p q hpq s t hst
    change Option.Rel (Ended ρ) ((liftM (Store.zonk fuel c) >>= _ : UnifyM Unit).run.run p s)
      ((liftM (Store.zonk fuel c') >>= _ : UnifyM Unit).run.run q t)
    rw [run_lift_bind, run_lift_bind]
    have hzonk := Store.zonk_lockstep fuel h s t hst
    rcases hs : Store.zonk fuel c s with _ | ⟨zonked, s'⟩ <;>
      rcases ht : Store.zonk fuel c' t with _ | ⟨zonked', t'⟩ <;> rw [hs, ht] at hzonk
    · exact .none
    · cases hzonk
    · cases hzonk
    obtain ⟨_, rfl, hzonked, hst'⟩ :
        ∃ ρ', ρ = ρ' ∧ zonked.Twin ρ' zonked' ∧ Store.Twin ρ' s' t' := by
      cases hzonk with
      | some h => exact h
    simp only [Option.bind_some]
    have hrename := Con.renameFor_lockstep hi vars fuel hzonked
    rcases hr : zonked.renameFor i vars fuel with _ | ⟨solution, state⟩ <;>
      rcases hr' : zonked'.renameFor j vars fuel with _ | ⟨solution', state'⟩ <;>
        rw [hr, hr'] at hrename
    · exact .none
    · cases hrename
    · cases hrename
    obtain ⟨hsolution, hstate⟩ : solution.Twin ρ solution' ∧ state.Twin ρ state' := by
      cases hrename with
      | some h => exact h
    have hsolves := fun h => acyclic_of_renamed hst.left hs hr h
    have hsolves' := fun h => acyclic_of_renamed hst.right ht hr' h
    rw [← hstate.outcome] at hsolves'
    simp only [← hstate.outcome]
    generalize state.outcome = outcome at hsolves hsolves' ⊢
    cases outcome with
    | occurs | escape => exact mismatch_lockstep p q hpq s' t' hst'
    | stuck => exact postpone_lockstep (.mvar hi hspine) h p q hpq s' t' hst'
    | renamed =>
      exact solved_ends hpq hst' hi hsolution (hsolves rfl) (hsolves' rfl)

variable {globals globals' : Globals}

/-! ## Leftovers -/

open Row (Twins)

/-- The same leftovers. -/
structure Leftover.Twin (ρ : Renumbering) (side side' : Leftover) : Prop where
  fields : List.Forall₂ (Both (Con.Twin ρ)) side.fields side'.fields
  rests : Twins ρ side.rests side'.rests

namespace Leftover.Twin

variable {side side' : Leftover}

theorem mono (h : side.Twin ρ side') (hρ : ρ ≤ ρ') : side.Twin ρ' side' :=
  ⟨h.fields.imp fun _ _ hfield => ⟨hfield.fst.mono hρ, hfield.snd.mono hρ⟩,
    h.rests.imp fun _ _ hp => hp.mono hρ⟩

theorem ofPieces {ps ps' : List Piece} (h : Twins ρ ps ps') :
    (Leftover.ofPieces ps).Twin ρ (Leftover.ofPieces ps') :=
  ⟨Row.fields_twins h, Row.unnamed_twins h⟩

theorem pieces (h : side.Twin ρ side') : Twins ρ side.pieces side'.pieces :=
  List.rel_append (List.rel_map (fun _ _ hfield => .field hfield.fst hfield.snd) h.fields) h.rests

theorem isEmpty_eq (h : side.Twin ρ side') : side.isEmpty = side'.isEmpty := by
  simp only [Leftover.isEmpty, isEmpty_eq_of_forall₂ h.fields, isEmpty_eq_of_forall₂ h.rests]

theorem onlyFlex_eq (h : side.Twin ρ side') : side.onlyFlex = side'.onlyFlex := by
  have hall : side.rests.all Piece.isFlex = side'.rests.all Piece.isFlex := by
    have hrests := h.rests
    generalize side.rests = ps, side'.rests = ps' at hrests
    induction hrests with
    | nil => rfl
    | cons hp _ ih => simp only [List.all_cons, hp.isFlex_eq, ih]
  simp only [Leftover.onlyFlex, isEmpty_eq_of_forall₂ h.fields, hall]

theorem blockers (h : side.Twin ρ side') : List.Forall₂ ρ.cells side.blockers side'.blockers :=
  Row.blockers_twins h.pieces

end Leftover.Twin

/-! ## Pairs of pieces -/

theorem takeField_twins {name name' : Con} (hname : name.Twin ρ name') {ps ps' : List Piece}
    (h : Twins ρ ps ps') :
    Option.Rel (fun r r' => r.1.Twin ρ r'.1 ∧ Twins ρ r.2 r'.2) (takeField name ps)
      (takeField name' ps') := by
  induction h with
  | nil => exact .none
  | @cons p p' ps ps' hp hps ih =>
    have hskip : Option.Rel (fun r r' => r.1.Twin ρ r'.1 ∧ Twins ρ r.2 r'.2)
        ((takeField name ps).map fun found => (found.1, p :: found.2))
        ((takeField name' ps').map fun found => (found.1, p' :: found.2)) :=
      optionRel_map ih fun _ _ hr => ⟨hr.1, .cons hp hr.2⟩
    cases hp with
    | field hother hvalue =>
      simp only [takeField, hother.eq_iff hname]
      split
      · exact .some ⟨hvalue, hps⟩
      · exact hskip
    | atom | flex | error => exact hskip

theorem takeRest_twins (hc : c.Twin ρ c') {ps ps' : List Piece} (h : Twins ρ ps ps') :
    Option.Rel (Twins ρ) (takeRest c ps) (takeRest c' ps') := by
  induction h with
  | nil => exact .none
  | @cons p p' _ _ hp hps ih =>
    have heq : p.rest? = some c ↔ p'.rest? = some c' := by
      have hrest := hp.rest?
      generalize p.rest? = r, p'.rest? = r' at hrest
      cases hrest with
      | some hr => simp only [Option.some.injEq, hr.eq_iff hc]
      | none => simp
    simp only [takeRest, heq]
    split
    · exact .some hps
    · exact optionRel_map ih fun _ _ hr => .cons hp hr

theorem cancelRests_twins {ls ls' rs rs' : List Piece} (hls : Twins ρ ls ls')
    (hrs : Twins ρ rs rs') :
    Both (Twins ρ) (cancelRests ls rs) (cancelRests ls' rs') := by
  induction hls generalizing rs rs' with
  | nil => exact .intro .nil hrs
  | @cons p p' _ _ hp hps ih =>
    have htake : Option.Rel (Twins ρ) (p.rest?.bind (takeRest · rs))
      (p'.rest?.bind (takeRest · rs')) :=
      optionRel_bind hp.rest? fun _ _ hc => takeRest_twins hc hrs
    simp only [cancelRests]
    generalize p.rest?.bind _ = r, p'.rest?.bind _ = r' at htake ⊢
    cases htake with
    | some hr => exact ih hr
    | none => exact .intro (.cons hp (ih hrs).fst) (ih hrs).snd

/-! ## Steps of the unification of rows -/

/-- The remainder is one metavariable. -/
def IsTail (rests : List Piece) : Prop := ∃ i spine v, rests = [.flex (.mvar i spine) v]

theorem tail_cases {rests rests' : List Piece} (h : Twins ρ rests rests') :
    (∃ i j spine spine' v w, rests = [.flex (.mvar i spine) v] ∧
      rests' = [.flex (.mvar j spine') w] ∧ ρ.cells i j ∧ List.Forall₂ (Con.Twin ρ) spine spine') ∨
    ¬ IsTail rests ∧ ¬ IsTail rests' := by
  by_cases htail : IsTail rests
  · obtain ⟨i, spine, v, rfl⟩ := htail
    cases h with
    | cons hp hrest =>
      cases hrest
      cases hp with
      | flex hc _ =>
        cases hc with
        | mvar hi hspine => exact .inl ⟨_, _, _, _, _, _, rfl, rfl, hi, hspine⟩
  · refine .inr ⟨htail, ?_⟩
    rintro ⟨j, spine', w, rfl⟩
    cases h with
    | cons hp hrest =>
      cases hrest
      cases hp with
      | flex hc _ =>
        cases hc with
        | mvar => exact htail ⟨_, _, _, rfl⟩

theorem elementKind_lockstep (hi : ρ.cells i j) :
    unifying.Rel ρ (fun ρ' k k' => ρ' = ρ ∧ k.Twin ρ k') (elementKind i) (elementKind j) := by
  refine bind_lift Lifting.fuelled_get fun s t hst => ?_
  refine bind_lift (Store.onKinds_lockstep (KindStore.resolve_lockstep (hst.cells hi).kind))
    fun r r' hr => ?_
  cases hr with
  | record helement => exact unifying.pure ⟨rfl, helement⟩
  | _ => exact unifying.pure ⟨rfl, .type⟩

theorem common_twins {spine spine' others others' : List Con}
    (h : List.Forall₂ (Con.Twin ρ) spine spine')
    (hothers : List.Forall₂ (Con.Twin ρ) others others') :
    List.Forall₂ (Con.Twin ρ) (spine.filter (others.contains ·))
      (spine'.filter (others'.contains ·)) := by
  refine List.rel_filter (fun c c' hc => ?_) h
  simp only [List.contains_iff_mem]
  induction hothers with
  | nil => simp
  | cons ha _ ih => simp only [List.mem_cons, hc.eq_iff ha, ih]

/-- The remainder is a map over a row. -/
def IsMap (rests : List Piece) : Prop := ∃ d e f row v, rests = [.flex (.map d e f row) v]

theorem map_cases {rests rests' : List Piece} (h : Twins ρ rests rests') :
    (∃ d d' e e' f f' row row' v w, rests = [.flex (.map d e f row) v] ∧
      rests' = [.flex (.map d' e' f' row') w] ∧ d.Twin ρ d' ∧ row.Twin ρ row') ∨
    ¬ IsMap rests ∧ ¬ IsMap rests' := by
  by_cases hmap : IsMap rests
  · obtain ⟨d, e, f, row, v, rfl⟩ := hmap
    cases h with
    | cons hp hrest =>
      cases hrest
      cases hp with
      | flex hc _ =>
        cases hc with
        | map hd _ _ hrow => exact .inl ⟨_, _, _, _, _, _, _, _, _, _, rfl, rfl, hd, hrow⟩
  · refine .inr ⟨hmap, ?_⟩
    rintro ⟨d, e, f, row, w, rfl⟩
    cases h with
    | cons hp hrest =>
      cases hrest
      cases hp with
      | flex hc _ =>
        cases hc with
        | map => exact hmap ⟨_, _, _, _, _, rfl⟩

/-- Unification of twins, as the steps of unification use it. -/
abbrev InStep (ρ : Renumbering) (unify unify' : Con → Con → UnifyM Unit) : Prop :=
  ∀ {ρ' : Renumbering} {a a' b b' : Con}, ρ ≤ ρ' → a.Twin ρ' a' → b.Twin ρ' b' →
    unifying.Rel ρ' (fun _ _ _ => True) (unify a b) (unify' a' b')

section Steps

variable {unify unify' : Con → Con → UnifyM Unit} (H : InStep ρ unify unify')
include H

theorem matchFields_lockstep {ls ls' rs rs' : List Piece} (hls : Twins ρ ls ls')
    (hρ : ρ ≤ ρ') (hrs : Twins ρ' rs rs') :
    unifying.Rel ρ' (fun ρ => Both (Twins ρ)) (matchFields unify ls rs)
      (matchFields unify' ls' rs') := by
  induction hls generalizing ρ' rs rs' with
  | nil => exact unifying.pure (.intro .nil hrs)
  | @cons p p' ls ls' hp _ ih =>
    have hskip : unifying.Rel ρ' (fun ρ => Both (Twins ρ))
        (matchFields unify ls rs >>= fun r => pure (p :: r.1, r.2))
        (matchFields unify' ls' rs' >>= fun r => pure (p' :: r.1, r.2)) :=
      unifying.bind (ih hρ hrs) fun ρ'' hle _ _ hr =>
        unifying.pure (.intro (.cons (hp.mono (le_trans hρ hle)) hr.fst) hr.snd)
    cases hp with
    | field hname hvalue =>
      have htake := takeField_twins (hname.mono hρ) hrs
      simp only [matchFields]
      generalize takeField _ rs = r, takeField _ rs' = r' at htake
      cases htake with
      | some hr =>
        exact unifying.bind (H hρ (hvalue.mono hρ) hr.1) fun ρ'' hle _ _ _ =>
          ih (le_trans hρ hle) (hr.2.imp fun _ _ hp => hp.mono hle)
      | none => exact hskip
    | atom | flex | error => exact hskip

theorem unifyLeftoverFields_lockstep {depth : Nat} {a b a' b' : Con} (ha : a.Twin ρ a')
    (hb : b.Twin ρ b') {left left' right right' : Leftover} (hleft : left.Twin ρ left')
    (hright : right.Twin ρ right') :
    unifying.Rel ρ (fun _ _ _ => True) (unifyLeftoverFields unify depth a b left right)
      (unifyLeftoverFields unify' depth a' b' left' right') := by
  have hdecide : unifying.Rel ρ (fun _ _ _ => True)
      (if (left.blockers ++ right.blockers).isEmpty ∨ left.fields.length ≠ right.fields.length then
          mismatch a b (leftoverReason left right)
        else postpone depth a b (left.blockers ++ right.blockers))
      (if (left'.blockers ++ right'.blockers).isEmpty ∨
          left'.fields.length ≠ right'.fields.length then
          mismatch a' b' (leftoverReason left' right')
        else postpone depth a' b' (left'.blockers ++ right'.blockers)) := by
    rw [isEmpty_eq_of_forall₂ (List.rel_append hleft.blockers hright.blockers),
      hleft.fields.length_eq, hright.fields.length_eq]
    split
    · exact mismatch_lockstep
    · exact postpone_lockstep ha hb
  obtain ⟨fields, rests⟩ := left
  obtain ⟨fields', rests'⟩ := left'
  obtain ⟨others, rests₂⟩ := right
  obtain ⟨others', rests₂'⟩ := right'
  have hl : List.Forall₂ (Both (Con.Twin ρ)) fields fields' := hleft.fields
  have hr : List.Forall₂ (Both (Con.Twin ρ)) others others' := hright.fields
  clear hleft hright
  cases hl with
  | nil => exact hdecide
  | cons hfield hl =>
    cases hl with
    | cons => exact hdecide
    | nil =>
      cases hr with
      | nil => exact hdecide
      | cons hfield' hr =>
        cases hr with
        | cons => exact hdecide
        | nil =>
          obtain ⟨hname, hvalue⟩ := hfield
          obtain ⟨hname', hvalue'⟩ := hfield'
          simp only [unifyLeftoverFields, hname.isMVar_eq, hname'.isMVar_eq]
          split
          · exact unifying.bind (H le_rfl hname hname') fun ρ' hle _ _ _ =>
              H hle (hvalue.mono hle) (hvalue'.mono hle)
          · exact hdecide

/-! ## Solving tails -/

theorem solveTail_lockstep {side side' other other' : Leftover} (hside : side.Twin ρ side')
    (hother : other.Twin ρ other') :
    unifying.Rel ρ (fun _ => Eq) (solveTail unify side other) (solveTail unify' side' other') := by
  have hno : ∀ {unify : Con → Con → UnifyM Unit} {side other : Leftover},
      side.fields ≠ [] ∨ ¬ IsTail side.rests → solveTail unify side other = pure false := by
    intro unify side other h
    unfold solveTail
    split
    next hfields hrests => exact absurd h (by simp [hfields, hrests, IsTail])
    next => rfl
  obtain ⟨fields, rests⟩ := side
  obtain ⟨fields', rests'⟩ := side'
  have hfields : List.Forall₂ (Both (Con.Twin ρ)) fields fields' := hside.fields
  cases hfields with
  | cons =>
    rw [hno (.inl (by simp)), hno (.inl (by simp))]
    exact unifying.pure rfl
  | nil =>
    rcases tail_cases hside.rests with ⟨i, j, spine, spine', v, w, rfl, rfl, hi, hspine⟩ | ⟨h, h'⟩
    · refine unifying.bind (elementKind_lockstep hi) fun ρ' _ element element' helement => ?_
      obtain ⟨rfl, helement⟩ := helement
      exact unifying.bind (H le_rfl (.mvar hi hspine) (Row.rebuild_twins helement hother.pieces))
        fun _ _ _ _ _ => unifying.pure rfl
    · rw [hno (.inr h), hno (.inr h')]
      exact unifying.pure rfl

theorem solveCommonTail_lockstep {left left' right right' : Leftover} (hleft : left.Twin ρ left')
    (hright : right.Twin ρ right') :
    unifying.Rel ρ (fun _ => Eq) (solveCommonTail unify left right)
      (solveCommonTail unify' left' right') := by
  have hno : ∀ {unify : Con → Con → UnifyM Unit} {left right : Leftover},
      ¬ IsTail left.rests ∨ ¬ IsTail right.rests →
        solveCommonTail unify left right = pure false := by
    intro unify left right h
    unfold solveCommonTail
    split
    next hl hr => exact absurd h (by simp [hl, hr, IsTail])
    next => rfl
  rcases tail_cases hleft.rests with ⟨l, l', spine, spine', v, v', hls, hls', hl, hspine⟩ | ⟨h, h'⟩
  swap
  · rw [hno (.inl h), hno (.inl h')]
    exact unifying.pure rfl
  rcases tail_cases hright.rests with
    ⟨r, r', spine₂, spine₂', w, w', hrs, hrs', hr, hspine₂⟩ | ⟨h, h'⟩
  swap
  · rw [hno (.inr h), hno (.inr h')]
    exact unifying.pure rfl
  have heq : l = r ↔ l' = r' := Relator.rel_eq ρ.cells_unique hl hr
  unfold solveCommonTail
  simp only [hls, hls', hrs, hrs', heq]
  split
  · exact unifying.pure rfl
  refine bind_lift (patternVars_lockstep hspine) fun vars vars' hvars => ?_
  subst hvars
  cases vars with
  | none => exact unifying.pure rfl
  | some =>
  refine bind_lift (patternVars_lockstep hspine₂) fun vars vars' hvars => ?_
  subst hvars
  cases vars with
  | none => exact unifying.pure rfl
  | some =>
  refine bind_lift Lifting.fuelled_get fun s t hst => ?_
  refine unifying.bind (elementKind_lockstep hl) fun ρ' _ element element' helement => ?_
  obtain ⟨rfl, helement⟩ := helement
  refine unifying.bind (lift_extending (Store.freshWithSpine_lockstep (hst.cells hl).kind
    (common_twins hspine hspine₂))) fun ρ₁ hle₁ tail tail' htail => ?_
  have hsolution : ∀ {ρ₂ : Renumbering} {side side' : Leftover} {i j : MetaId}, ρ₁ ≤ ρ₂ →
    side.Twin ρ' side' → ρ'.cells i j →
      (Row.rebuild element ({ side with rests := [.flex tail i] } : Leftover).pieces).Twin ρ₂
        (Row.rebuild element' ({ side' with rests := [.flex tail' j] } : Leftover).pieces) := by
    intro ρ₂ side side' i j hle hside hi
    have hle' := le_trans hle₁ hle
    refine Row.rebuild_twins (helement.mono hle') (Leftover.Twin.pieces
      ⟨(hside.mono hle').fields, .cons (.flex (htail.mono hle) (hle'.cells _ _ hi)) .nil⟩)
  refine unifying.bind (H hle₁ ((Con.Twin.mvar hl hspine).mono hle₁)
    (hsolution le_rfl hright hl)) fun ρ₂ hle₂ _ _ _ => ?_
  refine unifying.bind
    (H (le_trans hle₁ hle₂) ((Con.Twin.mvar hr hspine₂).mono (le_trans hle₁ hle₂))
    (hsolution hle₂ hleft hr)) fun _ _ _ _ _ => unifying.pure rfl

theorem solveMapped_lockstep (hg : globals.Twin ρ globals') {fuel depth : Nat} {a b a' b' : Con}
    (ha : a.Twin ρ a') (hb : b.Twin ρ b') {side side' other other' : Leftover}
    (hside : side.Twin ρ side') (hother : other.Twin ρ other') :
    unifying.Rel ρ (fun _ => Eq) (solveMapped globals fuel depth unify a b side other)
      (solveMapped globals' fuel depth unify' a' b' side' other') := by
  have hno : ∀ {globals : Globals} {unify : Con → Con → UnifyM Unit} {a b : Con}
      {side other : Leftover}, ¬ (side.fields = [] ∧ IsMap side.rests ∧ other.fields ≠ [] ∧
        other.rests = []) → solveMapped globals fuel depth unify a b side other = pure false := by
    intro globals unify a b side other h
    unfold solveMapped
    split
    next hfields hrests hothers hnone =>
      exact absurd ⟨hfields, ⟨_, _, _, _, _, hrests⟩, by simp [hothers], hnone⟩ h
    next => rfl
  obtain ⟨fields, rests⟩ := side
  obtain ⟨fields', rests'⟩ := side'
  obtain ⟨others, rests₂⟩ := other
  obtain ⟨others', rests₂'⟩ := other'
  have hfields : List.Forall₂ (Both (Con.Twin ρ)) fields fields' := hside.fields
  have hothers : List.Forall₂ (Both (Con.Twin ρ)) others others' := hother.fields
  have hrests₂ : Twins ρ rests₂ rests₂' := hother.rests
  rcases map_cases hside.rests with
    ⟨d, d', e, e', f, f', row, row', v, w, hrests, hrests', hd, hrow⟩ | ⟨h, h'⟩
  swap
  · rw [hno fun hm => h hm.2.1, hno fun hm => h' hm.2.1]
    exact unifying.pure rfl
  obtain rfl : rests = _ := hrests
  obtain rfl : rests' = _ := hrests'
  cases hfields with
  | cons =>
    rw [hno (by simp), hno (by simp)]
    exact unifying.pure rfl
  | nil =>
  cases hothers with
  | nil =>
    rw [hno (by simp), hno (by simp)]
    exact unifying.pure rfl
  | cons hfield hothers =>
  cases hrests₂ with
  | cons =>
    rw [hno (by simp), hno (by simp)]
    exact unifying.pure rfl
  | nil =>
  refine bind_lift (headNormal_lockstep hg fuel hrow) fun r r' hr => ?_
  simp only [hr.isMVar_eq]
  split
  swap
  · exact unifying.pure rfl
  have hfresh := Lifting.mapM (L := unifying) (B := fun ρ => Both (Con.Twin ρ))
    (f := fun field => return (field.1, ← Store.fresh d depth))
    (g := fun field => return (field.1, ← Store.fresh d' depth))
    (List.Forall₂.cons hfield hothers) (fun hle h => ⟨h.fst.mono hle, h.snd.mono hle⟩)
    fun ρ' hle field field' hfield => unifying.bind
      (lift_extending (Store.fresh_lockstep (hd.mono hle) depth)) fun ρ'' hle' c c' hc =>
        unifying.pure ⟨hfield.fst.mono (le_trans hle hle'), hc⟩
  refine unifying.bind hfresh fun ρ₁ hle₁ fields fields' hfields => ?_
  refine unifying.bind (H hle₁ (hr.mono hle₁) (.row (hd.mono hle₁) hfields)) fun ρ₂ hle₂ _ _ _ => ?_
  have hle := le_trans hle₁ hle₂
  exact unifying.bind (H hle (ha.mono hle) (hb.mono hle)) fun _ _ _ _ _ => unifying.pure rfl

omit H in
/-- What is done unless a first attempt is enough. -/
theorem unless_lockstep {x y : UnifyM Bool} {f g : UnifyM Unit}
    (h : unifying.Rel ρ (fun _ => Eq) x y)
    (hf : ∀ ρ', ρ ≤ ρ' → unifying.Rel ρ' (fun _ _ _ => True) f g) :
    unifying.Rel ρ (fun _ _ _ => True) (do if ← x then pure () else f)
      (do if ← y then pure () else g) :=
  unifying.bind h fun ρ' hle b _ hb => by
    subst hb
    cases b with
    | true => exact unifying.pure trivial
    | false => exact hf ρ' hle

theorem unifyRows_lockstep (hg : globals.Twin ρ globals') {fuel depth : Nat} {a b a' b' : Con}
    (ha : a.Twin ρ a') (hb : b.Twin ρ b') :
    unifying.Rel ρ (fun _ _ _ => True) (unifyRows globals fuel depth unify a b)
      (unifyRows globals' fuel depth unify' a' b') := by
  refine bind_lift (Row.summarize_lockstep hg fuel ha) fun ls ls' hls => ?_
  refine bind_lift (Row.summarize_lockstep hg fuel hb) fun rs rs' hrs => ?_
  refine Lifting.ite (by rw [Row.hasError_eq hls, Row.hasError_eq hrs]) (unifying.pure trivial) ?_
  refine unifying.bind (matchFields_lockstep H hls le_rfl hrs) fun ρ₁ hle₁ r r' hr => ?_
  have hcancel := cancelRests_twins hr.fst hr.snd
  have hleft := Leftover.Twin.ofPieces hcancel.fst
  have hright := Leftover.Twin.ofPieces hcancel.snd
  have H₁ : InStep ρ₁ unify unify' := fun hle => H (le_trans hle₁ hle)
  refine Lifting.ite (by rw [hleft.isEmpty_eq, hright.isEmpty_eq]) (unifying.pure trivial) ?_
  refine Lifting.ite (by rw [isEmpty_eq_of_forall₂ hleft.rests, isEmpty_eq_of_forall₂ hright.rests])
    (unifyLeftoverFields_lockstep H₁ (ha.mono hle₁) (hb.mono hle₁) hleft hright) ?_
  refine unless_lockstep (solveTail_lockstep H₁ hleft hright) fun ρ₂ hle₂ => ?_
  have H₂ : InStep ρ₂ unify unify' := fun hle => H₁ (le_trans hle₂ hle)
  refine unless_lockstep (solveTail_lockstep H₂ (hright.mono hle₂) (hleft.mono hle₂))
    fun ρ₃ hle₃ => ?_
  have hle₃ := le_trans hle₂ hle₃
  have H₃ : InStep ρ₃ unify unify' := fun hle => H₁ (le_trans hle₃ hle)
  refine unless_lockstep (solveCommonTail_lockstep H₃ (hleft.mono hle₃) (hright.mono hle₃))
    fun ρ₄ hle₄ => ?_
  have hle₄ := le_trans hle₃ hle₄
  have H₄ : InStep ρ₄ unify unify' := fun hle => H₁ (le_trans hle₄ hle)
  have h₄ := le_trans hle₁ hle₄
  refine unless_lockstep (solveMapped_lockstep H₄ (hg.mono h₄) (ha.mono h₄) (hb.mono h₄)
    (hleft.mono hle₄) (hright.mono hle₄)) fun ρ₅ hle₅ => ?_
  have hle₅ := le_trans hle₄ hle₅
  have H₅ : InStep ρ₅ unify unify' := fun hle => H₁ (le_trans hle₅ hle)
  have h₅ := le_trans hle₁ hle₅
  refine unless_lockstep (solveMapped_lockstep H₅ (hg.mono h₅) (ha.mono h₅) (hb.mono h₅)
    (hright.mono hle₅) (hleft.mono hle₅)) fun ρ₆ hle₆ => ?_
  have h₆ := le_trans h₅ hle₆
  exact Lifting.ite (by rw [isEmpty_eq_of_forall₂ hleft.blockers,
      isEmpty_eq_of_forall₂ hright.blockers, hleft.onlyFlex_eq, hright.onlyFlex_eq])
    mismatch_lockstep (postpone_lockstep (ha.mono h₆) (hb.mono h₆))

end Steps

/-! ## Whole constructors -/

/-- Unification of twins under any number of binders, as the steps of unification use it. -/
abbrev InSteps (ρ : Renumbering) (unify unify' : Nat → Con → Con → UnifyM Unit) : Prop :=
  ∀ depth, InStep ρ (unify depth) (unify' depth)

section Heads

variable {unify unify' : Nat → Con → Con → UnifyM Unit} (H : InSteps ρ unify unify')
include H

theorem unifyBoth_lockstep {depth : Nat} {a b a' b' c d c' d' : Con} (ha : a.Twin ρ a')
    (hb : b.Twin ρ b') (hc : c.Twin ρ c') (hd : d.Twin ρ d') :
    unifying.Rel ρ (fun _ _ _ => True) (do unify depth a b; unify depth c d)
      (do unify' depth a' b'; unify' depth c' d') :=
  unifying.bind (H depth le_rfl ha hb) fun _ hle _ _ _ => H depth hle (hc.mono hle) (hd.mono hle)

theorem unifyUnder_lockstep {fuel depth : Nat} {k l k' l' : Kind} {a b a' b' : Con}
    (hk : k.Twin ρ k') (hl : l.Twin ρ l') (ha : a.Twin ρ a') (hb : b.Twin ρ b') :
    unifying.Rel ρ (fun _ _ _ => True) (do unifyKinds fuel k l; unify (depth + 1) a b)
      (do unifyKinds fuel k' l'; unify' (depth + 1) a' b') :=
  unifying.bind (unifyKinds_lockstep fuel hk hl) fun _ hle _ _ _ =>
    H (depth + 1) hle (ha.mono hle) (hb.mono hle)

theorem unifyAll_lockstep {depth : Nat} {as bs as' bs' : List Con}
    (has : List.Forall₂ (Con.Twin ρ) as as') (hbs : List.Forall₂ (Con.Twin ρ) bs bs') :
    unifying.Rel ρ (fun _ _ _ => True) ((as.zip bs).forM fun (a, b) => unify depth a b)
      ((as'.zip bs').forM fun (a, b) => unify' depth a b) :=
  Lifting.forM (forall₂_zip has hbs) fun _ hle _ _ hab =>
    H depth hle (hab.fst.mono hle) (hab.snd.mono hle)

theorem unifyParts_lockstep {fuel depth : Nat} {a b a' b' : Con} (ha : a.Twin ρ a')
    (hb : b.Twin ρ b') :
    unifying.Rel ρ (fun _ _ _ => True) (unifyParts fuel depth unify a b)
      (unifyParts fuel depth unify' a' b') := by
  -- the left pair is split by form; if it has no common form, neither has the right one
  unfold unifyParts
  split
  case h_1 =>
    cases ha with | arrow ha₁ ha₂ => cases hb with | arrow hb₁ hb₂ =>
      exact unifyBoth_lockstep H ha₁ hb₁ ha₂ hb₂
  case h_2 =>
    cases ha with | app ha₁ ha₂ => cases hb with | app hb₁ hb₂ =>
      exact unifyBoth_lockstep H ha₁ hb₁ ha₂ hb₂
  case h_3 =>
    cases ha with | abs _ hk ha => cases hb with | abs _ hl hb =>
      exact unifyUnder_lockstep H hk hl ha hb
  case h_4 =>
    cases ha with | poly _ _ hk ha => cases hb with | poly _ _ hl hb =>
    exact Lifting.ite Iff.rfl (unifyUnder_lockstep H hk hl ha hb) mismatch_lockstep
  case h_5 => cases ha with | kpoly _ ha => cases hb with | kpoly _ hb => exact H depth le_rfl ha hb
  case h_6 => cases ha with | kabs _ ha => cases hb with | kabs _ hb => exact H depth le_rfl ha hb
  case h_7 =>
    cases ha with | kapp ha hk => cases hb with | kapp hb hl =>
    exact unifying.bind (H depth le_rfl ha hb) fun _ hle _ _ _ =>
      unifyKinds_lockstep fuel (hk.mono hle) (hl.mono hle)
  case h_8 =>
    cases ha with | disjoint hl hr ha => cases hb with | disjoint hl' hr' hb =>
    refine unifying.bind (H depth le_rfl hl hl') fun _ hle _ _ _ => ?_
    exact unifying.bind (H depth hle (hr.mono hle) (hr'.mono hle)) fun _ hle' _ _ _ =>
      H depth (le_trans hle hle') (ha.mono (le_trans hle hle')) (hb.mono (le_trans hle hle'))
  case h_9 => cases ha with | record ha => cases hb with | record hb => exact H depth le_rfl ha hb
  case h_10 => cases ha with | variant ha => cases hb with | variant hb =>
    exact H depth le_rfl ha hb
  case h_11 =>
    cases ha with | tuple ha => cases hb with | tuple hb =>
    exact Lifting.ite (by rw [ha.length_eq, hb.length_eq]) (unifyAll_lockstep H ha hb)
      mismatch_lockstep
  case h_12 =>
    cases ha with | component ha _ => cases hb with | component hb _ =>
    exact Lifting.ite Iff.rfl (H depth le_rfl ha hb) mismatch_lockstep
  case h_13 =>
    cases ha with | proj ha₁ ha₂ => cases hb with | proj hb₁ hb₂ =>
      exact unifyBoth_lockstep H ha₁ hb₁ ha₂ hb₂
  case h_14 =>
    split <;> first | exact mismatch_lockstep | skip
    all_goals
      cases ha
      cases hb
      grind

omit H in
/-- The metavariables that keep two constructors from being compared. -/
theorem stuck_twins {a b a' b' : Con} (ha : a.Twin ρ a') (hb : b.Twin ρ b') :
    List.Forall₂ ρ.cells ([Row.blocker? a, Row.blocker? b].filterMap id)
      ([Row.blocker? a', Row.blocker? b'].filterMap id) :=
  List.rel_filterMap (fun _ _ h => h)
    (.cons (Row.blocker?_twins ha) (.cons (Row.blocker?_twins hb) .nil))

/-- Heads that are no metavariables. -/
def unifyRigid (globals : Globals) (fuel depth : Nat) (unify : Nat → Con → Con → UnifyM Unit)
    (a b : Con) : UnifyM Unit :=
  if a.isRowForm ∨ b.isRowForm then unifyRows globals fuel depth (unify depth) a b
  else
    match [Row.blocker? a, Row.blocker? b].filterMap id with
    | [] => unifyParts fuel depth unify a b
    | blockers => postpone depth a b blockers

omit H in
theorem unifyHeads_left (fuel depth : Nat) (v : MetaId) (spine : List Con) {b : Con}
    (hb : b.isMVar = false) :
    unifyHeads globals fuel depth unify (.mvar v spine) b = solve fuel depth v spine b := by
  cases b <;> first | rfl | cases hb

omit H in
theorem unifyHeads_right (fuel depth : Nat) (w : MetaId) (spine : List Con) {a : Con}
    (ha : a.isMVar = false) :
    unifyHeads globals fuel depth unify a (.mvar w spine) = solve fuel depth w spine a := by
  cases a <;> first | rfl | cases ha

omit H in
theorem unifyHeads_rigid (fuel depth : Nat) {a b : Con} (ha : a.isMVar = false)
    (hb : b.isMVar = false) :
    unifyHeads globals fuel depth unify a b = unifyRigid globals fuel depth unify a b := by
  cases a with
  | mvar => cases ha
  | _ =>
    cases b with
    | mvar => cases hb
    | _ => rfl

theorem unifyRigid_lockstep (hg : globals.Twin ρ globals') {fuel depth : Nat} {a b a' b' : Con}
    (ha : a.Twin ρ a') (hb : b.Twin ρ b') :
    unifying.Rel ρ (fun _ _ _ => True) (unifyRigid globals fuel depth unify a b)
      (unifyRigid globals' fuel depth unify' a' b') := by
  refine Lifting.ite (by rw [ha.isRowForm_eq, hb.isRowForm_eq])
    (unifyRows_lockstep (H depth) hg ha hb) ?_
  have hstuck := stuck_twins ha hb
  generalize [Row.blocker? a, _].filterMap id = is, [Row.blocker? a', _].filterMap id = js at hstuck
  cases hstuck with
  | nil => exact unifyParts_lockstep H ha hb
  | cons => exact postpone_lockstep ha hb

theorem unifyHeads_lockstep (hg : globals.Twin ρ globals') {fuel depth : Nat} {a b a' b' : Con}
    (ha : a.Twin ρ a') (hb : b.Twin ρ b') :
    unifying.Rel ρ (fun _ _ _ => True) (unifyHeads globals fuel depth unify a b)
      (unifyHeads globals' fuel depth unify' a' b') := by
  cases hma : a.isMVar with
  | true =>
    obtain ⟨i, spine, rfl⟩ := Con.eq_mvar_of_isMVar hma
    cases ha with | mvar hi hspine =>
    cases hmb : b.isMVar with
    | true =>
      obtain ⟨j, spine', rfl⟩ := Con.eq_mvar_of_isMVar hmb
      cases hb with | mvar hj hspine' =>
      refine Lifting.ite (Relator.rel_eq ρ.cells_unique hi hj) ?_
        (solve_lockstep fuel depth hi hspine (.mvar hj hspine'))
      exact Lifting.ite (by rw [hspine.length_eq, hspine'.length_eq])
        (unifyAll_lockstep H hspine hspine') mismatch_lockstep
    | false =>
      rw [unifyHeads_left fuel depth _ _ hmb, unifyHeads_left fuel depth _ _ (hb.isMVar_eq ▸ hmb)]
      exact solve_lockstep fuel depth hi hspine hb
  | false =>
    cases hmb : b.isMVar with
    | true =>
      obtain ⟨j, spine, rfl⟩ := Con.eq_mvar_of_isMVar hmb
      cases hb with | mvar hj hspine =>
      rw [unifyHeads_right fuel depth _ _ hma, unifyHeads_right fuel depth _ _ (ha.isMVar_eq ▸ hma)]
      exact solve_lockstep fuel depth hj hspine ha
    | false =>
      rw [unifyHeads_rigid fuel depth hma hmb,
        unifyHeads_rigid fuel depth (ha.isMVar_eq ▸ hma) (hb.isMVar_eq ▸ hmb)]
      exact unifyRigid_lockstep H hg ha hb

end Heads

/-- Unification does the same for twins. -/
theorem unifyAt_lockstep (fuel : Nat) {ρ : Renumbering} {globals globals' : Globals}
    (hg : globals.Twin ρ globals') :
    InSteps ρ (unifyAt globals fuel) (unifyAt globals' fuel) := by
  induction fuel with
  | zero =>
    intro depth ρ' a a' b b' _ _ _
    exact lift_extending Lifting.outOfFuel
  | succ fuel ih =>
    intro depth ρ' a a' b b' hle ha hb
    have hg := hg.mono hle
    refine Lifting.ite (ha.eq_iff hb) (unifying.pure trivial) ?_
    refine bind_lift (headNormal_lockstep hg fuel ha) fun a a' ha => ?_
    refine bind_lift (headNormal_lockstep hg fuel hb) fun b b' hb => ?_
    refine Lifting.ite (by rw [ha.eq_iff hb, ha.eq_iff .error, hb.eq_iff .error])
      (unifying.pure trivial) ?_
    exact unifyHeads_lockstep (fun depth _ _ _ _ _ hle' => ih depth (le_trans hle hle')) hg ha hb

end Unify

end RowML
