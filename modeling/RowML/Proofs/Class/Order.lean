import RowML.Proofs.Unify.Undoing

/-!
# The order of the instances

Permuting the instances of the global table does not change what a search for a dictionary comes to:
it is out of fuel on both sides, or finds the same dictionary on both sides, waits for the same
metavariables, or fails for the same reason.  Metavariables that the search makes may have other
numbers, and the candidates of an ambiguous goal may be listed in another order.  A candidate is
tried in a snapshot that is never kept, so what it answers does not depend on the candidates that
were tried before it.

The store has to be coherent: there is no cycle, and every metavariable that is written somewhere
has been made.  One that is yet to be made would stand for whatever the first candidate makes.
-/

namespace RowML

open Store (fuelledLockstep extending)

variable {ρ ρ' : Renumbering}

/-! ## Evidence -/

/-- The same dictionary. -/
inductive Dict.Twin (ρ : Renumbering) : Dict → Dict → Prop where
  | local (index : Nat) : Twin ρ (.local index) (.local index)
  | instance (source : InstanceSource) {kinds kinds' : List Kind} {cons cons' : List Con}
    {dicts dicts' : List Dict} (hkinds : List.Forall₂ (Kind.Twin ρ) kinds kinds')
    (hcons : List.Forall₂ (Con.Twin ρ) cons cons') (hdicts : List.Forall₂ (Twin ρ) dicts dicts') :
    Twin ρ (.instance source kinds cons dicts) (.instance source kinds' cons' dicts')
  | record {fields fields' : List (Con × Dict)}
    (hnames : List.Forall₂ (Con.Twin ρ) (fields.map (·.1)) (fields'.map (·.1)))
    (hdicts : List.Forall₂ (Twin ρ) (fields.map (·.2)) (fields'.map (·.2))) :
    Twin ρ (.record fields) (.record fields')

theorem Dict.Twin.mono {d d' : Dict} (h : d.Twin ρ d') (hρ : ρ ≤ ρ') : d.Twin ρ' d' :=
  -- the second motive is about the dictionaries below
  @Dict.Twin.rec ρ (fun d d' _ => d.Twin ρ' d') (fun ds ds' _ => List.Forall₂ (Dict.Twin ρ') ds ds')
    .local
    (fun source _ _ _ _ _ _ hkinds hcons _ hdicts =>
      .instance source (hkinds.imp fun _ _ h => h.mono hρ)
        (hcons.imp fun _ _ h => h.mono hρ) hdicts)
    (fun hnames _ hdicts => .record (hnames.imp fun _ _ h => h.mono hρ) hdicts)
    .nil (fun _ _ hd hds => .cons hd hds) d d' h

/-- The same variable in scope. -/
structure LocalDict.Twin (ρ : Renumbering) (l l' : LocalDict) : Prop where
  level : l.level = l'.level
  type : l.type.Twin ρ l'.type
  depth : l.depth = l'.depth

/-- The same failure, whatever the order of the candidates. -/
inductive ClassError.Twin (ρ : Renumbering) : ClassError → ClassError → Prop where
  | noInstance {goal goal' : Con} (hgoal : goal.Twin ρ goal') :
    Twin ρ (.noInstance goal) (.noInstance goal')
  | ambiguous {goal goal' : Con} {candidates candidates' : List InstanceSource}
    (hgoal : goal.Twin ρ goal') (perm : candidates.Perm candidates') :
    Twin ρ (.ambiguous goal candidates) (.ambiguous goal' candidates')
  | notAClass {goal goal' : Con} (hgoal : goal.Twin ρ goal') :
    Twin ρ (.notAClass goal) (.notAClass goal')
  | depthExceeded {goal goal' : Con} (hgoal : goal.Twin ρ goal') :
    Twin ρ (.depthExceeded goal) (.depthExceeded goal')

namespace Class

/-- The same answer about a premise. -/
inductive Step.Twin (ρ : Renumbering) : Step → Step → Prop where
  | found {d d' : Dict} (h : d.Twin ρ d') : Twin ρ (.found d) (.found d')
  | wait {is js : List MetaId} (h : List.Forall₂ ρ.cells is js) : Twin ρ (.wait is) (.wait js)

/-- The same instance type taken apart. -/
structure Opened.Twin (ρ : Renumbering) (o o' : Opened) : Prop where
  kinds : List.Forall₂ (Kind.Twin ρ) o.kinds o'.kinds
  cons : List.Forall₂ (Con.Twin ρ) o.cons o'.cons
  premises : List.Forall₂ (Con.Twin ρ) o.premises o'.premises
  disjoint : List.Forall₂ (Both (Con.Twin ρ)) o.disjoint o'.disjoint
  head : o.head.Twin ρ o'.head

/-- The same scope, with the same instances in any order. -/
structure Context.Twin (ρ : Renumbering) (context context' : Context) : Prop where
  globals : context.globals.Twin ρ context'.globals
  perm : context.globals.instances.toList.Perm context'.globals.instances.toList
  instances : ∀ inst ∈ context.globals.instances.toList, inst.type.Twin ρ inst.type
  locals : List.Forall₂ (LocalDict.Twin ρ) context.locals context'.locals
  depth : context.depth = context'.depth
  valDepth : context.valDepth = context'.valDepth
  maxDepth : context.maxDepth = context'.maxDepth

theorem Context.Twin.mono {context context' : Context} (h : context.Twin ρ context') (hρ : ρ ≤ ρ') :
    context.Twin ρ' context' :=
  { h with
    globals := h.globals.mono hρ
    instances := fun inst hinst => (h.instances inst hinst).mono hρ
    locals := h.locals.imp fun _ _ hl => { hl with type := hl.type.mono hρ } }

/-! ## Goals -/

section Goals

variable {globals globals' : Globals} (hg : globals.Twin ρ globals') {c c' : Con}
include hg

theorem head_lockstep (fuel : Nat) (h : c.Twin ρ c') :
    fuelledLockstep.Rel ρ Con.Twin (head globals fuel c) (head globals' fuel c') := by
  induction fuel generalizing c c' with
  | zero => exact fun _ _ _ => .none
  | succ fuel ih =>
    cases h with
    | app hf _ => exact Lifting.bind_still (headNormal_lockstep hg fuel hf) fun _ _ hf => ih hf
    | kapp hf _ => exact Lifting.bind_still (headNormal_lockstep hg fuel hf) fun _ _ hf => ih hf
    | _ =>
      refine fuelledLockstep.pure ?_
      constructor <;> assumption

omit hg in
theorem allM_lockstep {p q : Con → FuelM Bool} {cs cs' : List Con}
    (h : List.Forall₂ (Con.Twin ρ) cs cs')
    (hp : ∀ {c c'}, c.Twin ρ c' → fuelledLockstep.Rel ρ (fun _ => Eq) (p c) (q c')) :
    fuelledLockstep.Rel ρ (fun _ => Eq) (allM p cs) (allM q cs') := by
  induction h with
  | nil => exact fuelledLockstep.pure rfl
  | cons hc _ ih =>
    refine Lifting.bind_still (hp hc) fun b _ hb => ?_
    subst hb
    exact Lifting.ite Iff.rfl ih (fuelledLockstep.pure rfl)

theorem isGoal_lockstep (fuel : Nat) (h : c.Twin ρ c') :
    fuelledLockstep.Rel ρ (fun _ => Eq) (isGoal globals fuel c) (isGoal globals' fuel c') := by
  induction fuel generalizing c c' with
  | zero => exact fun _ _ _ => .none
  | succ fuel ih =>
    refine Lifting.bind_still (headNormal_lockstep hg fuel h) fun r r' hr => ?_
    have hhead : fuelledLockstep.Rel ρ (fun _ => Eq)
        (return globals.isClassHead (← head globals fuel r))
        (return globals'.isClassHead (← head globals' fuel r')) :=
      Lifting.bind_still (head_lockstep hg fuel hr) fun _ _ hhead =>
        fuelledLockstep.pure (hg.isClassHead_twins hhead)
    cases hr with
    | record hrow =>
      refine Lifting.bind_still (Row.summarize_lockstep hg fuel hrow) fun ps ps' hps => ?_
      have hvalues : List.Forall₂ (Con.Twin ρ) ((Row.fields ps).map (·.2))
        ((Row.fields ps').map (·.2)) :=
        List.rel_map (fun _ _ hfield => hfield.snd) (Row.fields_twins hps)
      exact Lifting.ite (by rw [isEmpty_eq_of_forall₂ hvalues]) (fuelledLockstep.pure rfl)
        (allM_lockstep hvalues ih)
    | _ => exact hhead

end Goals

theorem openType_lockstep {ρ : Renumbering} {globals globals' : Globals}
    (hg : globals.Twin ρ globals')
    (depth fuel : Nat) {c c' : Con} (h : c.Twin ρ c') :
    extending.Rel ρ Opened.Twin (openType globals depth fuel c)
      (openType globals' depth fuel c') := by
  induction fuel generalizing ρ c c' with
  | zero => exact fun _ _ _ => .none
  | succ fuel ih =>
    refine Lifting.fuelled_bind_still (headNormal_lockstep hg fuel h) fun r r' hr => ?_
    have hdone : extending.Rel ρ Opened.Twin (pure ⟨[], [], [], [], r⟩)
      (pure ⟨[], [], [], [], r'⟩) :=
      extending.pure ⟨.nil, .nil, .nil, .nil, hr⟩
    cases hr with
    | poly x implicit hk hbody =>
      cases implicit with
      | false => exact hdone
      | true =>
        refine extending.bind (Store.fresh_lockstep hk depth) fun ρ₁ hle₁ a a' ha => ?_
        refine Lifting.fuelled_bind_still (Store.onKinds_lockstep
          (Con.subst_lockstep (hbody.mono hle₁) ha)) fun body body' hbody => ?_
        exact extending.bind (ih (hg.mono hle₁) hbody) fun ρ₂ hle₂ o o' ho =>
          extending.pure { ho with cons := .cons (ha.mono hle₂) ho.cons }
    | kpoly x hbody =>
      refine extending.bind (Store.freshKind_lockstep .any) fun ρ₁ hle₁ k k' hk => ?_
      refine Lifting.fuelled_bind_still (Store.onKinds_lockstep
        (Con.substKind_lockstep (hbody.mono hle₁) hk)) fun body body' hbody => ?_
      exact extending.bind (ih (hg.mono hle₁) hbody) fun ρ₂ hle₂ o o' ho =>
        extending.pure { ho with kinds := .cons (hk.mono hle₂) ho.kinds }
    | disjoint hl hr' hbody =>
      exact extending.bind (ih hg hbody) fun ρ₁ hle₁ o o' ho =>
        extending.pure { ho with disjoint := .cons ⟨hl.mono hle₁, hr'.mono hle₁⟩ ho.disjoint }
    | arrow hdomain hcodomain =>
      refine Lifting.fuelled_bind_still (isGoal_lockstep hg fuel hdomain) fun goal _ hsame => ?_
      subst hsame
      refine Lifting.ite Iff.rfl ?_ hdone
      exact extending.bind (ih hg hcodomain) fun ρ₁ hle₁ o o' ho =>
        extending.pure { ho with premises := .cons (hdomain.mono hle₁) ho.premises }
    | _ => exact hdone

/-! ## Candidates -/

theorem any_isSolved_eq {s t : Store} (hst : Store.Twin ρ s t) {is js : List MetaId}
    (h : List.Forall₂ ρ.cells is js) : is.any s.isSolved = js.any t.isSolved := by
  induction h with
  | nil => rfl
  | cons hi _ ih => rw [List.any_cons, List.any_cons, hst.isSolved_eq hi, ih]

section Candidates

variable {context context' : Context} (hcontext : context.Twin ρ context') {goal goal' : Con}
  (hgoal : goal.Twin ρ goal') {is js : List MetaId} (hmvars : List.Forall₂ ρ.cells is js)
include hcontext hgoal hmvars

/-- A candidate that is tried and undone. -/
theorem matchGoal_lockstep (fuel : Nat) {c c' : Con} (h : c.Twin ρ c') :
    fuelledLockstep.Rel ρ (fun _ => Eq) (matchGoal context fuel c goal is)
      (matchGoal context' fuel c' goal' js) := by
  rw [matchGoal_eq, matchGoal_eq]
  refine Store.undone_lockstep (certainty_throughout ..) (certainty_throughout ..) ?_
  rw [hcontext.depth]
  refine extending.bind (tryUnify_lockstep hcontext.globals fuel context'.depth h hgoal) ?_
  rintro ρ₁ hle outcome _ rfl
  refine extending.bind Lifting.fuelled_get fun ρ₂ hle' s t hst => extending.pure ?_
  rw [any_isSolved_eq hst (hmvars.imp fun i j hi => (le_trans hle hle').1 i j hi)]

/-- An instance that is tried and undone. -/
theorem attempt_lockstep (fuel : Nat) {inst : Instance} (hinst : inst.type.Twin ρ inst.type) :
    fuelledLockstep.Rel ρ (fun _ => Eq) (attempt context fuel inst goal is)
      (attempt context' fuel inst goal' js) := by
  rw [attempt_eq, attempt_eq]
  refine Store.undone_lockstep (openMatch_throughout ..) (openMatch_throughout ..) ?_
  rw [hcontext.depth]
  refine extending.bind (openType_lockstep hcontext.globals context'.depth fuel hinst) ?_
  intro ρ₁ hle o o' ho
  have hmatch := matchGoal_lockstep (hcontext.mono hle) (hgoal.mono hle)
    (hmvars.imp fun i j hi => hle.cells i j hi) fuel ho.head
  exact Lifting.mono (Lifting.fuelled_of_still hmatch) fun _ _ _ h => h.2

omit hmvars in
/-- A candidate that is tried and kept if it matches. -/
theorem keep_lockstep (fuel : Nat) {c c' : Con} (h : c.Twin ρ c') :
    extending.Rel ρ (fun _ => Eq) (tryUnify context.globals fuel context.depth c goal)
      (tryUnify context'.globals fuel context'.depth c' goal') := by
  rw [hcontext.depth]
  exact tryUnify_lockstep hcontext.globals fuel context'.depth h hgoal

theorem fromLocals_lockstep (fuel : Nat) {ls ls' : List LocalDict}
    (h : List.Forall₂ (LocalDict.Twin ρ) ls ls') (undecided : Bool) (hle : ρ ≤ ρ') :
    extending.Rel ρ' (fun ρ => Option.Rel (Step.Twin ρ))
      (fromLocals context fuel goal is undecided ls)
      (fromLocals context' fuel goal' js undecided ls') := by
  induction h generalizing undecided ρ' with
  | nil =>
    refine extending.pure ?_
    cases undecided with
    | true => exact .some (.wait (hmvars.imp fun i j hi => hle.cells i j hi))
    | false => exact .none
  | @cons l l' _ _ hl _ ih =>
    have hcontext := hcontext.mono hle
    have hgoal := hgoal.mono hle
    have hmvars := hmvars.imp fun i j hi => hle.cells i j hi
    have htype : (l.type.lift (context.depth - l.depth)).Twin ρ'
        (l'.type.lift (context'.depth - l'.depth)) := by
      rw [hcontext.depth, hl.depth]
      exact (hl.type.mono hle).lift _
    refine Lifting.fuelled_bind_still (matchGoal_lockstep hcontext hgoal hmvars fuel htype) ?_
    rintro outcome _ rfl
    cases outcome with
    | no => exact ih undecided hle
    | maybe => exact ih true hle
    | yes =>
      refine extending.bind (keep_lockstep hcontext hgoal fuel htype) ?_
      rintro ρ₁ hle₁ kept _ rfl
      refine Lifting.ite Iff.rfl (extending.pure (.some (.found ?_)))
        (ih undecided (le_trans hle hle₁))
      rw [hcontext.valDepth, hl.level]
      exact .local _

end Candidates

/-! ## Candidates in any order -/

/-- What a list of questions is answered with: nothing if one of them has no answer. -/
def answers {α β : Type} (answer : α → Option β) (as : List α) : Option (List β) :=
  if as.all fun a => (answer a).isSome then some (as.filterMap answer) else none

theorem answers_perm {α β : Type} {as as' : List α} (perm : as.Perm as') (answer : α → Option β) :
    Option.Rel List.Perm (answers answer as) (answers answer as') := by
  unfold answers
  rw [perm.all_eq]
  split
  · exact .some (perm.filterMap answer)
  · exact .none

/-- If no question changes what the others are answered with, asking all of them in turn comes to
the list of their answers. -/
theorem mapM_answers {α β : Type} {x : α → FuelM β} {answer : α → Option β} {P : Store → Prop}
    {as : List α}
    (h : ∀ a ∈ as, ∀ s, P s → Option.Rel (fun q b => q.1 = b ∧ P q.2) (x a s) (answer a))
    {s : Store} (hs : P s) :
    Option.Rel (fun q bs => q.1 = bs ∧ P q.2) ((as.mapM x) s) (answers answer as) := by
  induction as generalizing s with
  | nil => exact .some ⟨rfl, hs⟩
  | cons a as ih =>
    have hrun : ((a :: as).mapM x) s =
        (x a s).bind fun q => ((as.mapM x) q.2).bind fun r => some (q.1 :: r.1, r.2) := by
      rw [List.mapM_cons]
      rfl
    have ha := h a List.mem_cons_self s hs
    rw [hrun]
    unfold answers
    rw [List.all_cons]
    generalize x a s = q at ha ⊢
    cases hanswer : answer a with
    | none =>
      rw [hanswer] at ha
      cases ha
      exact .none
    | some b =>
      rw [hanswer] at ha
      cases ha with | some hb =>
      have hrest := ih (fun a ha => h a (.tail _ ha)) hb.2
      unfold answers at hrest
      rw [List.filterMap_cons_some hanswer, Option.isSome_some, Bool.true_and, Option.bind_some]
      split at hrest
      next hall =>
        rw [if_pos hall]
        generalize (as.mapM x) _ = r at hrest ⊢
        cases hrest with | some hr => exact .some ⟨by rw [hb.1, hr.1], hr.2⟩
      next hall =>
        rw [if_neg hall]
        generalize (as.mapM x) _ = r at hrest ⊢
        cases hrest
        exact .none

theorem attempt_resumes {context : Context} {fuel : Nat} {inst : Instance} {goal : Con}
    {is : List MetaId} {s s' : Store} {outcome : TryResult}
    (h : attempt context fuel inst goal is s = some (outcome, s')) : s.Resumes s' := by
  rw [attempt_eq] at h
  exact Store.speculate_resumes (openMatch_throughout ..) rfl h

/-- Instances asked in turn, if each answers the same in every store with garbage added. -/
theorem attempts_answers {context : Context} {fuel : Nat} {goal : Con}
    {is : List MetaId} {s : Store}
    {insts : List Instance} {answer : Instance → Option TryResult}
    (h : ∀ inst ∈ insts, ∀ s', s.Resumes s' →
      (attempt context fuel inst goal is s').map (·.1) = answer inst) :
    Option.Rel (fun q o => q.1 = o ∧ s.Resumes q.2)
      ((insts.mapM fun inst => return (inst, ← attempt context fuel inst goal is)) s)
      (answers (fun inst => (answer inst).map (inst, ·)) insts) := by
  refine mapM_answers (fun inst hinst s' hs => ?_) (Store.Resumes.refl s)
  rw [← h inst hinst s' hs]
  change Option.Rel _ ((attempt context fuel inst goal is s').bind _) _
  cases hrun : attempt context fuel inst goal is s' with
  | none => exact .none
  | some q => exact .some ⟨rfl, hs.trans (attempt_resumes hrun)⟩

/-- What the instances answer does not depend on what was tried before, so the order of the
instances is the order of the answers and no more. -/
theorem attempts_lockstep {context context' : Context} (hcontext : context.Twin ρ context')
    {goal goal' : Con} (hgoal : goal.Twin ρ goal') {is js : List MetaId}
    (hmvars : List.Forall₂ ρ.cells is js) (fuel : Nat) :
    fuelledLockstep.Rel ρ
      (fun _ o o' => o.Perm o' ∧ ∀ e ∈ o, e.1 ∈ context.globals.instances.toList)
      (context.globals.instances.toList.mapM fun inst =>
        return (inst, ← attempt context fuel inst goal is))
      (context'.globals.instances.toList.mapM fun inst =>
        return (inst, ← attempt context' fuel inst goal' js)) := by
  intro s t hst
  have hsame : ∀ inst ∈ context.globals.instances.toList, ∀ s' t', s.Resumes s' → t.Resumes t' →
      (attempt context fuel inst goal is s').map (·.1) =
        (attempt context' fuel inst goal' js t').map (·.1) := by
    intro inst hinst s' t' hs ht
    have hruns := attempt_lockstep hcontext hgoal hmvars fuel (hcontext.instances inst hinst) s' t'
      (hst.resume hs ht)
    generalize attempt context fuel inst goal is s' = x at hruns
    generalize attempt context' fuel inst goal' js t' = y at hruns
    cases hruns with
    | none => rfl
    | some h =>
      obtain ⟨_, _, hsame, _⟩ := h
      exact congrArg some hsame
  -- both sides are compared with what each instance answers first on the left
  let answer (inst : Instance) := (attempt context fuel inst goal is s).map (·.1)
  have hleft := attempts_answers fun inst hinst s' hs => show _ = answer inst from
    (hsame inst hinst s' t hs (.refl t)).trans (hsame inst hinst s t (.refl s) (.refl t)).symm
  have hright := attempts_answers fun inst hinst t' ht => show _ = answer inst from
    (hsame inst (hcontext.perm.mem_iff.mpr hinst) s t' (.refl s) ht).symm
  have hperm := answers_perm hcontext.perm fun inst => (answer inst).map (inst, ·)
  have hmem : ∀ o, answers (fun inst => (answer inst).map (inst, ·))
      context.globals.instances.toList = some o →
        ∀ e ∈ o, e.1 ∈ context.globals.instances.toList := by
    intro o ho e he
    unfold answers at ho
    split at ho
    · cases ho
      obtain ⟨inst, hinst, he⟩ := List.mem_filterMap.mp he
      obtain ⟨outcome, -, rfl⟩ := Option.map_eq_some_iff.mp he
      exact hinst
    · cases ho
  revert hleft hright hperm hmem
  generalize answers _ context.globals.instances.toList = a
  generalize answers _ context'.globals.instances.toList = b
  generalize (List.mapM _ context.globals.instances.toList : FuelM _) s = x
  generalize (List.mapM _ context'.globals.instances.toList : FuelM _) t = y
  rintro (⟨rfl, hs⟩ | _) (⟨rfl, ht⟩ | _) hperm hmem
  · cases hperm with | some hperm =>
    exact .some ⟨ρ, rfl, ⟨hperm, hmem _ rfl⟩, hst.resume hs ht⟩
  · cases hperm
  · cases hperm
  · exact .none

/-! ## Premises -/

theorem preconditions_mono {ρ ρ' : Renumbering} {ps ps' : List (Con × Con)} (hρ : ρ ≤ ρ')
    (h : List.Forall₂ (Both (Con.Twin ρ)) ps ps') : List.Forall₂ (Both (Con.Twin ρ')) ps ps' :=
  h.imp fun _ _ hp => ⟨hp.fst.mono hρ, hp.snd.mono hρ⟩

/-- Searches for twin goals. -/
abbrev resolving : Lifting (· ≤ ·) ResolveM :=
  (extending.stateT fun ρ => List.Forall₂ (Both (Con.Twin ρ))).exceptT ClassError.Twin

theorem lift_resolving {α β : Type} {A : Renumbering → α → β → Prop} {x : FuelM α} {y : FuelM β}
    (h : extending.Rel ρ A x y) : resolving.Rel ρ A (liftM x) (liftM y) :=
  Lifting.exceptT_lift (Lifting.stateT_lift preconditions_mono h)

/-- Sequencing after what makes no metavariables. -/
theorem bind_still {α β γ δ : Type} {A : Renumbering → α → β → Prop}
    {B : Renumbering → γ → δ → Prop} {x : FuelM α} {y : FuelM β} {f : α → ResolveM γ}
    {g : β → ResolveM δ} (h : fuelledLockstep.Rel ρ A x y)
    (hf : ∀ a b, A ρ a b → resolving.Rel ρ B (f a) (g b)) :
    resolving.Rel ρ B (liftM x >>= f) (liftM y >>= g) := by
  refine Lifting.bind_fuelled_still ?_ h hf
  exact preconditions_mono

/-- Searches for twin goals, as the search for what has premises uses them. -/
abbrev Answers (ρ : Renumbering) (resolve resolve' : Con → ResolveM Step) : Prop :=
  ∀ {ρ' : Renumbering} {goal goal' : Con}, ρ ≤ ρ' → goal.Twin ρ' goal' →
    resolving.Rel ρ' Step.Twin (resolve goal) (resolve' goal')

/-- The same dictionaries for goals whose keys are related, and the same metavariables that the
other goals wait for. -/
structure FoundAll {α : Type} (K : Renumbering → α → α → Prop) (ρ : Renumbering)
    (r r' : List (α × Dict) × List MetaId) : Prop where
  keys : List.Forall₂ (K ρ) (r.1.map (·.1)) (r'.1.map (·.1))
  dicts : List.Forall₂ (Dict.Twin ρ) (r.1.map (·.2)) (r'.1.map (·.2))
  waiting : List.Forall₂ ρ.cells r.2 r'.2

section Premises

variable {resolve resolve' : Con → ResolveM Step} (H : Answers ρ resolve resolve')
include H

theorem resolveAll_lockstep {α : Type} {K : Renumbering → α → α → Prop}
    (hK : ∀ {ρ ρ' k k'}, ρ ≤ ρ' → K ρ k k' → K ρ' k k') {goals goals' : List (α × Con)}
    (h : List.Forall₂ (fun g g' => K ρ g.1 g'.1 ∧ g.2.Twin ρ g'.2) goals goals') (hρ : ρ ≤ ρ') :
    resolving.Rel ρ' (FoundAll K) (resolveAll resolve goals) (resolveAll resolve' goals') := by
  induction h generalizing ρ' with
  | nil => exact resolving.pure ⟨.nil, .nil, .nil⟩
  | cons hgoal _ ih =>
    refine resolving.bind (H hρ (hgoal.2.mono hρ)) fun ρ₁ hle₁ step step' hstep => ?_
    have hρ₁ := le_trans hρ hle₁
    cases hstep with
    | found hdict =>
      exact resolving.bind (ih hρ₁) fun ρ₂ hle₂ r r' hr => resolving.pure
        ⟨.cons (hK (le_trans hρ₁ hle₂) hgoal.1) hr.keys,
          .cons (hdict.mono hle₂) hr.dicts, hr.waiting⟩
    | wait hblockers =>
      exact resolving.bind (ih hρ₁) fun ρ₂ hle₂ r r' hr => resolving.pure
        ⟨hr.keys, hr.dicts,
          List.rel_append (hblockers.imp fun i j hi => hle₂.cells i j hi) hr.waiting⟩

theorem resolveFields_lockstep {goal goal' : Con} (hgoal : goal.Twin ρ goal')
    {fields fields' : List (Con × Con)} (hfields : List.Forall₂ (Both (Con.Twin ρ)) fields fields')
    {is js : List MetaId} (hblockers : List.Forall₂ ρ.cells is js) (rigid : Bool) :
    resolving.Rel ρ Step.Twin (resolveFields resolve goal fields is rigid)
      (resolveFields resolve' goal' fields' js rigid) := by
  refine Lifting.ite (by rw [isEmpty_eq_of_forall₂ hblockers]) (resolving.pure (.wait hblockers)) ?_
  refine Lifting.ite Iff.rfl (Lifting.exceptT_throw (.noInstance hgoal)) ?_
  have hall := resolveAll_lockstep H (K := Con.Twin) (fun hρ h => h.mono hρ)
    (hfields.imp fun _ _ h => ⟨h.fst, h.snd⟩) le_rfl
  refine resolving.bind hall fun ρ₁ hle r r' hr => ?_
  exact Lifting.ite (by rw [isEmpty_eq_of_forall₂ hr.waiting])
    (resolving.pure (.found (.record hr.keys hr.dicts))) (resolving.pure (.wait hr.waiting))

variable {context context' : Context} (hcontext : context.Twin ρ context') {goal goal' : Con}
  (hgoal : goal.Twin ρ goal')
include hcontext hgoal

theorem resolveRecord_lockstep (fuel : Nat) {row row' : Con} (hrow : row.Twin ρ row') :
    resolving.Rel ρ Step.Twin (resolveRecord context fuel resolve goal row)
      (resolveRecord context' fuel resolve' goal' row') := by
  have hnames : ∀ {fields fields' : List (Con × Con)},
      List.Forall₂ (Both (Con.Twin ρ)) fields fields' →
      List.Forall₂ (Con.Twin ρ) (fields.map (·.1)) (fields'.map (·.1)) :=
    fun hfields => List.rel_map (fun _ _ hfield => hfield.fst) hfields
  refine bind_still (Row.fieldsOf_lockstep hcontext.globals fuel hrow) fun known known' hknown => ?_
  cases hknown with
  | unknown hi => exact resolving.pure (.wait (.cons hi .nil))
  | closed hfields =>
    exact bind_still (Unify.unsolvedHeads_lockstep (hnames hfields)) fun _ _ hheads =>
      resolveFields_lockstep H hgoal hfields hheads false
  | opened hfields htail =>
    refine bind_still (Unify.unsolvedHeads_lockstep (hnames hfields)) fun is js hheads => ?_
    refine bind_still (Row.summarize_lockstep hcontext.globals fuel htail) fun ps ps' hps => ?_
    have hrigid : (ps.any fun p => p.rest?.isSome) = ps'.any fun p => p.rest?.isSome := by
      induction hps with
      | nil => rfl
      | cons hp _ ih => rw [List.any_cons, List.any_cons, hp.hasRest_eq, ih]
    rw [hrigid]
    exact resolveFields_lockstep H hgoal hfields (List.rel_append hheads (Row.blockers_twins hps)) _

theorem useInstance_lockstep (fuel : Nat) {inst : Instance} (hinst : inst.type.Twin ρ inst.type) :
    resolving.Rel ρ Step.Twin (useInstance context fuel resolve inst goal)
      (useInstance context' fuel resolve' inst goal') := by
  unfold useInstance
  rw [hcontext.depth]
  refine resolving.bind
    (lift_resolving (openType_lockstep hcontext.globals context'.depth fuel hinst))
    fun ρ₁ hle₁ o o' ho => ?_
  refine resolving.bind (lift_resolving (unify_lockstep (hcontext.globals.mono hle₁) fuel
    context'.depth ho.head (hgoal.mono hle₁))) ?_
  rintro ρ₂ hle₂ ⟨r, postponed⟩ ⟨r', postponed'⟩ ⟨hr, -⟩
  have hle := le_trans hle₁ hle₂
  cases hr with
  | error => exact Lifting.exceptT_throw (.noInstance (hgoal.mono hle))
  | ok =>
    have hpremises : List.Forall₂ (fun g g' : Unit × Con => True ∧ g.2.Twin ρ₂ g'.2)
        (o.premises.map ((), ·)) (o'.premises.map ((), ·)) :=
      List.rel_map (fun _ _ hpremise => ⟨trivial, hpremise.mono hle₂⟩) ho.premises
    have hall := resolveAll_lockstep (fun hρ => H (le_trans hle hρ)) (K := fun _ _ _ => True)
      (fun _ h => h) hpremises le_rfl
    refine resolving.bind hall fun ρ₃ hle₃ found found' hfound => ?_
    refine Lifting.ite (by rw [isEmpty_eq_of_forall₂ hfound.waiting]) ?_
      (resolving.pure (.wait hfound.waiting))
    have hle' := le_trans hle₂ hle₃
    have hcollect : resolving.Rel ρ₃ (fun _ _ _ => True)
        (modify (· ++ o.disjoint) : ResolveM Unit) (modify (· ++ o'.disjoint) : ResolveM Unit) :=
      fun p q hpq => extending.pure ⟨.ok trivial,
        List.rel_append hpq (preconditions_mono hle' ho.disjoint)⟩
    refine resolving.bind hcollect fun ρ₄ hle₄ _ _ _ => resolving.pure (.found ?_)
    have hle₄ := le_trans hle' hle₄
    exact .instance inst.source (ho.kinds.imp fun _ _ hk => hk.mono hle₄)
      (ho.cons.imp fun _ _ hc => hc.mono hle₄)
      (hfound.dicts.imp fun _ _ hd => hd.mono (by assumption))

theorem fromInstances_lockstep (fuel : Nat) {is js : List MetaId}
    (hmvars : List.Forall₂ ρ.cells is js) :
    resolving.Rel ρ Step.Twin (fromInstances context fuel resolve goal is)
      (fromInstances context' fuel resolve' goal' js) := by
  have hlift : ∀ (context : Context) (goal : Con) (is : List MetaId) (insts : List Instance),
      (insts.mapM fun inst => do return (inst, ← attempt context fuel inst goal is) :
        ResolveM (List (Instance × TryResult))) =
      liftM (insts.mapM fun inst => do return (inst, ← attempt context fuel inst goal is) :
        FuelM (List (Instance × TryResult))) := by
    intro context goal is insts
    induction insts with
    | nil => rfl
    | cons inst insts ih =>
      rw [List.mapM_cons, List.mapM_cons, ih]
      simp only [liftM_bind, liftM_pure]
  unfold fromInstances
  rw [hlift, hlift]
  refine bind_still (attempts_lockstep hcontext hgoal hmvars fuel) ?_
  rintro o o' ⟨hperm, hmem⟩
  simp only [hperm.any_eq, isEmpty_eq_of_forall₂ hmvars]
  generalize hfound : o.filterMap _ = certain, hfound' : o'.filterMap _ = certain'
  have hcertain : certain.Perm certain' := hfound ▸ hfound' ▸ hperm.filterMap _
  have hknown : ∀ inst ∈ certain, inst ∈ context.globals.instances.toList := by
    intro inst hinst
    obtain ⟨e, he, hyes⟩ := List.mem_filterMap.mp (hfound ▸ hinst)
    obtain ⟨-, hinst⟩ := Option.ite_none_right_eq_some.mp hyes
    exact Option.some.inj hinst ▸ hmem e he
  have hother : resolving.Rel ρ Step.Twin
      (if !js.isEmpty then pure (.wait is)
        else if certain.isEmpty then throw (.noInstance goal)
        else throw (.ambiguous goal (certain.map (·.source))))
      (if !js.isEmpty then pure (.wait js)
        else if certain'.isEmpty then throw (.noInstance goal')
        else throw (.ambiguous goal' (certain'.map (·.source)))) := by
    refine Lifting.ite Iff.rfl (resolving.pure (.wait hmvars)) ?_
    refine Lifting.ite (by rw [hcertain.isEmpty_eq]) (Lifting.exceptT_throw (.noInstance hgoal)) ?_
    exact Lifting.exceptT_throw (.ambiguous hgoal (hcertain.map _))
  rcases certain with _ | ⟨inst, _ | ⟨inst₂, rest⟩⟩
  · obtain rfl := List.nil_perm.mp hcertain
    exact hother
  · obtain rfl := List.singleton_perm.mp hcertain
    refine Lifting.ite Iff.rfl (resolving.pure (.wait hmvars)) ?_
    exact useInstance_lockstep H hcontext hgoal fuel
      (hcontext.instances inst (hknown inst List.mem_cons_self))
  · rcases certain' with _ | ⟨inst', _ | ⟨inst₂', rest'⟩⟩
    · cases hcertain.length_eq
    · cases hcertain.length_eq
    · exact hother

end Premises

/-! ## The search -/

theorem resolveGoal_lockstep (fuel : Nat) {ρ : Renumbering} {context context' : Context}
    (hcontext : context.Twin ρ context') {goal goal' : Con} (hgoal : goal.Twin ρ goal')
    (level : Nat) :
    resolving.Rel ρ Step.Twin (resolveGoal context fuel level goal)
      (resolveGoal context' fuel level goal') := by
  induction fuel generalizing ρ goal goal' level with
  | zero => exact lift_resolving fun _ _ _ => .none
  | succ fuel ih =>
    refine Lifting.ite (by rw [hcontext.maxDepth]) (Lifting.exceptT_throw (.depthExceeded hgoal)) ?_
    refine bind_still (headNormal_lockstep hcontext.globals fuel hgoal) fun goal goal' hgoal => ?_
    refine bind_still (Store.unsolvedMVars_lockstep fuel hgoal) fun is js hmvars => ?_
    refine resolving.bind (lift_resolving (fromLocals_lockstep hcontext hgoal hmvars fuel
      (List.rel_reverse hcontext.locals) false le_rfl)) fun ρ₁ hle₁ step step' hstep => ?_
    cases hstep with
    | some hstep => exact resolving.pure hstep
    | none =>
    have hcontext := hcontext.mono hle₁
    have hgoal := hgoal.mono hle₁
    have hmvars := hmvars.imp fun i j hi => hle₁.cells i j hi
    have H : Answers ρ₁ (resolveGoal context fuel (level + 1))
        (resolveGoal context' fuel (level + 1)) :=
      fun hle hgoal => ih (hcontext.mono hle) hgoal (level + 1)
    have hhead := head_lockstep hcontext.globals fuel hgoal
    have hclass {c c' : Con} (hc : c.Twin ρ₁ c') :=
      Lifting.ite (Bool.eq_iff_iff.mp (hcontext.globals.isClassHead_twins hc))
        (fromInstances_lockstep H hcontext hgoal fuel hmvars)
        (Lifting.exceptT_throw (ClassError.Twin.notAClass hgoal))
    cases hgoal with
    | record hrow => exact resolveRecord_lockstep H hcontext (.record hrow) fuel hrow
    | _ =>
      refine bind_still hhead fun c c' hc => ?_
      have hclass := hclass hc
      cases hc with
      | mvar hi _ => exact resolving.pure (.wait (.cons hi .nil))
      | _ => exact hclass

end Class

/-! ## Any order of the instances -/

/-- The metavariables in a kind have been made. -/
def Kind.MadeIn (k : Kind) (s : KindStore) : Prop := ∀ v ∈ k.mvars, v < s.vars.size

/-- The metavariables in a constructor have been made. -/
structure Con.MadeIn (c : Con) (s : Store) : Prop where
  cells : ∀ i, c.Mentions i → i < s.cells.size
  kinds : c.All fun node => ∀ k ∈ node.annotations, k.MadeIn s.kinds

/-- What may be written in the state of a kind metavariable. -/
def KindVarState.MadeIn (state : KindVarState) (s : KindStore) : Prop :=
  match state with
  | .unbound _ components => ∀ d ∈ components, d.2.MadeIn s
  | .link target => target.MadeIn s

/-- Everything that is mentioned has been made, and nothing is reached from itself. -/
structure Store.Coherent (s : Store) : Prop where
  states : ∀ v < s.kinds.vars.size, (s.kinds.stateOf v).MadeIn s.kinds
  cellKinds : ∀ i < s.cells.size, (s.cell i).kind.MadeIn s.kinds
  solutions : ∀ i < s.cells.size, ∀ c ∈ s.solution? i, c.MadeIn s
  kindsAcyclic : s.kinds.Acyclic
  acyclic : s.Acyclic

/-- The metavariables in a scope have been made. -/
structure Class.Context.MadeIn (context : Class.Context) (s : Store) : Prop where
  globals : ∀ c ∈ context.globals.cons, c.MadeIn s
  instances : ∀ inst ∈ context.globals.instances.toList, inst.type.MadeIn s
  locals : ∀ l ∈ context.locals, l.type.MadeIn s

/-- Every metavariable of a store as its own partner. -/
abbrev Store.same (s : Store) : Renumbering := .same s.cells.size s.kinds.vars.size

section Same

variable {s : Store}

theorem Kind.MadeIn.twin {k : Kind} (h : k.MadeIn s.kinds) : k.Twin s.same k :=
  .of_forall fun v hv => ⟨rfl, h v hv⟩

theorem Con.MadeIn.twin {c : Con} (h : c.MadeIn s) : c.Twin s.same c :=
  .of_forall (fun i hi => ⟨rfl, h.cells i hi⟩)
    (.mono h.kinds fun _ hnode k hk v hv => ⟨rfl, hnode k hk v hv⟩)
    (.mono h.kinds fun _ _ _ _ => trivial)

theorem Store.Coherent.twin (h : s.Coherent) : Store.Twin s.same s s where
  kinds :=
    { states := by
        rintro v _ ⟨rfl, hv⟩
        have hstate := h.states v hv
        generalize s.kinds.stateOf v = state at hstate
        cases state with
        | unbound predicate components =>
          exact .unbound predicate (List.forall₂_same.mpr fun d hd =>
            ⟨rfl, Kind.MadeIn.twin (hstate d hd)⟩)
        | link target => exact .link (Kind.MadeIn.twin hstate)
      below := by
        rintro v _ ⟨rfl, hv⟩
        exact ⟨hv, hv⟩
      left := h.kindsAcyclic
      right := h.kindsAcyclic }
  cells := by
    rintro i _ ⟨rfl, hi⟩
    have hsolution : Option.Rel (Con.Twin s.same) (s.solution? i) (s.solution? i) := by
      have hmade := h.solutions i hi
      generalize s.solution? i = solution at hmade
      cases solution with
      | none => exact .none
      | some c => exact .some (hmade c rfl).twin
    exact ⟨(h.cellKinds i hi).twin, hsolution⟩
  below := by
    rintro i _ ⟨rfl, hi⟩
    exact ⟨hi, hi⟩
  left := h.acyclic
  right := h.acyclic

end Same

namespace Class

/-- The same scope with other instances. -/
def Context.withInstances (context : Context) (instances : Array Instance) : Context :=
  { context with globals := { context.globals with instances } }

/-- How two searches that start in the same store end alike. -/
inductive SameEnd (s : Store) :
    Except ClassError Resolution × Store → Except ClassError Resolution × Store → Prop where
  | resolved {ρ : Renumbering} {dict dict' : Dict} {disjoint disjoint' : List (Con × Con)}
    {s₁ s₂ : Store} (old : s.same ≤ ρ) (hdict : dict.Twin ρ dict')
    (hdisjoint : List.Forall₂ (Both (Con.Twin ρ)) disjoint disjoint')
    (stores : Store.Twin ρ s₁ s₂) :
    SameEnd s (.ok (.resolved dict disjoint), s₁) (.ok (.resolved dict' disjoint'), s₂)
  | deferred {ρ : Renumbering} {is js : List MetaId} {s₁ s₂ : Store} (old : s.same ≤ ρ)
    (blockers : List.Forall₂ ρ.cells is js) (left : s.Resumes s₁) (right : s.Resumes s₂) :
    SameEnd s (.ok (.deferred is), s₁) (.ok (.deferred js), s₂)
  | failed {ρ : Renumbering} {error error' : ClassError} {s₁ s₂ : Store} (old : s.same ≤ ρ)
    (errors : error.Twin ρ error') (left : s.Resumes s₁) (right : s.Resumes s₂) :
    SameEnd s (.error error, s₁) (.error error', s₂)

theorem Context.MadeIn.twin {context : Context} {s : Store} (h : context.MadeIn s)
    {instances : Array Instance} (perm : context.globals.instances.toList.Perm instances.toList) :
    context.Twin s.same (context.withInstances instances) where
  globals := ⟨rfl, rfl, fun c hc => (h.globals c hc).twin⟩
  perm := perm
  instances inst hinst := (h.instances inst hinst).twin
  locals := List.forall₂_same.mpr fun l hl => ⟨rfl, (h.locals l hl).twin, rfl⟩
  depth := rfl
  valDepth := rfl
  maxDepth := rfl

theorem isFound_eq {ρ : Renumbering} {r q : Except ClassError Step × List (Con × Con)}
    (h : ExceptRel (ClassError.Twin ρ) (Step.Twin ρ) r.1 q.1) : isFound r = isFound q := by
  obtain ⟨r, disjoint⟩ := r
  obtain ⟨q, disjoint'⟩ := q
  cases h with
  | error => rfl
  | ok hstep => cases hstep <;> rfl

/-- Searches in twins find dictionaries on both sides or on none. -/
theorem speculate_resolveGoal_lockstep {ρ : Renumbering} {context context' : Context}
    (hcontext : context.Twin ρ context') {goal goal' : Con} (hgoal : goal.Twin ρ goal')
    (fuel : Nat) {s t : Store} (hst : Store.Twin ρ s t) :
    Option.Rel
      (fun r q => ∃ ρ', ρ ≤ ρ' ∧
        (ExceptRel (ClassError.Twin ρ') (Step.Twin ρ') r.1.1 q.1.1 ∧
          List.Forall₂ (Both (Con.Twin ρ')) r.1.2 q.1.2) ∧
        Store.Twin (if isFound r.1 then ρ' else ρ) r.2 q.2)
      (Store.speculate ((resolveGoal context fuel 0 goal).run.run []) isFound s)
      (Store.speculate ((resolveGoal context' fuel 0 goal').run.run []) isFound t) :=
  Store.speculate_lockstep (resolveGoal_composed context fuel goal)
    (resolveGoal_composed context' fuel goal')
    (resolveGoal_lockstep fuel hcontext hgoal 0 [] [] .nil) (fun _ _ _ h => isFound_eq h.1) hst

/-- The order of the instances is irrelevant to the search for a dictionary. -/
theorem resolve_perm {context : Context} {instances : Array Instance}
    (perm : context.globals.instances.toList.Perm instances.toList) {s : Store} (hs : s.Coherent)
    (hcontext : context.MadeIn s) {goal : Con} (hgoal : goal.MadeIn s) (fuel : Nat) :
    Option.Rel (SameEnd s) ((resolve context fuel goal).run s)
      ((resolve (context.withInstances instances) fuel goal).run s) := by
  have hcomposed := fun context => resolveGoal_composed context fuel goal
  have hruns := speculate_resolveGoal_lockstep (hcontext.twin perm) hgoal.twin fuel hs.twin
  rw [resolve_eq, resolve_eq]
  change Option.Rel _ ((Store.speculate _ isFound s).bind _) ((Store.speculate _ isFound s).bind _)
  rcases hleft : Store.speculate ((resolveGoal context fuel 0 goal).run.run []) isFound s with
      _ | ⟨⟨r, disjoint⟩, s₁⟩ <;>
    rcases hright : Store.speculate
        ((resolveGoal (context.withInstances instances) fuel 0 goal).run.run []) isFound s with
      _ | ⟨⟨q, disjoint'⟩, s₂⟩ <;>
    rw [hleft, hright] at hruns
  · exact .none
  · cases hruns
  · cases hruns
  · cases hruns with | some hends =>
    obtain ⟨ρ, old, ⟨hanswer, hdisjoint⟩, stores⟩ := hends
    cases hanswer with
    | error herror =>
      exact .some (.failed old herror (Store.speculate_resumes (hcomposed _) rfl hleft)
        (Store.speculate_resumes (hcomposed _) rfl hright))
    | ok hstep =>
      cases hstep with
      | found hdict => exact .some (.resolved old hdict hdisjoint stores)
      | wait hblockers =>
        exact .some (.deferred old hblockers (Store.speculate_resumes (hcomposed _) rfl hleft)
          (Store.speculate_resumes (hcomposed _) rfl hright))

/-- The same metavariables, apart from ones above `size`. -/
def SameBelow (size : Nat) : List MetaId → List MetaId → Prop :=
  List.Forall₂ fun i j => i < size ∨ j < size → i = j

/-- A search that waits does so again after new metavariables have been made, if nothing else has
changed. -/
theorem resolve_again {context : Context} {base : Store} (hbase : base.Coherent)
    (hcontext : context.MadeIn base) {goal : Con} (hgoal : goal.MadeIn base) {fuel : Nat}
    {s t s' : Store} (hs : base.Resumes s) (ht : base.Resumes t) {blockers : List MetaId}
    (h : (resolve context fuel goal).run s = some (.ok (.deferred blockers), s')) :
    ∃ blockers' t', (resolve context fuel goal).run t = some (.ok (.deferred blockers'), t') ∧
      SameBelow base.cells.size blockers blockers' := by
  have htwin : context.Twin base.same context := hcontext.twin (.refl _)
  have hruns :=
    speculate_resolveGoal_lockstep htwin hgoal.twin fuel (hbase.twin.resume hs ht)
  rw [resolve_eq] at h
  obtain ⟨⟨⟨r, disjoint⟩, s₁⟩, hleft, hanswer⟩ := Option.bind_eq_some_iff.mp h
  rw [resolve_eq]
  change ∃ _ _, (Store.speculate _ isFound t).bind _ = _ ∧ _
  rcases hright : Store.speculate ((resolveGoal context fuel 0 goal).run.run []) isFound t with
      _ | ⟨⟨q, disjoint'⟩, t₁⟩ <;>
    rw [hleft, hright] at hruns
  · cases hruns
  · cases hruns with | some hends =>
    obtain ⟨ρ, old, ⟨hanswers, -⟩, -⟩ := hends
    cases hanswers with
    | error => cases hanswer
    | ok hstep =>
      cases hstep with
      | found => cases hanswer
      | wait hblockers =>
        cases hanswer
        refine ⟨_, t₁, rfl, hblockers.imp fun i j hij hsize => ?_⟩
        rcases hsize with hi | hj
        · exact ρ.cells_unique.2 (old.cells i i ⟨rfl, hi⟩) hij
        · exact ρ.cells_unique.1 hij (old.cells j j ⟨rfl, hj⟩)

/-- A class with an instance for integers and one for strings. -/
def twoInstances : Context where
  globals :=
    { Globals.empty with
      definitions := #[⟨"C", ["C"], .class (.arrow .type .type) none, default⟩]
      instances := #[⟨.definition 1, .app (.global 0) (.prim .int)⟩,
        ⟨.definition 2, .app (.global 0) (.prim .string)⟩] }
  locals := []
  depth := 0
  valDepth := 0
  maxDepth := 8

/-- Both orders find the instance for integers. -/
theorem resolve_perm_twoInstances :
    let swapped : Array Instance := #[⟨.definition 2, .app (.global 0) (.prim .string)⟩,
      ⟨.definition 1, .app (.global 0) (.prim .int)⟩]
    let goal : Con := .app (.global 0) (.prim .int)
    twoInstances.globals.instances.toList.Perm swapped.toList ∧ Store.empty.Coherent ∧
      twoInstances.MadeIn .empty ∧ goal.MadeIn .empty ∧
      Option.Rel (SameEnd .empty) ((resolve twoInstances 4 goal).run .empty)
        ((resolve (twoInstances.withInstances swapped) 4 goal).run .empty) ∧
      ((resolve twoInstances 4 goal).run .empty).map (·.1) =
        some (.ok (.resolved (.instance (.definition 1) [] [] []) [])) := by
  intro swapped goal
  have perm : twoInstances.globals.instances.toList.Perm swapped.toList := .swap ..
  have hs : Store.empty.Coherent :=
    { states := fun _ hv => absurd hv (Nat.not_lt_zero _)
      cellKinds := fun _ hi => absurd hi (Nat.not_lt_zero _)
      solutions := fun _ hi => absurd hi (Nat.not_lt_zero _)
      kindsAcyclic := ⟨fun _ => 0, fun _ _ ⟨_, hlink, _⟩ => by
        simp [Store.empty, KindStore.empty, KindStore.stateOf] at hlink⟩
      acyclic := ⟨fun _ => 0, fun _ _ ⟨_, hsolution, _⟩ => by
        simp [Store.empty, Store.solution?, Store.cell] at hsolution⟩ }
  have happ : ∀ p, (Con.app (.global 0) (.prim p)).MadeIn .empty := fun p =>
    { cells := fun i hi => absurd hi (Con.not_mentions_of_has rfl)
      kinds := by
        rw [Con.All.iff]
        simp [Con.annotations, Con.parts, Con.All.iff (c := .global 0),
          Con.All.iff (c := .prim p)] }
  have hcontext : twoInstances.MadeIn .empty :=
    { globals := by simp [twoInstances, Globals.cons, Globals.empty]
      instances := by simp [twoInstances, happ]
      locals := by simp [twoInstances] }
  exact ⟨perm, hs, hcontext, happ _, resolve_perm perm hs hcontext (happ _) 4, by cbv⟩

end Class

end RowML
