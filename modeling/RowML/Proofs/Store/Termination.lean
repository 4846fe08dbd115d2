import RowML.Proofs.Store.Following

/-!
# Following solutions ends

No cell is reached from its own solution, so the chain of solutions at the head of a constructor
passes each cell at most once, and the replacement of all solved metavariables comes to an end.  For
the latter a smaller rank is not enough: a spine is copied into the solution before its own
metavariables are replaced, and these may have any rank.  So the solutions are taken as functions of
their spines, and the induction is on the rank first, for all spines that can be expanded.
-/

namespace RowML

/-! ## Computations that end -/

section Ends

variable {m : Type → Type} {σ : Type} [Monad m] [Executes m σ] {α β : Type} {D : Discipline σ}

/-- With enough fuel, the computation succeeds with an answer that depends on the fuel no more. -/
def Ends (D : Discipline σ) (s : σ) (x : Nat → m α) (Post : α → σ → Prop) : Prop :=
  ∃ n a s', (∀ fuel, n ≤ fuel → exec (x fuel) s = some (some a, s')) ∧
    D.Ok s' ∧ D.Grows s s' ∧ Post a s'

namespace Ends

theorem of_exec {s s' : σ} {x : Nat → m α} {a : α} {Post : α → σ → Prop}
    (h : ∀ fuel, exec (x fuel) s = some (some a, s')) (ok : D.Ok s') (grows : D.Grows s s')
    (post : Post a s') : Ends D s x Post :=
  ⟨0, a, s', fun fuel _ => h fuel, ok, grows, post⟩

theorem pure {s : σ} {a : α} {Post : α → σ → Prop} (ok : D.Ok s) (h : Post a s) :
    Ends D s (fun _ => (Pure.pure a : m α)) Post :=
  .of_exec (fun _ => exec_pure a s) ok (D.refl s ok) h

theorem bind {s : σ} {x : Nat → m α} {f : Nat → α → m β} {Mid : α → σ → Prop}
    {Post : β → σ → Prop} (ok : D.Ok s) (hx : Ends D s x Mid)
    (hf : ∀ a s', D.Ok s' → D.Grows s s' → Mid a s' → Ends D s' (fun fuel => f fuel a) Post) :
    Ends D s (fun fuel => x fuel >>= f fuel) Post := by
  obtain ⟨n, a, s', hrun, ok', grows, mid⟩ := hx
  obtain ⟨n', b, s'', hrun', ok'', grows', post⟩ := hf a s' ok' grows mid
  refine ⟨max n n', b, s'', fun fuel hfuel => ?_, ok'', D.trans ok ok' ok'' grows grows', post⟩
  rw [exec_bind, hrun fuel (by omega)]
  exact hrun' fuel (by omega)

theorem map [LawfulMonad m] {s : σ} {x : Nat → m α} {f : α → β} {Mid : α → σ → Prop}
    {Post : β → σ → Prop} (ok : D.Ok s) (hx : Ends D s x Mid)
    (h : ∀ a s', Mid a s' → Post (f a) s') : Ends D s (fun fuel => f <$> x fuel) Post := by
  simp only [map_eq_pure_bind]
  exact .bind ok hx fun a s' ok' _ mid => .pure ok' (h a s' mid)

theorem mapM [LawfulMonad m] {s : σ} {as : List α} {f : Nat → α → m β} {Q : α → β → Prop}
    (ok : D.Ok s) (hf : ∀ a ∈ as, ∀ s', D.Ok s' → D.Grows s s' →
      Ends D s' (fun fuel => f fuel a) fun b _ => Q a b) :
    Ends D s (fun fuel => as.mapM (f fuel)) fun bs _ => List.Forall₂ Q as bs := by
  induction as generalizing s with
  | nil => exact .pure ok .nil
  | cons a as ih =>
    simp only [List.mapM_cons]
    refine .bind ok (hf a (by simp) s ok (D.refl s ok)) fun b s₁ ok₁ grows₁ hb => ?_
    have hrest := ih ok₁ fun c hc s₂ ok₂ grows₂ =>
      hf c (by simp [hc]) s₂ ok₂ (D.trans ok ok₁ ok₂ grows₁ grows₂)
    exact .bind ok₁ hrest fun bs s₂ ok₂ _ hbs => .pure ok₂ (.cons hb hbs)

end Ends

/-! ## Rebuilding ends -/

namespace Con

variable {node : Nat → Depth → Con → m (Option Con)} {kind : Nat → Depth → Kind → m Kind}

/-- Rebuilding the constructor ends in every state that grows from `s`. -/
def RebuildEnds (D : Discipline σ) (node : Nat → Depth → Con → m (Option Con))
    (kind : Nat → Depth → Kind → m Kind) (s : σ) (c : Con) : Prop :=
  ∀ (s' : σ) (d : Depth), D.Ok s' → D.Grows s s' →
    Ends D s' (fun fuel => c.rebuildM (node fuel) (kind fuel) d) fun _ _ => True

theorem RebuildEnds.grows {s s' : σ} {c : Con} (h : RebuildEnds D node kind s c) (ok : D.Ok s)
    (ok' : D.Ok s') (grows : D.Grows s s') : RebuildEnds D node kind s' c :=
  fun s'' d ok'' grows' => h s'' d ok'' (D.trans ok ok' ok'' grows grows')

private theorem rebuildListM_ends {cs : List Con} {s : σ} {d : Depth} (ok : D.Ok s)
    (h : ∀ c ∈ cs, RebuildEnds D node kind s c) :
    Ends D s (fun fuel => rebuildListM (node fuel) (kind fuel) d cs) fun _ _ => True := by
  induction cs generalizing s with
  | nil => exact .pure ok trivial
  | cons c cs ih =>
    obtain ⟨hc, hcs⟩ := List.forall_mem_cons.mp h
    refine .bind ok (hc s d ok (D.refl s ok)) fun _ s₁ ok₁ grows₁ _ => ?_
    refine .bind ok₁ (ih ok₁ fun p hp => (hcs p hp).grows ok ok₁ grows₁) fun _ s₂ ok₂ _ _ => ?_
    exact .pure ok₂ trivial

private theorem rebuildFieldsM_ends {fields : List (Con × Con)} {s : σ} {d : Depth} (ok : D.Ok s)
    (h : ∀ field ∈ fields,
      RebuildEnds D node kind s field.1 ∧ RebuildEnds D node kind s field.2) :
    Ends D s (fun fuel => rebuildFieldsM (node fuel) (kind fuel) d fields) fun _ _ => True := by
  induction fields generalizing s with
  | nil => exact .pure ok trivial
  | cons field fields ih =>
    obtain ⟨⟨hname, hvalue⟩, hfields⟩ := List.forall_mem_cons.mp h
    refine .bind ok (hname s d ok (D.refl s ok)) fun _ s₁ ok₁ grows₁ _ => ?_
    refine .bind ok₁ (hvalue s₁ d ok₁ grows₁) fun _ s₂ ok₂ grows₂ _ => ?_
    have grows := D.trans ok ok₁ ok₂ grows₁ grows₂
    refine .bind ok₂ (ih ok₂ fun p hp => ⟨(hfields p hp).1.grows ok ok₂ grows,
      (hfields p hp).2.grows ok ok₂ grows⟩) fun _ s₃ ok₃ _ _ => ?_
    exact .pure ok₃ trivial

/-- If the hook ends at a node, and rebuilding ends at the parts of a node that is entered, then
rebuilding ends at the node. -/
theorem rebuildM_ends {c : Con} {s : σ} {d : Depth} (ok : D.Ok s)
    (hkind : ∀ {s} d k, D.Ok s → Ends D s (fun fuel => kind fuel d k) fun _ _ => True)
    (hnode : Ends D s (fun fuel => node fuel d c) fun r s' =>
      r = none → ∀ p ∈ c.parts, RebuildEnds D node kind s' p) :
    Ends D s (fun fuel => c.rebuildM (node fuel) (kind fuel) d) fun _ _ => True := by
  have orRebuild : ∀ {rebuild : Nat → m Con},
      (∀ s, D.Ok s → (∀ p ∈ c.parts, RebuildEnds D node kind s p) →
        Ends D s rebuild fun _ _ => True) →
      Ends D s (fun fuel => orRebuild (node fuel d c) fun _ => rebuild fuel) fun _ _ => True := by
    intro rebuild hrebuild
    refine .bind ok hnode fun r s₁ ok₁ _ h => ?_
    cases r with
    | some _ => exact .pure ok₁ trivial
    | none => exact hrebuild s₁ ok₁ (h rfl)
  clear hnode
  cases c with
  | prim | unit | error | bvar | global | member | relative | skolem | label =>
    exact orRebuild fun s ok _ => .pure ok trivial
  | mvar v spine | tuple spine =>
    refine orRebuild fun s ok h => ?_
    exact .bind ok (rebuildListM_ends ok h) fun _ s₁ ok₁ _ _ => .pure ok₁ trivial
  | row k fields =>
    refine orRebuild fun s ok h => ?_
    refine .bind ok (hkind d k ok) fun _ s₁ ok₁ grows₁ _ => ?_
    refine .bind ok₁ (rebuildFieldsM_ends ok₁ fun field hfield => ?_) fun _ s₂ ok₂ _ _ => ?_
    · exact ⟨(h _ (List.mem_flatMap.mpr ⟨field, hfield, by simp⟩)).grows ok ok₁ grows₁,
        (h _ (List.mem_flatMap.mpr ⟨field, hfield, by simp⟩)).grows ok ok₁ grows₁⟩
    · exact .pure ok₂ trivial
  | app f a | arrow f a | concat f a | proj f a =>
    refine orRebuild fun s ok h => ?_
    refine .bind ok (h f (by simp [parts]) s d ok (D.refl s ok)) fun _ s₁ ok₁ grows₁ _ => ?_
    refine .bind ok₁ (h a (by simp [parts]) s₁ d ok₁ grows₁) fun _ s₂ ok₂ _ _ => ?_
    exact .pure ok₂ trivial
  | abs x k body | poly x i k body =>
    refine orRebuild fun s ok h => ?_
    refine .bind ok (hkind d k ok) fun _ s₁ ok₁ grows₁ _ => ?_
    refine .bind ok₁ (h body (by simp [parts]) s₁ d.underCon ok₁ grows₁) fun _ s₂ ok₂ _ _ => ?_
    exact .pure ok₂ trivial
  | kabs x r | kpoly x r =>
    refine orRebuild fun s ok h => ?_
    refine .bind ok (h r (by simp [parts]) s d.underKind ok (D.refl s ok)) fun _ s₁ ok₁ _ _ => ?_
    exact .pure ok₁ trivial
  | record r | variant r | component r i =>
    refine orRebuild fun s ok h => ?_
    refine .bind ok (h r (by simp [parts]) s d ok (D.refl s ok)) fun _ s₁ ok₁ _ _ => ?_
    exact .pure ok₁ trivial
  | kapp f k =>
    refine orRebuild fun s ok h => ?_
    refine .bind ok (h f (by simp [parts]) s d ok (D.refl s ok)) fun _ s₁ ok₁ grows₁ _ => ?_
    exact .bind ok₁ (hkind d k ok₁) fun _ s₂ ok₂ _ _ => .pure ok₂ trivial
  | disjoint l r body =>
    refine orRebuild fun s ok h => ?_
    refine .bind ok (h l (by simp [parts]) s d ok (D.refl s ok)) fun _ s₁ ok₁ grows₁ _ => ?_
    refine .bind ok₁ (h r (by simp [parts]) s₁ d ok₁ grows₁) fun _ s₂ ok₂ grows₂ _ => ?_
    have grows := D.trans ok ok₁ ok₂ grows₁ grows₂
    refine .bind ok₂ (h body (by simp [parts]) s₂ d ok₂ grows) fun _ s₃ ok₃ _ _ => ?_
    exact .pure ok₃ trivial
  | map k₁ k₂ f r =>
    refine orRebuild fun s ok h => ?_
    refine .bind ok (hkind d k₁ ok) fun _ s₁ ok₁ grows₁ _ => ?_
    refine .bind ok₁ (hkind d k₂ ok₁) fun _ s₂ ok₂ grows₂ _ => ?_
    have grows₂ := D.trans ok ok₁ ok₂ grows₁ grows₂
    refine .bind ok₂ (h f (by simp [parts]) s₂ d ok₂ grows₂) fun _ s₃ ok₃ grows₃ _ => ?_
    have grows₃ := D.trans ok ok₂ ok₃ grows₂ grows₃
    refine .bind ok₃ (h r (by simp [parts]) s₃ d ok₃ grows₃) fun _ s₄ ok₄ _ _ => ?_
    exact .pure ok₄ trivial

end Con

end Ends

/-! ## Skeletons -/

namespace Con

/-- The constructor without its variables and kinds, which the end of a computation never depends
on. -/
def skeleton (c : Con) : Con := c.traverse (fun _ _ => .bvar 0) (fun _ _ => .type) Depth.zero

private theorem traverse_eq_skeleton (c : Con) (d : Depth) :
    c.traverse (fun _ _ => .bvar 0) (fun _ _ => .type) d = c.skeleton := by
  induction c using inductionOnParts generalizing d with
  | step c ih =>
    by_cases hbvar : ∃ i, c = .bvar i
    · obtain ⟨i, rfl⟩ := hbvar
      rfl
    · have hbvar : ∀ i, c ≠ .bvar i := fun i hi => hbvar ⟨i, hi⟩
      unfold skeleton
      refine eq_of_frame ?_ ?_ ?_
      · rw [frame_traverse hbvar, frame_traverse hbvar]
      · rw [annotations_traverse hbvar, annotations_traverse hbvar]
      · rw [parts_traverse hbvar, parts_traverse hbvar]
        exact List.map_congr_left fun p hp => (ih p hp _).trans (ih p hp _).symm

theorem frame_skeleton {c : Con} (hbvar : ∀ i, c ≠ .bvar i) : c.skeleton.frame = c.frame :=
  frame_traverse hbvar

theorem parts_skeleton {c : Con} (hbvar : ∀ i, c ≠ .bvar i) :
    c.skeleton.parts = c.parts.map skeleton := by
  unfold skeleton
  rw [parts_traverse hbvar]
  exact List.map_congr_left fun p _ => traverse_eq_skeleton p _

/-- Traversals that agree in the skeletons that they put for variables. -/
theorem skeleton_traverse {vars vars' : Depth → Nat → Con} {kinds kinds' : Depth → Kind → Kind}
    (h : ∀ d i, (vars d i).skeleton = (vars' d i).skeleton) (c : Con) (d : Depth) :
    (c.traverse vars kinds d).skeleton = (c.traverse vars' kinds' d).skeleton := by
  unfold skeleton
  refine traverse_square Depth.zero d Depth.zero d (fun e i => ?_) (fun e k => ?_) Depth.zero c
  · rw [traverse_eq_skeleton, traverse_eq_skeleton]
    exact h _ _
  · rfl

theorem skeleton_weakened (c : Con) (d : Depth) : (c.weakened d).skeleton = c.skeleton := by
  have hid : c.traverse (fun _ i => .bvar i) (fun _ k => k) Depth.zero = c :=
    traverse_eq_self Depth.zero Depth.zero (Nodes.of_forall fun _ _ => by simp)
  conv_rhs => rw [← hid]
  unfold weakened
  refine skeleton_traverse (fun e i => ?_) c Depth.zero
  rfl

theorem skeleton_instantiated {spine spine' : List Con}
    (h : spine.map skeleton = spine'.map skeleton) (c : Con) :
    (c.instantiated spine).skeleton = (c.instantiated spine').skeleton := by
  refine skeleton_traverse (fun d i => ?_) c Depth.zero
  have hget : (spine.reverse[i - d.con]?).map skeleton =
    (spine'.reverse[i - d.con]?).map skeleton := by
    rw [← List.getElem?_map, ← List.getElem?_map, List.map_reverse, List.map_reverse, h]
  unfold spineVar
  split
  · rfl
  · rcases hargument : spine.reverse[i - d.con]? with _ | argument <;>
      rcases hargument' : spine'.reverse[i - d.con]? with _ | argument' <;>
        rw [hargument, hargument'] at hget
    · rfl
    · cases hget
    · cases hget
    · simpa [skeleton_weakened] using hget

theorem Resembles.skeleton_eq {c c' : Con} (h : Resembles c c') : c.skeleton = c'.skeleton := by
  induction c using inductionOnParts generalizing c' with
  | step c ih =>
    by_cases hbvar : ∃ i, c = .bvar i
    · obtain ⟨i, rfl⟩ := hbvar
      rw [h.leaf rfl rfl]
    · have hbvar : ∀ i, c ≠ .bvar i := fun i hi => hbvar ⟨i, hi⟩
      have hbvar' := ne_bvar_of_frame h.frame_eq.symm hbvar
      refine eq_of_frame ?_ ?_ ?_
      · rw [frame_skeleton hbvar, frame_skeleton hbvar', h.frame_eq]
      · unfold skeleton
        rw [annotations_traverse hbvar, annotations_traverse hbvar', List.map_const',
          List.map_const', length_annotations_eq h.frame_eq]
      · rw [parts_skeleton hbvar, parts_skeleton hbvar']
        have hparts := List.forall₂_iff_get.mp h.parts
        refine List.ext_getElem (by simpa using hparts.1) fun i hi hi' => ?_
        rw [List.getElem_map, List.getElem_map]
        rw [List.length_map] at hi hi'
        exact ih _ (List.getElem_mem hi) (hparts.2 i hi hi')

/-- Constructors with one skeleton are variables or the same node over parts with one skeleton. -/
theorem skeleton_cases {c c' : Con} (h : c'.skeleton = c.skeleton) :
    (∃ i, c' = .bvar i) ∨ c'.frame = c.frame ∧ c'.parts.map skeleton = c.parts.map skeleton := by
  by_cases hbvar' : ∃ i, c' = .bvar i
  · exact .inl hbvar'
  by_cases hbvar : ∃ i, c = .bvar i
  · obtain ⟨i, rfl⟩ := hbvar
    have hbvar' : ∀ i, c' ≠ .bvar i := fun i hi => hbvar' ⟨i, hi⟩
    have hframe : c'.frame = (Con.bvar 0).frame := by
      rw [← frame_skeleton hbvar', h]
      rfl
    exact .inl ⟨0, (eq_of_frame_leaf hframe.symm rfl rfl).symm⟩
  · have hbvar' : ∀ i, c' ≠ .bvar i := fun i hi => hbvar' ⟨i, hi⟩
    have hbvar : ∀ i, c ≠ .bvar i := fun i hi => hbvar ⟨i, hi⟩
    refine .inr ⟨?_, ?_⟩
    · rw [← frame_skeleton hbvar', h, frame_skeleton hbvar]
    · rw [← parts_skeleton hbvar', h, parts_skeleton hbvar]

end Con

namespace Store

variable {store : Store}

/-! ## The chain at the head -/

/-- Some rank counts the cells that a chain of solutions can pass. -/
theorem Acyclic.exists_bounded_rank (acyclic : store.Acyclic) :
    ∃ rank, Ranks store.Leads rank ∧ (∀ i, store.isSolved i = true → 0 < rank i) ∧
      ∀ i, rank i ≤ store.cells.size := by
  obtain ⟨rank, hrank⟩ := acyclic
  refine hrank.exists_bounded ?_ ?_
  · rintro v w ⟨solution, hv, -⟩
    simp [isSolved, hv]
  · intro v hv
    obtain ⟨solution, hsolution⟩ := Option.isSome_iff_exists.mp hv
    exact lt_of_solution hsolution

theorem resolveWithin_unsolved {c : Con}
    (h : ∀ i spine, c = .mvar i spine → store.isSolved i = false) (n : Nat) :
    (resolveWithin n c).run store = (c, store) := by
  cases n with
  | zero => cases c <;> rfl
  | succ n =>
    cases c with
    | mvar i spine =>
      have hi : store.solution? i = none := by simpa [isSolved] using h i spine rfl
      rw [resolveWithin, StateT.run_bind, StateT.run_get, pure_bind, hi]
      rfl
    | _ => rfl

/-- The fuel of `resolve` is enough: a chain of solutions passes each cell at most once. -/
theorem Acyclic.resolveWithin_eq (acyclic : store.Acyclic) (c : Con) {n : Nat}
    (hn : store.cells.size ≤ n) :
    (resolveWithin n c).run store = (resolve c).run store := by
  obtain ⟨rank, hrank, hpositive, hle⟩ := acyclic.exists_bounded_rank
  have henough : ∀ (n n' : Nat) (c : Con),
      (∀ i spine, c = .mvar i spine → rank i ≤ n ∧ rank i ≤ n') →
      (resolveWithin n c).run store = (resolveWithin n' c).run store := by
    intro n
    induction n with
    | zero =>
      intro n' c hc
      have hunsolved : ∀ i spine, c = .mvar i spine → store.isSolved i = false := by
        intro i spine hi
        by_contra hsolved
        have := hpositive i (by simpa using hsolved)
        have := (hc i spine hi).1
        omega
      rw [resolveWithin_unsolved hunsolved, resolveWithin_unsolved hunsolved]
    | succ n ih =>
      intro n' c hc
      by_cases hunsolved : ∀ i spine, c = .mvar i spine → store.isSolved i = false
      · rw [resolveWithin_unsolved hunsolved, resolveWithin_unsolved hunsolved]
      · push Not at hunsolved
        obtain ⟨i, spine, rfl, hsolved⟩ := hunsolved
        have hsolved : store.isSolved i = true := by simpa using hsolved
        have hpositive := hpositive i hsolved
        obtain ⟨target, htarget⟩ := Option.isSome_iff_exists.mp hsolved
        obtain ⟨hn, hn'⟩ := hc i spine rfl
        obtain ⟨n', rfl⟩ : ∃ k, n' = k + 1 := ⟨n' - 1, by omega⟩
        have hnext := ih n' target fun j spine' hj => by
          have := hrank i j ⟨target, htarget, hj ▸ .here spine'⟩
          omega
        rw [resolveWithin_solved n spine htarget, resolveWithin_solved n' spine htarget, hnext]
  exact henough n store.cells.size c fun i _ _ => ⟨Nat.le_trans (hle i) hn, hle i⟩

/-! ## All metavariables -/

/-- What a pass that replaces all solved metavariables does at a node. -/
def zonkNode (fuel : Nat) (_ : Depth) (node : Con) : FuelM (Option Con) := do
  if !(node.has .mvar || node.has .kindMVar) then pure (some node)
  else
    match node with
    | .mvar _ _ =>
      let resolved ← resolve node
      if resolved ≠ node then some <$> zonk fuel resolved else pure none
    | _ => pure none

def zonkKind (_ : Depth) (k : Kind) : FuelM Kind := do onKinds (KindStore.zonk k)

/-- The discipline of computations that solve nothing and respect a rank. -/
def ranked (rank : MetaId → Nat) : Discipline Store where
  Ok store := store.Steady ∧ Ranks store.Leads rank
  Grows := Compresses
  refl store _ := Compresses.refl store
  trans _ _ _ := Compresses.trans

/-- Whatever has the skeleton of `c` is expanded in the end. -/
private def Ending (rank : MetaId → Nat) (c : Con) : Prop :=
  ∀ (c' : Con) (store : Store) (d : Depth), c'.skeleton = c.skeleton → (ranked rank).Ok store →
    c'.Fits store →
    Ends (ranked rank) store (fun fuel => c'.rebuildM (zonkNode fuel) zonkKind d) fun _ _ => True

variable {rank : MetaId → Nat}

private theorem Ending.of_skeleton {c c' : Con} (h : Ending rank c)
    (hskeleton : c'.skeleton = c.skeleton) : Ending rank c' :=
  fun c store d hc ok hfits => h c store d (hc.trans hskeleton) ok hfits

private theorem Ending.zonk {c c' : Con} (h : Ending rank c) (hskeleton : c'.skeleton = c.skeleton)
    (ok : (ranked rank).Ok store) (hfits : c'.Fits store) :
    Ends (ranked rank) store (fun fuel => zonk fuel c') fun _ _ => True := by
  obtain ⟨n, r, store', hrun, ok', compresses, -⟩ := h c' store Depth.zero hskeleton ok hfits
  refine ⟨n + 1, r, store', fun fuel hfuel => ?_, ok', compresses, trivial⟩
  obtain ⟨fuel, rfl⟩ : ∃ n, fuel = n + 1 := ⟨fuel - 1, by omega⟩
  exact hrun fuel (by omega)

private theorem zonkKind_ends (d : Depth) (k : Kind) (ok : (ranked rank).Ok store) :
    Ends (ranked rank) store (fun _ => zonkKind d k) fun _ _ => True := by
  have same := sameCells_withKinds store ((KindStore.zonk k).run store.kinds).2
  refine .of_exec (fun _ => rfl) ⟨same.steady ok.1, ?_⟩ (.of_sameCells same) trivial
  rintro v w ⟨solution, hv, hw⟩
  exact ok.2 v w ⟨solution, same.solution? ▸ hv, hw⟩

/-- From the parts of a node to the node: a solved metavariable needs in addition that its solution
can be expanded for this spine. -/
private theorem Ending.of_parts {c : Con} (hparts : ∀ p ∈ c.parts, Ending rank p)
    (hsolved : ∀ i spine, c = .mvar i spine → ∀ solution : Con,
      (∀ j, solution.Mentions j → rank j < rank i) → Ending rank (solution.instantiated spine)) :
    Ending rank c := by
  intro c' store d hskeleton ok hfits
  refine Con.rebuildM_ends ok (fun d k ok => zonkKind_ends d k ok) ?_
  have hbelow : ∀ {store' : Store}, store.Compresses store' → ∀ p ∈ c'.parts,
      Con.RebuildEnds (ranked rank) zonkNode (fun _ => zonkKind) store' p := by
    intro store' compresses p hp s d ok' compresses'
    rcases Con.skeleton_cases hskeleton with ⟨i, rfl⟩ | ⟨-, hmap⟩
    · cases hp
    · obtain ⟨q, hq, hqp⟩ := List.mem_map.mp (hmap ▸ List.mem_map_of_mem hp)
      exact hparts q hq p s d hqp.symm ok'
        ((hfits.part hp).evolves (compresses.trans compresses').toEvolves)
  have hresolved : ∀ {i spine r store'}, c' = .mvar i spine → Ranks (Leads store') rank →
      Chased store store.cells.size c' r store' → r ≠ c' → Ending rank r := by
    rintro i spine r store' rfl hrank chased hr
    obtain ⟨before, -, same, hread⟩ := chased.answer.resolve_left hr
    cases hread with
    | @intro _ _ solution _ hsolution hr =>
    rcases Con.skeleton_cases hskeleton with ⟨j, hj⟩ | ⟨hframe, hmap⟩
    · cases hj
    have hmvar := Con.eq_mvar_of_frame hframe
    have hending := hsolved i c.parts hmvar solution fun j hj =>
      hrank i j ⟨solution, same.solution? ▸ hsolution, hj⟩
    refine hending.of_skeleton ?_
    rw [← hr, ← (Con.instantiate_resembles solution spine before.kinds).skeleton_eq]
    exact Con.skeleton_instantiated hmap solution
  unfold zonkNode
  split
  next => exact .pure ok (by simp)
  next =>
  split
  next i spine _ =>
    have chased := chased_resolveWithin store.cells.size ok.1 hfits
    have ok' : (ranked rank).Ok ((resolve (.mvar i spine)).run store).2 :=
      ⟨chased.ok, chased.ranks ok.2⟩
    have hresolve : Ends (ranked rank) store
        (fun _ => (liftM (resolve (.mvar i spine)) : FuelM Con)) fun r store' =>
          Chased store store.cells.size (.mvar i spine) r store' :=
      .of_exec (fun _ => rfl) ok' chased.compresses chased
    refine .bind ok hresolve fun r store' ok' compresses chased => ?_
    split
    next hr =>
      refine .map ok' (Ending.zonk (hresolved rfl ok'.2 chased hr) rfl ok' chased.fits) ?_
      simp
    next => exact .pure ok' fun _ => hbelow compresses
  next => exact .pure ok fun _ => hbelow (.refl store)

/-- A constructor over metavariables of small rank can be expanded for every spine that can be
expanded. -/
private theorem ending_instantiatedAt (n : Nat) {c : Con} (hc : ∀ j, c.Mentions j → rank j < n)
    {spine : List Con} (hspine : ∀ a ∈ spine, Ending rank a) (d : Depth) :
    Ending rank (c.instantiatedAt spine d) := by
  induction n using Nat.strong_induction_on generalizing c spine d with
  | _ n ihrank =>
  induction c using Con.inductionOnParts generalizing d with
  | step c ih =>
    have hvar : ∀ i, Ending rank (.bvar i) := fun i =>
      .of_parts (by simp [Con.parts]) (by simp)
    by_cases hbvar : ∃ i, c = .bvar i
    · obtain ⟨i, rfl⟩ := hbvar
      change Ending rank (Con.spineVar spine d i)
      unfold Con.spineVar
      split
      · exact hvar i
      · split
        next argument hget =>
          have hmem := List.mem_reverse.mp (List.mem_of_getElem? hget)
          exact (hspine argument hmem).of_skeleton (Con.skeleton_weakened argument d)
        next => exact hvar _
    · have hbvar : ∀ i, c ≠ .bvar i := fun i hi => hbvar ⟨i, hi⟩
      have hparts : ∀ p ∈ (c.instantiatedAt spine d).parts, Ending rank p := by
        rw [Con.instantiatedAt, Con.parts_traverse hbvar]
        refine List.forall_mem_map.mpr fun p hp => ?_
        exact ih p hp (fun j hj => hc j (.part hp hj)) _
      refine .of_parts hparts fun i spine' hmvar solution hsolution => ?_
      have hframe : (c.instantiatedAt spine d).frame = c.frame := Con.frame_traverse hbvar
      rw [hmvar] at hframe
      have hlt : rank i < n := hc i (Con.eq_mvar_of_frame hframe ▸ .here _)
      rw [hmvar] at hparts
      exact ihrank (rank i) hlt hsolution hparts Depth.zero

/-- Replacing all solved metavariables ends. -/
theorem zonk_ends (ok : store.Steady) {c : Con} (hc : c.Fits store) :
    ∃ n r, ∀ fuel, n ≤ fuel → (zonk fuel c).run store = some r := by
  obtain ⟨rank, hrank, -, hle⟩ := ok.acyclic.exists_bounded_rank
  have hending : Ending rank (c.instantiated []) :=
    ending_instantiatedAt (store.cells.size + 1) (fun j _ => Nat.lt_succ_of_le (hle j)) (by simp)
      Depth.zero
  rw [Con.instantiated_nil] at hending
  obtain ⟨n, r, store', hrun, -⟩ := hending.zonk rfl ⟨ok, hrank⟩ hc
  refine ⟨n, (r, store'), fun fuel hfuel => ?_⟩
  obtain ⟨⟨r', store''⟩, hzonk, hr⟩ := Option.map_eq_some_iff.mp (hrun fuel hfuel)
  cases hr
  exact hzonk

end Store

end RowML
