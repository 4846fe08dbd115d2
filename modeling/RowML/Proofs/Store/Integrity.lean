import RowML.Proofs.Unify.Equations

/-!
# The integrity of a store

Whatever is done to a store, poison and ill-kinded constructors included, its solutions fit its
cells: every metavariable that is written somewhere exists and has a full spine, a solution looks
only at the variables of its cell, and no cell is reached from its own solution.  The trail is part
of this, since a rollback puts old solutions back: the solutions fit the cells after any number of
steps backwards.

A computation evolves a store.  It makes cells, solves cells, and rewrites the solution of a solved
cell only by reading the metavariable at its head, so that every cell keeps its meaning; while a
snapshot is open, the trail leads back to where the computation started.
-/

namespace RowML

/-- A metavariable exists and has a spine of the length that its cell asks for. -/
def Con.NodeFits (store : Store) (node : Con) : Prop :=
  ∀ id spine, node = .mvar id spine →
    id < store.cells.size ∧ spine.length = (store.cell id).arity

/-- Every metavariable that is written in a constructor exists and has a full spine. -/
def Con.Fits (store : Store) (c : Con) : Prop := c.All (Con.NodeFits store)

namespace Con.Fits

variable {store store' : Store} {c p : Con}

theorem top (h : c.Fits store) : c.NodeFits store := (All.iff.mp h).1

theorem part (h : c.Fits store) (hp : p ∈ c.parts) : p.Fits store := (All.iff.mp h).2 p hp

/-- A node other than a metavariable over parts that fit. -/
theorem node (hmvar : ∀ id spine, c ≠ .mvar id spine) (hparts : ∀ p ∈ c.parts, p.Fits store) :
    c.Fits store :=
  .intro (fun id spine h => absurd h (hmvar id spine)) hparts

theorem leaf (hmvar : ∀ id spine, c ≠ .mvar id spine) (hparts : c.parts = []) : c.Fits store :=
  node hmvar (by simp [hparts])

theorem bvar (i : Nat) : (Con.bvar i).Fits store := leaf (by simp) rfl

theorem error : Con.error.Fits store := leaf (by simp) rfl

theorem app {f a : Con} (hf : f.Fits store) (ha : a.Fits store) : (Con.app f a).Fits store :=
  node (by simp) (by simp [parts, hf, ha])

theorem concat {l r : Con} (hl : l.Fits store) (hr : r.Fits store) :
    (Con.concat l r).Fits store :=
  node (by simp) (by simp [parts, hl, hr])

theorem map {d e : Kind} {f r : Con} (hf : f.Fits store) (hr : r.Fits store) :
    (Con.map d e f r).Fits store :=
  node (by simp) (by simp [parts, hf, hr])

theorem row {k : Kind} {fields : List (Con × Con)}
    (h : ∀ field ∈ fields, field.1.Fits store ∧ field.2.Fits store) :
    (Con.row k fields).Fits store := by
  refine node (by simp) fun p hp => ?_
  obtain ⟨field, hfield, hp⟩ := List.mem_flatMap.mp hp
  rcases List.mem_pair.mp hp with rfl | rfl
  · exact (h field hfield).1
  · exact (h field hfield).2

theorem field {k : Kind} {fields : List (Con × Con)} (h : (Con.row k fields).Fits store)
    {field : Con × Con} (hfield : field ∈ fields) :
    field.1.Fits store ∧ field.2.Fits store :=
  ⟨h.part (List.mem_flatMap.mpr ⟨field, hfield, by simp⟩),
    h.part (List.mem_flatMap.mpr ⟨field, hfield, by simp⟩)⟩

theorem mono (h : c.Fits store) (hsize : store.cells.size ≤ store'.cells.size)
    (harity : ∀ i < store.cells.size, (store'.cell i).arity = (store.cell i).arity) :
    c.Fits store' := by
  refine All.mono h fun node hnode id spine hmvar => ?_
  obtain ⟨hid, hspine⟩ := hnode id spine hmvar
  exact ⟨Nat.lt_of_lt_of_le hid hsize, hspine.trans (harity id hid).symm⟩

end Con.Fits

namespace Con

/-- Only the frame of a node decides whether it fits. -/
theorem NodeFits.of_frame {store : Store} {c c' : Con} (h : c.NodeFits store)
    (hframe : c.frame = c'.frame) : c'.NodeFits store := by
  rintro id spine rfl
  have hlength : c.parts.length = spine.length := length_parts_eq hframe
  exact hlength ▸ h id c.parts (eq_mvar_of_frame hframe.symm)

theorem Fits.of_alike {store : Store} {kinds : Kind → Kind → Prop} {c c' : Con}
    (hc : c.Fits store) (h : Alike kinds c c') : c'.Fits store := by
  induction c using inductionOnParts generalizing c' with
  | step c ih =>
    refine .intro (hc.top.of_frame h.frame_eq) ?_
    exact forall_mem_of_forall₂ h.parts fun p hp p' hpp => ih p hp (hc.part hp) hpp

theorem Fits.traverse {store : Store} {vars : Depth → Nat → Con} {kinds : Depth → Kind → Kind}
    {c : Con} (hc : c.Fits store) (hvars : ∀ d i, (vars d i).Fits store) (d : Depth) :
    (c.traverse vars kinds d).Fits store := by
  induction c using inductionOnParts generalizing d with
  | step c ih =>
    by_cases hbvar : ∃ i, c = .bvar i
    · obtain ⟨i, rfl⟩ := hbvar
      exact hvars d i
    · have hbvar : ∀ i, c ≠ .bvar i := fun i hi => hbvar ⟨i, hi⟩
      refine .intro (hc.top.of_frame (frame_traverse hbvar).symm) ?_
      rw [parts_traverse hbvar]
      exact List.forall_mem_map.mpr fun p hp => ih p hp (hc.part hp) _

theorem Fits.weakened {store : Store} {c : Con} (hc : c.Fits store) (d : Depth) :
    (c.weakened d).Fits store :=
  hc.traverse (fun _ _ => .bvar _) _

theorem Fits.instantiated {store : Store} {c : Con} {spine : List Con} (hc : c.Fits store)
    (hspine : ∀ a ∈ spine, a.Fits store) : (c.instantiated spine).Fits store := by
  refine hc.traverse (fun d i => ?_) _
  unfold spineVar
  split
  · exact .bvar _
  · split
    next argument hget =>
      exact (hspine argument (List.mem_reverse.mp (List.mem_of_getElem? hget))).weakened d
    next => exact .bvar _

/-- If variables are put for the variables of a constructor and the result fits, so does the
constructor. -/
theorem Fits.of_instantiatedAt {store : Store} {vars : List Nat} {c : Con} {d : Depth}
    (h : (c.instantiatedAt (varSpine vars) d).Fits store) : c.Fits store := by
  induction c using inductionOnParts generalizing d with
  | step c ih =>
    by_cases hbvar : ∃ i, c = .bvar i
    · obtain ⟨i, rfl⟩ := hbvar
      exact .bvar i
    · have hbvar : ∀ i, c ≠ .bvar i := fun i hi => hbvar ⟨i, hi⟩
      refine .intro (h.top.of_frame (frame_traverse hbvar)) fun p hp => ?_
      have hmem : p.instantiatedAt (varSpine vars) (d + c.binders) ∈
          (c.instantiatedAt (varSpine vars) d).parts := by
        rw [instantiatedAt, parts_traverse hbvar]
        exact List.mem_map_of_mem hp
      exact ih p hp (h.part hmem)

/-! ## Passes -/

/-- A pass that keeps constructors fitting a store. -/
def fitting {σ : Type} (store : Store) : PassSpec σ where
  Pre _ _ c := c.Fits store
  KindPre _ _ _ := True
  Enters _ _ _ := True
  Post _ _ _ c' := c'.Fits store
  KindPost _ _ _ _ := True

/-- A pass that replaces nodes by constructors that fit. -/
theorem fitting_pass {m : Type → Type} {σ : Type} [Monad m] [Executes m σ] {store : Store}
    {node : Depth → Con → m (Option Con)} {kind : Depth → Kind → m Kind}
    (hnode : ∀ s d c, c.Fits store → Yields (.indifferent σ) s (node d c)
      fun r _ => ∀ c', r = some c' → c'.Fits store) :
    Pass (.indifferent σ) (fitting store) node kind where
  pre_grows _ _ h := h
  kindPre_grows _ _ h := h
  enters_grows _ _ h := h
  post_grows _ _ h := h
  kindPost_grows _ _ h := h
  pre_part h hp := h.part hp
  pre_kind _ _ := trivial
  node_yields := by
    intro s d c _ hc
    refine (hnode s d c hc).mono fun r s' _ _ h => ?_
    cases r with
    | some c' => exact h c' rfl
    | none => trivial
  kind_yields := by
    rintro s d k - - r s' -
    exact ⟨trivial, trivial, fun _ _ => trivial⟩
  close := by
    intro s d c c' _ hc _ related
    refine .intro (hc.top.of_frame related.frame) ?_
    exact forall_mem_of_forall₂ related.parts fun _ _ _ hp => hp

/-- A pass that keeps annotations keeps a property of nodes that looks at nothing else besides what
the nodes themselves are. -/
theorem All.rebuild {Q : Con → Prop} {node : Depth → Con → Option Con} {c : Con}
    (hQ : ∀ {c c' : Con}, c.frame = c'.frame → c.annotations = c'.annotations → Q c → Q c')
    (hnode : ∀ d c c', All Q c → node d c = some c' → All Q c') (hc : All Q c) :
    All Q (c.rebuild node) := by
  have pass : Pass (m := Id) (.indifferent Unit)
      { Pre := fun _ _ c => All Q c
        KindPre := fun _ _ _ => True
        Enters := fun _ _ _ => True
        Post := fun _ _ _ c' => All Q c'
        KindPost := fun _ _ k k' => k = k' }
      (fun d c => pure (node d c)) (fun _ k => pure k) :=
    { pre_grows := fun _ _ h => h
      kindPre_grows := fun _ _ h => h
      enters_grows := fun _ _ h => h
      post_grows := fun _ _ h => h
      kindPost_grows := fun _ _ h => h
      pre_part := fun h hp => (All.iff.mp h).2 _ hp
      pre_kind := fun _ _ => trivial
      node_yields := by
        intro s d c _ hc
        refine Yields.pure trivial ?_
        cases hr : node d c with
        | some c' => exact hnode d c c' hc hr
        | none => trivial
      kind_yields := fun _ _ => Yields.pure trivial rfl
      close := by
        intro s d c c' _ hc _ related
        refine .intro (hQ related.frame ?_ (All.iff.mp hc).1) ?_
        · exact List.forall₂_eq_eq_eq ▸ related.annotations
        · exact forall_mem_of_forall₂ related.parts fun _ _ _ hp => hp }
  exact (pass.rebuildM_yields c (s := ()) (d := Depth.zero) trivial hc _ _ rfl).2.2 _ rfl

theorem Fits.rebuild {store : Store} {node : Depth → Con → Option Con} {c : Con}
    (hc : c.Fits store)
    (hnode : ∀ d c c', c.Fits store → node d c = some c' → c'.Fits store) :
    (c.rebuild node).Fits store :=
  All.rebuild (fun hframe _ h => h.of_frame hframe) hnode hc

theorem Fits.substModules {store : Store} {c : Con} (hc : c.Fits store) (first : Nat)
    (refs : List ModuleRef) : (c.substModules first refs).Fits store := by
  unfold Con.substModules
  split
  · exact hc
  · refine hc.rebuild fun d c c' hc h => ?_
    split at h
    · cases h
      exact hc
    · split at h
      · split at h
        · cases h
          exact hc
        · split at h <;> cases h <;> exact .leaf (by simp) rfl
      · cases h

end Con

namespace Store

variable {store store' : Store}

/-! ## Solutions that fit -/

/-- A choice of solutions leads from one cell to another. -/
def LeadsBy (solution? : MetaId → Option Con) (i j : MetaId) : Prop :=
  ∃ solution, solution? i = some solution ∧ solution.Mentions j

/-- The cells of a store admit a choice of solutions. -/
structure Admits (store : Store) (solution? : MetaId → Option Con) : Prop where
  fits : ∀ {i solution}, solution? i = some solution → solution.Fits store
  bounds : ∀ {i solution}, solution? i = some solution → solution.bound ≤ (store.cell i).arity
  acyclic : ∃ rank, Ranks (LeadsBy solution?) rank
  exists_cell : ∀ {i solution}, solution? i = some solution → i < store.cells.size

theorem Admits.mono {solution? : MetaId → Option Con} (h : store.Admits solution?)
    (hsize : store.cells.size ≤ store'.cells.size)
    (harity : ∀ i < store.cells.size, (store'.cell i).arity = (store.cell i).arity) :
    store'.Admits solution? where
  fits hi := (h.fits hi).mono hsize harity
  bounds hi := by
    rw [harity _ (h.exists_cell hi)]
    exact h.bounds hi
  acyclic := h.acyclic
  exists_cell hi := Nat.lt_of_lt_of_le (h.exists_cell hi) hsize

theorem Admits.update {solution? : MetaId → Option Con} (h : store.Admits solution?) {id : MetaId}
    (hid : id < store.cells.size) {solution : Con} (hfits : solution.Fits store)
    (hbound : solution.bound ≤ (store.cell id).arity)
    (acyclic : ∃ rank, Ranks (LeadsBy (Function.update solution? id (some solution))) rank) :
    store.Admits (Function.update solution? id (some solution)) := by
  have hcases : ∀ {i x}, Function.update solution? id (some solution) i = some x →
      i = id ∧ x = solution ∨ solution? i = some x := by
    intro i x hi
    rw [Function.update_apply] at hi
    split at hi
    next h =>
      cases hi
      exact .inl ⟨h, rfl⟩
    next => exact .inr hi
  refine ⟨fun hi => ?_, fun hi => ?_, acyclic, fun hi => ?_⟩
  · rcases hcases hi with ⟨rfl, rfl⟩ | hi
    · exact hfits
    · exact h.fits hi
  · rcases hcases hi with ⟨rfl, rfl⟩ | hi
    · exact hbound
    · exact h.bounds hi
  · rcases hcases hi with ⟨rfl, rfl⟩ | hi
    · exact hid
    · exact h.exists_cell hi

/-- The solutions before the changes that the entries of a trail record, the newest first. -/
def undo (solution? : MetaId → Option Con) : List (MetaId × Option Con) → MetaId → Option Con
  | [] => solution?
  | (id, old) :: entries => undo (Function.update solution? id old) entries

theorem undo_append (solution? : MetaId → Option Con)
    (entries entries' : List (MetaId × Option Con)) :
    undo solution? (entries ++ entries') = undo (undo solution? entries) entries' := by
  induction entries generalizing solution? with
  | nil => rfl
  | cons entry entries ih => exact ih _

/-- The solutions fit the cells, now and after any number of steps back. -/
structure Steady (store : Store) : Prop where
  past : ∀ n, store.Admits (undo store.solution? (store.trail.take n))
  trail : ∀ entry ∈ store.trail, entry.1 < store.cells.size
  idle : store.snapshots = 0 → store.trail = []

namespace Steady

theorem admits (h : store.Steady) : store.Admits store.solution? := h.past 0

theorem fits (h : store.Steady) {i : MetaId} {solution : Con}
    (hi : store.solution? i = some solution) : solution.Fits store :=
  h.admits.fits hi

theorem bounds (h : store.Steady) {i : MetaId} {solution : Con}
    (hi : store.solution? i = some solution) : solution.bound ≤ (store.cell i).arity :=
  h.admits.bounds hi

theorem acyclic (h : store.Steady) : store.Acyclic := h.admits.acyclic

end Steady

theorem steady_empty : empty.Steady where
  past n := by
    rw [show empty.trail = [] from rfl, List.take_nil]
    exact ⟨nofun, nofun, ⟨fun _ => 0, fun _ _ ⟨_, h, _⟩ => nomatch h⟩, nofun⟩
  trail := by simp [empty]
  idle _ := rfl

/-! ## Evolution -/

/-- Equality of constructors up to the solutions of metavariables and the kinds written on nodes. -/
abbrev Agrees (store : Store) : Con → Con → Prop := Con.Congr store.Unfolds fun _ _ => True

/-- The second constructor is what the solved metavariable at the head of the first one stands
for. -/
inductive Unwraps (store : Store) : Con → Con → Prop where
  | intro {id : MetaId} {spine : List Con} {solution c : Con}
      (hsolution : store.solution? id = some solution)
      (hc : ((solution.instantiate spine).run store.kinds).1 = c) :
      Unwraps store (.mvar id spine) c

/-- Every solved cell has its solution still, or what that stands for. -/
def Retains (store store' : Store) : Prop :=
  ∀ i solution, store.solution? i = some solution →
    ∃ solution', store'.solution? i = some solution' ∧
      (solution' = solution ∨ store.Unwraps solution solution')

/-- What survives everything but a rollback: cells, their arities, and what they stand for. -/
structure Preserves (store store' : Store) : Prop where
  size : store.cells.size ≤ store'.cells.size
  arity : ∀ i < store.cells.size, (store'.cell i).arity = (store.cell i).arity
  retains : Relation.ReflTransGen Retains store store'
  agrees : ∀ {a b}, store.Unfolds a b → store'.Agrees a b

namespace Preserves

theorem trans {store'' : Store} (h : Preserves store store') (h' : Preserves store' store'') :
    Preserves store store'' where
  size := Nat.le_trans h.size h'.size
  arity i hi := (h'.arity i (Nat.lt_of_lt_of_le hi h.size)).trans (h.arity i hi)
  retains := h.retains.trans h'.retains
  agrees hab := .lift h'.agrees id (h.agrees hab)

/-- Every solved cell has the solution that it had. -/
theorem of_solutions (size : store.cells.size ≤ store'.cells.size)
    (arity : ∀ i < store.cells.size, (store'.cell i).arity = (store.cell i).arity)
    (solutions : ∀ i x, store.solution? i = some x → store'.solution? i = some x) :
    Preserves store store' where
  size := size
  arity := arity
  retains := .single fun i x hi => ⟨x, solutions i x hi, .inl rfl⟩
  agrees := by
    rintro _ _ ⟨hsolution, hlength⟩
    refine .step (.intro (solutions _ _ hsolution) ?_)
    rw [arity _ (lt_of_solution hsolution), hlength]

end Preserves

/-- What a computation may do to a store. -/
structure Evolves (store store' : Store) : Prop extends store.Preserves store' where
  snapshots : store'.snapshots = store.snapshots
  logged : store.snapshots ≠ 0 → ∃ entries, store'.trail = entries ++ store.trail ∧
    undo store'.solution? entries = store.solution?

namespace Evolves

theorem refl (store : Store) : Evolves store store :=
  ⟨⟨Nat.le_refl _, fun _ _ => rfl, .refl, .step⟩, rfl, fun _ => ⟨[], rfl, rfl⟩⟩

theorem trans {store'' : Store} (h : Evolves store store') (h' : Evolves store' store'') :
    Evolves store store'' where
  toPreserves := h.toPreserves.trans h'.toPreserves
  snapshots := h'.snapshots.trans h.snapshots
  logged hopen := by
    obtain ⟨entries, htrail, hundo⟩ := h.logged hopen
    obtain ⟨entries', htrail', hundo'⟩ := h'.logged (h.snapshots ▸ hopen)
    refine ⟨entries' ++ entries, by rw [htrail', htrail, List.append_assoc], ?_⟩
    rw [undo_append, hundo', hundo]

end Evolves

end Store

theorem Con.Fits.evolves {store store' : Store} {c : Con} (h : c.Fits store)
    (evolves : store.Evolves store') : c.Fits store' :=
  h.mono evolves.size evolves.arity

namespace Store

variable {store store' : Store}

/-- The discipline of every computation over a store. -/
def evolution : Discipline Store where
  Ok := Steady
  Grows := Evolves
  refl store _ := Evolves.refl store
  trans _ _ _ := Evolves.trans

/-! ## The single changes -/

/-- Stores that differ neither in their cells nor in their trails. -/
structure SameCells (store store' : Store) : Prop where
  cells : store'.cells = store.cells
  trail : store'.trail = store.trail
  snapshots : store'.snapshots = store.snapshots

namespace SameCells

theorem refl (store : Store) : SameCells store store := ⟨rfl, rfl, rfl⟩

theorem cell (h : SameCells store store') : store'.cell = store.cell := by
  funext i
  simp [Store.cell, h.cells]

theorem solution? (h : SameCells store store') : store'.solution? = store.solution? := by
  funext i
  simp [Store.solution?, h.cell]

theorem steady (h : SameCells store store') (ok : store.Steady) : store'.Steady where
  past n := by
    rw [h.solution?, h.trail]
    exact (ok.past n).mono (by rw [h.cells]) fun i _ => by rw [h.cell]
  trail := by
    rw [h.trail, h.cells]
    exact ok.trail
  idle := by
    rw [h.snapshots, h.trail]
    exact ok.idle

theorem evolves (h : SameCells store store') : store.Evolves store' where
  toPreserves := by
    refine .of_solutions (by rw [h.cells]) (fun i _ => by rw [h.cell]) fun i x hi => ?_
    rw [h.solution?, hi]
  snapshots := h.snapshots
  logged _ := ⟨[], h.trail, h.solution?⟩

end SameCells

theorem sameCells_withKinds (store : Store) (kinds : KindStore) :
    SameCells store (store.withKinds kinds) :=
  ⟨rfl, rfl, rfl⟩

/-! ### New cells -/

theorem Steady.extended (ok : store.Steady) (kind : Kind) (arity : Nat) :
    (store.extended kind arity).Steady where
  past n := by
    have hsolution : (store.extended kind arity).solution? = store.solution? :=
      funext (solution?_extended kind arity)
    rw [hsolution]
    exact (ok.past n).mono (grows_extended kind arity).size (grows_extended kind arity).arity
  trail entry hentry :=
    Nat.lt_of_lt_of_le (ok.trail entry hentry) (grows_extended kind arity).size
  idle := ok.idle

theorem evolves_extended (kind : Kind) (arity : Nat) :
    store.Evolves (store.extended kind arity) where
  toPreserves := .of_solutions (grows_extended kind arity).size (grows_extended kind arity).arity
    fun i _ hi => (solution?_extended kind arity i).trans hi
  snapshots := rfl
  logged _ := ⟨[], rfl, funext (solution?_extended kind arity)⟩

/-! ### New solutions -/

theorem solution?_put_eq_update {id : MetaId} (hid : id < store.cells.size) (solution : Con) :
    (store.put id solution).solution? = Function.update store.solution? id (some solution) := by
  funext i
  rw [solution?_put hid, Function.update_apply]

theorem trail_put (id : MetaId) (solution : Con) :
    (store.put id solution).trail = if store.snapshots = 0 then store.trail
      else (id, store.solution? id) :: store.trail :=
  rfl

/-- Undoing the last change. -/
theorem undo_put {id : MetaId} (hid : id < store.cells.size) (solution : Con)
    (entries : List (MetaId × Option Con)) :
    undo (store.put id solution).solution? ((id, store.solution? id) :: entries) =
      undo store.solution? entries := by
  simp only [undo, solution?_put_eq_update hid, Function.update_idem, Function.update_eq_self]

theorem Steady.put (ok : store.Steady) {id : MetaId} (hid : id < store.cells.size) {solution : Con}
    (hadmits : store.Admits (Function.update store.solution? id (some solution))) :
    (store.put id solution).Steady where
  past := by
    have hnow : (store.put id solution).Admits (store.put id solution).solution? := by
      rw [solution?_put_eq_update hid]
      exact hadmits.mono (by simp) fun i _ => arity_put hid solution i
    intro n
    by_cases hopen : store.snapshots = 0
    · simpa [trail_put, hopen, ok.idle hopen, undo] using hnow
    · rw [trail_put, if_neg hopen]
      cases n with
      | zero => exact hnow
      | succ n =>
        rw [List.take_succ_cons, undo_put hid]
        exact (ok.past n).mono (by simp) fun i _ => arity_put hid solution i
  trail entry hentry := by
    rw [trail_put] at hentry
    rw [size_put]
    split at hentry
    · exact ok.trail entry hentry
    · rcases List.mem_cons.mp hentry with rfl | hentry
      · exact hid
      · exact ok.trail entry hentry
  idle hopen := by
    have hopen : store.snapshots = 0 := hopen
    rw [trail_put, if_pos hopen]
    exact ok.idle hopen

theorem Agrees.instantiated (ok : store.Steady) {a b : Con} (h : store.Agrees a b)
    (spine : List Con) : store.Agrees (a.instantiated spine) (b.instantiated spine) := by
  refine Con.Congr.instantiatedAt (fun {a b d} hab => ?_) h Depth.zero
  cases hab with
  | @intro id solution spine' hsolution hlength =>
    rw [Con.instantiatedAt_instantiated (hlength ▸ ok.bounds hsolution)]
    have hmvar : (Con.mvar id spine').instantiatedAt spine d =
        .mvar id (spine'.map (Con.instantiatedAt spine d)) := Con.traverse_mvar id spine'
    rw [hmvar]
    exact .step (.intro hsolution (by simpa using hlength))

/-- A new solution that is justified in a store with the same cells. -/
theorem evolves_put {before : Store} (same : SameCells before store) {id : MetaId}
    (hid : id < store.cells.size) {solution : Con} (ok : (store.put id solution).Steady)
    (hretains : Retains before (store.put id solution))
    (hagrees : ∀ x, store.solution? id = some x → (store.put id solution).Agrees solution x) :
    before.Evolves (store.put id solution) where
  size := by simp [same.cells]
  arity i _ := by rw [arity_put hid, same.cell]
  retains := .single hretains
  agrees := by
    rintro _ _ ⟨hx, hlength⟩
    rename_i i x spine
    rw [← same.solution?] at hx
    rw [← same.cell, ← arity_put hid solution] at hlength
    by_cases h : i = id
    · subst h
      have hnew : (store.put i solution).solution? i = some solution := by
        rw [solution?_put hid, if_pos rfl]
      exact (Con.Congr.step (.intro hnew hlength)).trans ((hagrees x hx).instantiated ok spine)
    · exact .step (.intro (by rw [solution?_put hid, if_neg h, hx]) hlength)
  snapshots := same.snapshots
  logged hopen := by
    refine ⟨[(id, store.solution? id)], ?_, ?_⟩
    · rw [trail_put, if_neg (same.snapshots ▸ hopen), same.trail]
      rfl
    · rw [undo_put hid]
      exact same.solution?

/-- A solution whose metavariables are other unsolved cells makes no cycle. -/
theorem Acyclic.put (acyclic : store.Acyclic) {id : MetaId} {solution : Con}
    (hmentions : ∀ j, solution.Mentions j → j ≠ id ∧ store.isSolved j = false) :
    (store.put id solution).Acyclic := by
  obtain ⟨rank, hrank⟩ := acyclic
  -- unsolved cells at the bottom, then the new solution, then the old ones
  refine ⟨fun i => if i = id then 1 else if store.isSolved i then rank i + 2 else 0, ?_⟩
  rintro i j ⟨x, hx, hj⟩
  by_cases hi : i = id
  · subst hi
    by_cases hlt : i < store.cells.size
    · rw [solution?_put hlt, if_pos rfl] at hx
      cases hx
      obtain ⟨hne, hunsolved⟩ := hmentions j hj
      simp [hne, hunsolved]
    · have := lt_of_solution hx
      rw [size_put] at this
      exact absurd this hlt
  · rw [solution?_put_of_ne hi] at hx
    have hsolved : store.isSolved i = true := by simp [isSolved, hx]
    have := hrank i j ⟨x, hx, hj⟩
    simp only [hi, hsolved, if_true, if_false]
    split_ifs <;> omega

/-- An unsolved cell may be solved by a constructor whose metavariables are other unsolved cells. -/
theorem Steady.solve (ok : store.Steady) {id : MetaId} (hid : id < store.cells.size)
    (hunsolved : store.solution? id = none) {solution : Con} (hfits : solution.Fits store)
    (hbound : solution.bound ≤ (store.cell id).arity)
    (hmentions : ∀ j, solution.Mentions j → j ≠ id ∧ store.isSolved j = false) :
    (store.put id solution).Steady ∧ store.Evolves (store.put id solution) := by
  have acyclic : ∃ rank, Ranks (LeadsBy (store.put id solution).solution?) rank :=
    ok.acyclic.put hmentions
  rw [solution?_put_eq_update hid] at acyclic
  have ok' := ok.put hid (ok.admits.update hid hfits hbound acyclic)
  refine ⟨ok', evolves_put (.refl store) hid ok' (fun i x hi => ⟨x, ?_, .inl rfl⟩) fun x hx => ?_⟩
  · rw [solution?_put hid, if_neg, hi]
    rintro rfl
    rw [hunsolved] at hi
    cases hi
  · rw [hunsolved] at hx
    cases hx

end Store

end RowML
