import RowML.Proofs.Kind.Ends
import RowML.Proofs.Normal.Full

/-!
# Reduction repeats itself

Reading the head of a constructor rewrites solutions on the way, and reduction reads heads all the
time.  Where no solution is a variable, what is read afterwards is what would have been read before:
head normal forms and summaries of rows are the same in every store that a reader leaves.
-/

namespace RowML

/-- A computation that leaves the state alone keeps to every discipline. -/
theorem Ends.of_still {m : Type → Type} {σ α : Type} [Monad m] [Executes m σ] {D : Discipline σ}
    {s : σ} {x : Nat → m α} {Post : α → σ → Prop} (h : Ends (.still σ) s x Post) (ok : D.Ok s) :
    Ends D s x fun a s' => s' = s ∧ Post a s' := by
  obtain ⟨n, a, s', hrun, -, rfl, post⟩ := h
  exact ⟨n, a, _, hrun, ok, D.refl _ ok, rfl, post⟩

namespace Store

variable {store store' : Store} {c r r' : Con}

/-! ## What is read -/

/-- The answer of following the solution at the head of `c`. -/
inductive ReadsTo (store : Store) : Con → Con → Prop
  | itself {c : Con} (unsolved : store.HeadUnsolved c) : ReadsTo store c c
  | solution {i : MetaId} {spine : List Con} {target final : Con}
      (solved : store.solution? i = some target) (next : ReadsTo store target final) :
      ReadsTo store (.mvar i spine) ((final.instantiate spine).run store.kinds).1

namespace ReadsTo

theorem not_headUnsolved {i : MetaId} {spine : List Con} {target : Con}
    (hi : store.solution? i = some target) : ¬ store.HeadUnsolved (.mvar i spine) := by
  intro h
  have := h i spine rfl
  rw [isSolved, hi] at this
  cases this

theorem unique (h : store.ReadsTo c r) (h' : store.ReadsTo c r') : r = r' := by
  induction h generalizing r' with
  | itself unsolved =>
    cases h' with
    | itself => rfl
    | solution solved _ => exact absurd unsolved (not_headUnsolved solved)
  | solution solved _ ih =>
    cases h' with
    | itself unsolved => exact absurd unsolved (not_headUnsolved solved)
    | solution solved' next' =>
      cases solved.symm.trans solved'
      rw [ih next']

/-- Where solutions imitate, a constructor other than a variable is read to the end. -/
theorem ended (h : store.ReadsTo c r) (himitates : store.Imitates) (hc : ∀ v, c ≠ .bvar v) :
    store.HeadUnsolved r ∧ ∀ v, r ≠ .bvar v := by
  induction h with
  | itself unsolved => exact ⟨unsolved, hc⟩
  | @solution i spine target final solved _ ih =>
    obtain ⟨hunsolved, hbvar⟩ := ih (himitates solved)
    have hframe := frame_instantiate hbvar spine store.kinds
    refine ⟨fun j spine' hj => ?_, Con.ne_bvar_of_frame hframe hbvar⟩
    exact hunsolved j _ (Con.eq_mvar_of_frame ((congrArg Con.frame hj).symm.trans hframe))

end ReadsTo

/-! ## Stores that read alike -/

/-- The stores differ only in how their solutions and links are written. -/
structure SameReadings (store store' : Store) : Prop where
  kinds : store.kinds.SameChains store'.kinds
  size : store'.cells.size = store.cells.size
  kind : ∀ i, (store'.cell i).kind = (store.cell i).kind
  arity : ∀ i, (store'.cell i).arity = (store.cell i).arity
  solved : ∀ i, store'.isSolved i = store.isSolved i
  recorded : store'.solved = store.solved
  skolems : store'.skolems = store.skolems
  reads : ∀ c r, store'.ReadsTo c r ↔ store.ReadsTo c r

namespace SameReadings

theorem refl (acyclic : store.kinds.Acyclic) : SameReadings store store :=
  ⟨.refl acyclic, rfl, fun _ => rfl, fun _ => rfl, fun _ => rfl, rfl, rfl, fun _ _ => Iff.rfl⟩

theorem symm (h : SameReadings store store') : SameReadings store' store where
  kinds := h.kinds.symm
  size := h.size.symm
  kind i := (h.kind i).symm
  arity i := (h.arity i).symm
  solved i := (h.solved i).symm
  recorded := h.recorded.symm
  skolems := h.skolems.symm
  reads c r := (h.reads c r).symm

theorem trans {store'' : Store} (h : SameReadings store store')
    (h' : SameReadings store' store'') : SameReadings store store'' where
  kinds := h.kinds.trans h'.kinds
  size := h'.size.trans h.size
  kind i := (h'.kind i).trans (h.kind i)
  arity i := (h'.arity i).trans (h.arity i)
  solved i := (h'.solved i).trans (h.solved i)
  recorded := h'.recorded.trans h.recorded
  skolems := h'.skolems.trans h.skolems
  reads c r := (h'.reads c r).trans (h.reads c r)

theorem headUnsolved_iff (h : SameReadings store store') :
    store'.HeadUnsolved c ↔ store.HeadUnsolved c := by
  simp only [HeadUnsolved, h.solved]

/-- Kinds are read alike, whatever links have been shortened. -/
theorem withKinds {kinds : KindStore} (h : store.kinds.SameChains kinds) :
    SameReadings store (store.withKinds kinds) := by
  have hinstantiate : ∀ (c : Con) (spine : List Con),
      ((c.instantiate spine).run kinds).1 = ((c.instantiate spine).run store.kinds).1 :=
    fun c spine =>
      (KindStore.OnlyFollows.again (fun hr => Con.instantiate_throughout hr c spine) h).1
  refine ⟨h, rfl, fun _ => rfl, fun _ => rfl, fun _ => rfl, rfl, rfl, fun c r => ⟨?_, ?_⟩⟩
  · intro hreads
    induction hreads with
    | itself unsolved => exact .itself unsolved
    | @solution i spine target final solved _ ih =>
      exact hinstantiate final spine ▸ .solution solved ih
  · intro hreads
    induction hreads with
    | itself unsolved => exact .itself unsolved
    | @solution i spine target final solved _ ih =>
      exact hinstantiate final spine ▸ .solution solved ih

/-- A cell is linked to the end of the chain that starts with its solution. -/
theorem put {i : MetaId} {target final : Con} (acyclic : store.kinds.Acyclic)
    (himitates : store.Imitates) (hi : store.solution? i = some target)
    (hreads : store.ReadsTo target final) : SameReadings store (store.put i final) := by
  have hlt := lt_of_solution hi
  have hsolved : ∀ j, (store.put i final).isSolved j = store.isSolved j := by
    intro j
    rw [isSolved, solution?_put hlt, isSolved]
    split
    next h => rw [h, hi, Option.isSome_some, Option.isSome_some]
    next => rfl
  have hended := (hreads.ended himitates (himitates hi)).1
  have hitself : (store.put i final).ReadsTo final final :=
    .itself fun j spine hj => (hsolved j).trans (hended j spine hj)
  refine ⟨.refl acyclic, size_put i final, kind_put hlt final, arity_put hlt final, hsolved, rfl,
    rfl, fun c r => ⟨fun h => ?_, fun h => ?_⟩⟩
  · induction h with
    | itself unsolved => exact .itself fun j spine hj =>
      (hsolved j).symm.trans (unsolved j spine hj)
    | @solution j spine target' final' solved next ih =>
      rw [solution?_put hlt] at solved
      split at solved
      next h =>
        -- the new solution is the end of the old chain
        cases solved
        subst h
        obtain rfl := hitself.unique next
        exact .solution hi hreads
      next => exact .solution solved ih
  · induction h with
    | itself unsolved => exact .itself fun j spine hj => (hsolved j).trans (unsolved j spine hj)
    | @solution j spine target' final' solved next ih =>
      by_cases h : j = i
      · subst h
        cases hi.symm.trans solved
        obtain rfl := hreads.unique next
        exact .solution (by rw [solution?_put hlt, if_pos rfl]) hitself
      · exact .solution (by rw [solution?_put hlt, if_neg h, solved]) ih

/-- The chain that starts with the solution of a cell has the same end. -/
theorem solution {i : MetaId} {target final : Con} (h : SameReadings store store')
    (hi : store.solution? i = some target) (hreads : store.ReadsTo target final) :
    ∃ target', store'.solution? i = some target' ∧ store'.ReadsTo target' final := by
  have hself : ∀ (c : Con) (kinds : KindStore), ((c.instantiate []).run kinds).1 = c :=
    fun c kinds => by rw [Con.instantiate, if_pos (.inl rfl)]; rfl
  have hread : store'.ReadsTo (.mvar i []) final :=
    (h.reads _ _).mpr (hself final store.kinds ▸ .solution hi hreads)
  have hsolved : store'.isSolved i = true := by rw [h.solved, isSolved, hi, Option.isSome_some]
  cases hread with
  | itself unsolved => simp [unsolved i [] rfl] at hsolved
  | @solution _ _ target' final' solved next =>
    exact ⟨target', solved, (hself final' store'.kinds).symm ▸ next⟩

end SameReadings

/-! ## Readers -/

/-- The stores read alike, and reading comes to an end in both. -/
structure ReadAlike (store store' : Store) : Prop extends SameReadings store store' where
  ok : condensation.Ok store ∧ condensation.Ok store'

instance : Std.Symm ReadAlike := ⟨fun _ _ h => ⟨h.toSameReadings.symm, h.ok.symm⟩⟩

instance : IsTrans Store ReadAlike :=
  ⟨fun _ _ _ h h' => ⟨h.toSameReadings.trans h'.toSameReadings, h.ok.1, h'.ok.2⟩⟩

theorem ReadAlike.refl (ok : condensation.Ok store) : ReadAlike store store :=
  ⟨.refl ok.2, ok, ok⟩

private theorem resolveWithin_reads (ok : condensation.Ok store) {rank : MetaId → Nat}
    (hrank : Ranks store.Leads rank) (hpositive : ∀ i, store.isSolved i = true → 0 < rank i)
    (n : Nat) (hn : ∀ i spine, c = .mvar i spine → rank i ≤ n) :
    store.ReadsTo c ((resolveWithin n c).run store).1 ∧
      SameReadings store ((resolveWithin n c).run store).2 := by
  induction n generalizing c with
  | zero =>
    have hunsolved : store.HeadUnsolved c := by
      intro i spine hi
      by_contra hsolved
      have := hpositive i (by simpa using hsolved)
      have := hn i spine hi
      omega
    rw [resolveWithin_unsolved hunsolved]
    exact ⟨.itself hunsolved, .refl ok.2⟩
  | succ n ih =>
    by_cases hunsolved : store.HeadUnsolved c
    · rw [resolveWithin_unsolved hunsolved]
      exact ⟨.itself hunsolved, .refl ok.2⟩
    simp only [HeadUnsolved] at hunsolved
    push Not at hunsolved
    obtain ⟨i, spine, rfl, hsolved⟩ := hunsolved
    have hsolved : store.isSolved i = true := by simpa using hsolved
    obtain ⟨target, hi⟩ := Option.isSome_iff_exists.mp hsolved
    obtain ⟨hreads, hsame⟩ := @ih target fun w spine' hw => by
      have := hrank i w ⟨target, hi, hw ▸ .here spine'⟩
      have := hn i spine rfl
      omega
    have himitates : ((resolveWithin n target).run store).2.Imitates :=
      (resolveWithin_imitates n ok.1.2 (ok.1.2 hi)).1
    rw [resolveWithin_solved n spine hi]
    generalize (resolveWithin n target).run store = next at hreads hsame himitates ⊢
    obtain ⟨final, next⟩ := next
    obtain ⟨target', hi', hreads'⟩ := hsame.solution hi hreads
    have hrelinked : SameReadings store (if final ≠ target then next.put i final else next) := by
      split
      · exact hsame.trans (.put hsame.kinds.acyclic.2 himitates hi' hreads')
      · exact hsame
    have hfollows : KindStore.OnlyFollows (final.instantiate spine) :=
      fun hr => Con.instantiate_throughout hr final spine
    obtain ⟨hanswer, -⟩ := hfollows.again hrelinked.kinds
    obtain ⟨-, hshort⟩ := hfollows.again (.refl hrelinked.kinds.acyclic.2)
    exact ⟨hanswer ▸ .solution hi hreads, hrelinked.trans (.withKinds hshort)⟩

/-- Following a chain keeps the store in order, whatever the spine at its start. -/
private theorem resolveWithin_steady (ok : store.Steady) (n : Nat) (c : Con) :
    ((resolveWithin n c).run store).2.Steady := by
  by_cases hunsolved : store.HeadUnsolved c
  · rwa [resolveWithin_unsolved hunsolved]
  simp only [HeadUnsolved] at hunsolved
  push Not at hunsolved
  obtain ⟨i, spine, rfl, hsolved⟩ := hunsolved
  obtain ⟨target, hi⟩ :=
    Option.isSome_iff_exists.mp (show store.isSolved i = true by simpa using hsolved)
  cases n with
  | zero => exact ok
  | succ n =>
    have hfits : (Con.mvar i (List.replicate (store.cell i).arity .unit)).Fits store := by
      refine .intro ?_ ?_
      · rintro _ _ ⟨⟩
        exact ⟨lt_of_solution hi, List.length_replicate⟩
      · intro p hp
        obtain ⟨-, rfl⟩ := List.mem_replicate.mp hp
        exact Con.Fits.leaf (by simp) rfl
    have hsteady := (chased_resolveWithin (n + 1) ok hfits).ok
    rw [resolveWithin_solved n _ hi] at hsteady ⊢
    refine SameCells.steady ?_ hsteady
    exact ⟨rfl, rfl, rfl⟩

theorem resolve_reads (ok : condensation.Ok store) (c : Con) :
    store.ReadsTo c ((resolve c).run store).1 ∧ ReadAlike store ((resolve c).run store).2 := by
  obtain ⟨rank, hrank, hpositive, hle⟩ := ok.1.1.acyclic.exists_bounded_rank
  obtain ⟨hreads, hsame⟩ := resolveWithin_reads (c := c) ok hrank hpositive store.cells.size
    fun i _ _ => hle i
  have himitates : ((resolve c).run store).2.Imitates := by
    by_cases hbvar : ∃ v, c = .bvar v
    · obtain ⟨v, rfl⟩ := hbvar
      have hrun : (resolve (.bvar v)).run store = (.bvar v, store) :=
        resolveWithin_unsolved (by simp) store.cells.size
      rw [hrun]
      exact ok.1.2
    · exact (resolveWithin_imitates _ ok.1.2 fun v hv => hbvar ⟨v, hv⟩).1
  exact ⟨hreads, hsame, ok, ⟨resolveWithin_steady ok.1.1 _ c, himitates⟩, hsame.kinds.acyclic.2⟩

theorem onKinds_readAlike {α : Type} {x : KindM α} (hx : KindStore.OnlyFollows x)
    (ok : condensation.Ok store) : ReadAlike store ((onKinds x).run store).2 := by
  have hkinds := (hx.again (.refl ok.2)).2
  have same : SameCells store (store.withKinds (x.run store.kinds).2) := sameCells_withKinds _ _
  exact ⟨.withKinds hkinds, ok, ⟨same.steady ok.1.1, Imitates.sameCells ok.1.2 same⟩,
    hkinds.acyclic.2⟩

/-- What only follows solutions and links does the same in all stores that read alike. -/
instance : Following (Repeatable ReadAlike) where
  outOfFuel {α} s t h a s' hrun := by cases hrun
  resolve c s t h a s' hrun := by
    obtain ⟨rfl, rfl⟩ := Prod.mk.inj (Option.some.inj hrun)
    obtain ⟨hreads, hs⟩ := resolve_reads h.ok.1 c
    obtain ⟨hreads', -⟩ := resolve_reads h.ok.2 c
    refine ⟨hs, ((resolve c).run t).2, congrArg some (Prod.ext ?_ rfl)⟩
    exact hreads'.unique ((h.reads _ _).mpr hreads)
  kinds {α x} hx s t h a s' hrun := by
    cases hrun
    refine ⟨onKinds_readAlike hx h.ok.1, ((onKinds x).run t).2, congrArg some (Prod.ext ?_ rfl)⟩
    exact (hx.again h.kinds).1

/-! ### Reading again -/

/-- The discipline of readers. -/
def rereading : Discipline Store where
  Ok := condensation.Ok
  Grows := SameReadings
  refl _ ok := .refl ok.2
  trans _ _ _ := .trans

/-- An answer that a reader has given is the one that it gives in every store that reads alike. -/
theorem ends_again {α : Type} {x : Nat → FuelM α}
    (hx : ∀ n, Throughout (Repeatable ReadAlike) (x n))
    (hmore : ∀ {m n}, m ≤ n → Outlasts (x m) (x n)) {t : Store} (h : ReadAlike store t) {n : Nat}
    {a : α} (hrun : x n store = some (a, store')) : Ends rereading t x fun r _ => r = a := by
  have hx : Repeatable ReadAlike α (x n) := hx n
  obtain ⟨t', hrun', -⟩ := hx.again h hrun
  obtain ⟨hsame, ok⟩ := (hx (.refl h.ok.2) hrun').1
  exact ⟨n, a, t', fun fuel hfuel => hmore hfuel _ _ (exec_of_run hrun'), ok.2, hsame, rfl⟩

theorem yields_again {α : Type} {x : FuelM α} (hx : Throughout (Repeatable ReadAlike) x)
    (ok : rereading.Ok store) : Yields rereading store x fun _ _ => True := by
  have hx : Repeatable ReadAlike α x := hx
  intro r s' hexec
  obtain ⟨⟨a, s''⟩, hrun, heq⟩ := Option.map_eq_some_iff.mp hexec
  cases heq
  obtain ⟨hsame, hok⟩ := (hx (ReadAlike.refl ok) hrun).1
  exact ⟨hok.2, hsame, fun _ _ => trivial⟩

end Store

end RowML
