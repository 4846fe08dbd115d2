import RowML.Proofs.Module.Contents
import RowML.Proofs.Store.Following
import RowML.Proofs.Unify.Rows
import RowML.Unify.Engine

/-!
# Unification keeps a store in order

Normalisation solves nothing, and unification solves a cell only with a constructor that fits it.
Both build constructors that fit the store from such constructors, whether the operands have kinds
or not, and whether unification succeeds, fails or postpones.
-/

namespace RowML

/-- Every constructor of the table fits the store. -/
def Globals.Fits (store : Store) (globals : Globals) : Prop := ∀ c ∈ globals.cons, c.Fits store

theorem Globals.Fits.evolves {store store' : Store} {globals : Globals} (h : globals.Fits store)
    (evolves : store.Evolves store') : globals.Fits store' :=
  fun c hc => (h c hc).evolves evolves

/-- The body of an item that is found through a module. -/
theorem Globals.Fits.item {store : Store} {globals : Globals} (h : globals.Fits store)
    {ref : ModuleRef} {name : String} {kind : Kind} {body : Con}
    (hitem : globals.moduleItem? ref name .con = some (.con kind (some body)) ∨
      globals.moduleItem? ref name .con = some (.class kind (some body))) : body.Fits store :=
  moduleItem_holds (fun _ first refs hc => hc.substModules first refs) .error h hitem

/-! ## Head normal forms -/

namespace Con

variable {store : Store}

theorem concatHeads_fits {l r : Con} (hl : l.Fits store) (hr : r.Fits store) :
    (concatHeads l r).Fits store := by
  unfold concatHeads
  split
  · exact .error
  · exact .error
  · exact hr
  · exact hl
  · refine .row fun field hfield => ?_
    rcases List.mem_append.mp hfield with h | h
    · exact hl.field h
    · exact hr.field h
  · exact .concat hl hr

theorem lift_fits {c : Con} (hc : c.Fits store) (amount : Nat) : (c.lift amount).Fits store := by
  rw [lift_eq_traverse]
  exact hc.traverse (fun _ _ => .bvar _) _

theorem compose_fits {d : Kind} {f g : Con} (hf : f.Fits store) (hg : g.Fits store) :
    (compose d f g).Fits store := by
  have hbody := Fits.app (lift_fits hf 1) (.app (lift_fits hg 1) (.bvar 0))
  exact .node (by simp [compose]) (List.forall_mem_singleton.mpr hbody)

theorem mapRow_fits {d c : Kind} {f row : Con} (hf : f.Fits store) (hrow : row.Fits store) :
    (mapRow d c f row).Fits store := by
  induction row using inductionOnParts with
  | step row ih =>
    cases row with
    | error => exact .error
    | row k fields =>
      refine .row fun field hfield => ?_
      obtain ⟨⟨name, value⟩, hmem, rfl⟩ := List.mem_map.mp hfield
      exact ⟨(hrow.field hmem).1, .app hf (hrow.field hmem).2⟩
    | concat l r =>
      exact concatHeads_fits (ih l (by simp [parts]) (hrow.part (by simp [parts])))
        (ih r (by simp [parts]) (hrow.part (by simp [parts])))
    | map d' c' g base =>
      exact .map (compose_fits hf (hrow.part (by simp [parts]))) (hrow.part (by simp [parts]))
    | _ => exact .map hf hrow

theorem mapHead_fits {d c : Kind} {f row : Con} (hf : f.Fits store) (hrow : row.Fits store) :
    (mapHead d c f row).Fits store := by
  unfold mapHead
  split
  · exact .error
  · split
    · exact hrow
    · exact mapRow_fits hf hrow

end Con

section Reduction

variable {globals : Globals} {store : Store}

/-- A reduction that solves nothing and answers with constructors that fit. -/
def Reducing (globals : Globals) (reduce : Con → FuelM Con) : Prop :=
  ∀ {store c}, Store.Steady store → globals.Fits store → c.Fits store →
    Yields Store.compression store (reduce c) fun r store' => r.Fits store'

theorem findField_keeps {reduce : Con → FuelM Con} (H : Reducing globals reduce) (field : Con)
    (fuel : Nat) {row : Con} (ok : store.Steady) (hg : globals.Fits store)
    (hrow : row.Fits store) :
    Yields Store.compression store (Con.findField reduce field fuel row) fun found store' =>
      ∀ value, found = some value → value.Fits store' := by
  induction fuel generalizing row store with
  | zero => exact Yields.of_none rfl
  | succ fuel ih =>
    cases row with
    | row k fields =>
      refine Yields.pure ok fun value hvalue => ?_
      obtain ⟨entry, hentry, rfl⟩ := Option.map_eq_some_iff.mp hvalue
      exact (hrow.field (List.mem_of_find?_eq_some hentry)).2
    | concat l r =>
      refine Yields.bind ok (H ok hg (hrow.part (by simp [Con.parts]))) ?_
      intro l' store₁ ok₁ compresses₁ hl'
      have hg₁ := hg.evolves compresses₁.toEvolves
      refine Yields.bind ok₁ (ih ok₁ hg₁ hl') fun found store₂ ok₂ compresses₂ hfound => ?_
      cases found with
      | some value => exact Yields.pure ok₂ hfound
      | none =>
        have hr : r.Fits store₂ :=
          (hrow.part (by simp [Con.parts])).evolves (compresses₁.trans compresses₂).toEvolves
        have hg₂ := hg₁.evolves compresses₂.toEvolves
        refine Yields.bind ok₂ (H ok₂ hg₂ hr) fun r' store₃ ok₃ compresses₃ hr' => ?_
        exact ih ok₃ (hg₂.evolves compresses₃.toEvolves) hr'
    | _ => exact Yields.pure ok (by simp)

theorem onKinds_fits {x : KindM Con} {c : Con} (hc : c.Fits store)
    (hx : ∀ ks, Con.Resembles c (x.run ks).1) (ok : store.Steady) :
    Yields Store.compression store (onKinds x) fun r store' => r.Fits store' := by
  refine (Store.onKinds_keeps x ok).mono ?_
  rintro r store' - - ⟨same, rfl⟩
  exact (hc.of_alike (hx _)).evolves same.evolves

theorem headNormal_keeps (fuel : Nat) : Reducing globals (headNormal globals fuel) := by
  induction fuel with
  | zero => exact fun _ _ _ => Yields.of_none rfl
  | succ fuel ih =>
    intro store c ok hg hc
    unfold headNormal
    refine Yields.bind ok (.of_exec_eq rfl (Store.resolve_keeps ok hc)) ?_
    intro r store₁ ok₁ compresses₁ headed
    have hg₁ := hg.evolves compresses₁.toEvolves
    have hr := headed.fits
    split
    next id =>
      split
      next kind body hbody => exact ih ok₁ hg₁ (Globals.definition_holds hg₁ (.inl hbody))
      next kind body hbody => exact ih ok₁ hg₁ (Globals.definition_holds hg₁ (.inr hbody))
      next => exact Yields.pure ok₁ hr
    next module path item =>
      simp only
      split
      next kind body hbody => exact ih ok₁ hg₁ (hg₁.item (.inl hbody))
      next kind body hbody => exact ih ok₁ hg₁ (hg₁.item (.inr hbody))
      next => exact Yields.pure ok₁ (.leaf (by simp) rfl)
    next f argument =>
      have hargument : argument.Fits store₁ := hr.part (by simp [Con.parts])
      refine Yields.bind ok₁ (ih ok₁ hg₁ (hr.part (by simp [Con.parts]))) ?_
      intro f' store₂ ok₂ compresses₂ hf'
      have hg₂ := hg₁.evolves compresses₂.toEvolves
      have hargument := hargument.evolves compresses₂.toEvolves
      split
      next x k body =>
        have hbody : (body.instantiated [argument]).Fits store₂ :=
          (hf'.part (by simp [Con.parts])).instantiated (by simpa using hargument)
        refine Yields.bind ok₂ (.of_exec_eq rfl
          (onKinds_fits hbody (Con.subst_resembles body argument) ok₂)) ?_
        exact fun reduced store₃ ok₃ compresses₃ hreduced =>
          ih ok₃ (hg₂.evolves compresses₃.toEvolves) hreduced
      next => exact Yields.pure ok₂ .error
      next => exact Yields.pure ok₂ (.app hf' hargument)
    next f argument =>
      refine Yields.bind ok₁ (ih ok₁ hg₁ (hr.part (by simp [Con.parts]))) ?_
      intro f' store₂ ok₂ compresses₂ hf'
      have hg₂ := hg₁.evolves compresses₂.toEvolves
      split
      next x body =>
        refine Yields.bind ok₂ (.of_exec_eq rfl (onKinds_fits (hf'.part (by simp [Con.parts]))
          (Con.substKind_resembles body argument) ok₂)) ?_
        exact fun reduced store₃ ok₃ compresses₃ hreduced =>
          ih ok₃ (hg₂.evolves compresses₃.toEvolves) hreduced
      next => exact Yields.pure ok₂ .error
      next => exact Yields.pure ok₂ (.node (by simp) (List.forall_mem_singleton.mpr hf'))
    next l r =>
      refine Yields.bind ok₁ (ih ok₁ hg₁ (hr.part (by simp [Con.parts]))) ?_
      intro l' store₂ ok₂ compresses₂ hl'
      refine Yields.bind ok₂ (ih ok₂ (hg₁.evolves compresses₂.toEvolves)
        ((hr.part (by simp [Con.parts])).evolves compresses₂.toEvolves)) ?_
      intro r' store₃ ok₃ compresses₃ hr'
      exact Yields.pure ok₃ (Con.concatHeads_fits (hl'.evolves compresses₃.toEvolves) hr')
    next d c f row =>
      refine Yields.bind ok₁ (ih ok₁ hg₁ (hr.part (by simp [Con.parts]))) ?_
      intro f' store₂ ok₂ compresses₂ hf'
      refine Yields.bind ok₂ (ih ok₂ (hg₁.evolves compresses₂.toEvolves)
        ((hr.part (by simp [Con.parts])).evolves compresses₂.toEvolves)) ?_
      intro row' store₃ ok₃ compresses₃ hrow'
      exact Yields.pure ok₃ (Con.mapHead_fits (hf'.evolves compresses₃.toEvolves) hrow')
    next row field =>
      refine Yields.bind ok₁ (ih ok₁ hg₁ (hr.part (by simp [Con.parts]))) ?_
      intro row' store₂ ok₂ compresses₂ hrow'
      have hg₂ := hg₁.evolves compresses₂.toEvolves
      refine Yields.bind ok₂ (ih ok₂ hg₂
        ((hr.part (by simp [Con.parts])).evolves compresses₂.toEvolves)) ?_
      intro field' store₃ ok₃ compresses₃ hfield'
      have hg₃ := hg₂.evolves compresses₃.toEvolves
      have hrow' := hrow'.evolves compresses₃.toEvolves
      split
      next => exact Yields.pure ok₃ .error
      next =>
      refine Yields.bind ok₃ (findField_keeps ih field' fuel ok₃ hg₃ hrow') ?_
      intro found store₄ ok₄ compresses₄ hfound
      have hg₄ := hg₃.evolves compresses₄.toEvolves
      have hrow₄ := hrow'.evolves compresses₄.toEvolves
      have hfield₄ := hfield'.evolves compresses₄.toEvolves
      split
      next value => exact ih ok₄ hg₄ (hfound value rfl)
      next =>
        split
        next function base _ _ =>
          have hbase : base.Fits store₄ := hrow₄.part (by simp [Con.parts])
          have hproj : (Con.proj base field').Fits store₄ :=
            .node (by simp) (by simp [Con.parts, hbase, hfield₄])
          exact ih ok₄ hg₄ (.app (hrow₄.part (by simp [Con.parts])) hproj)
        next => exact Yields.pure ok₄ (.node (by simp) (by simp [Con.parts, hrow₄, hfield₄]))
    next tuple index =>
      refine Yields.bind ok₁ (ih ok₁ hg₁ (hr.part (by simp [Con.parts]))) ?_
      intro tuple' store₂ ok₂ compresses₂ htuple'
      have hg₂ := hg₁.evolves compresses₂.toEvolves
      split
      next components =>
        split
        next c hcomponent => exact ih ok₂ hg₂ (htuple'.part (List.mem_of_getElem? hcomponent))
        next => exact Yields.pure ok₂ .error
      next => exact Yields.pure ok₂ .error
      next => exact Yields.pure ok₂ (.node (by simp) (List.forall_mem_singleton.mpr htuple'))
    next => exact Yields.pure ok₁ hr

/-! ## Row summaries -/

/-- The constructors in a piece fit. -/
def Piece.Fits (store : Store) : Piece → Prop
  | .field name value => name.Fits store ∧ value.Fits store
  | .atom c => c.Fits store
  | .flex c _ => c.Fits store
  | .error => True

theorem Piece.Fits.evolves {store store' : Store} {piece : Piece} (h : piece.Fits store)
    (evolves : store.Evolves store') : piece.Fits store' := by
  cases piece with
  | field name value => exact ⟨h.1.evolves evolves, h.2.evolves evolves⟩
  | atom c => exact Con.Fits.evolves h evolves
  | flex c v => exact Con.Fits.evolves h evolves
  | error => trivial

namespace Row

/-- Every piece of a row fits. -/
def Fits (store : Store) (pieces : List Piece) : Prop := ∀ piece ∈ pieces, piece.Fits store

theorem Fits.evolves {store store' : Store} {pieces : List Piece} (h : Fits store pieces)
    (evolves : store.Evolves store') : Fits store' pieces :=
  fun piece hpiece => (h piece hpiece).evolves evolves

theorem remainder_fits {c : Con} (hc : c.Fits store) : (remainder c).Fits store := by
  unfold remainder
  split <;> exact hc

theorem summarize_keeps (fuel : Nat) {row : Con} (ok : store.Steady) (hg : globals.Fits store)
    (hrow : row.Fits store) :
    Yields Store.compression store (summarize globals fuel row) fun pieces store' =>
      Fits store' pieces := by
  induction fuel generalizing row store with
  | zero => exact Yields.of_none rfl
  | succ fuel ih =>
    unfold summarize
    refine Yields.bind ok (headNormal_keeps fuel ok hg hrow) fun r store₁ ok₁ compresses₁ hr => ?_
    have hg₁ := hg.evolves compresses₁.toEvolves
    split
    next k fields =>
      have hrun : Yields Store.compression store₁ (fields.mapM fun field =>
          return .field (← headNormal globals fuel field.1) field.2 : FuelM (List Piece))
          fun pieces store' => List.Forall₂ (fun _ piece => piece.Fits store') fields pieces := by
        refine Yields.mapM ok₁ (fun _ compresses h => h.evolves compresses.toEvolves) ?_
        intro field hfield store₂ ok₂ compresses₂
        obtain ⟨hname, hvalue⟩ := hr.field hfield
        refine Yields.bind ok₂ (headNormal_keeps fuel ok₂ (hg₁.evolves compresses₂.toEvolves)
          (hname.evolves compresses₂.toEvolves)) fun name store₃ ok₃ compresses₃ hname' => ?_
        exact Yields.pure ok₃ ⟨hname', hvalue.evolves (compresses₂.trans compresses₃).toEvolves⟩
      refine hrun.mono fun pieces store₂ _ _ h => ?_
      exact Con.forall_mem_of_forall₂ h fun _ _ _ hpiece => hpiece
    next l r' =>
      refine Yields.bind ok₁ (ih ok₁ hg₁ (hr.part (by simp [Con.parts]))) ?_
      intro lefts store₂ ok₂ compresses₂ hlefts
      refine Yields.bind ok₂ (ih ok₂ (hg₁.evolves compresses₂.toEvolves)
        ((hr.part (by simp [Con.parts])).evolves compresses₂.toEvolves)) ?_
      intro rights store₃ ok₃ compresses₃ hrights
      refine Yields.pure ok₃ fun piece hpiece => ?_
      rcases List.mem_append.mp hpiece with h | h
      · exact hlefts.evolves compresses₃.toEvolves piece h
      · exact hrights piece h
    next => exact Yields.pure ok₁ (List.forall_mem_singleton.mpr trivial)
    next => exact Yields.pure ok₁ (List.forall_mem_singleton.mpr (remainder_fits hr))

theorem rebuild_fits {k : Kind} {pieces : List Piece} (h : Fits store pieces) :
    (rebuild k pieces).Fits store := by
  have hfold : ∀ (rows : List Con) {r : Con}, r.Fits store → (∀ c ∈ rows, c.Fits store) →
      (rows.foldl .concat r).Fits store := by
    intro rows
    induction rows with
    | nil => exact fun hr _ => hr
    | cons c rows ih =>
      intro r hr hrows
      obtain ⟨hc, hrows⟩ := List.forall_mem_cons.mp hrows
      exact ih (.concat hr hc) hrows
  have hfields : (Con.row k (fields pieces)).Fits store := by
    refine .row fun field hfield => ?_
    obtain ⟨piece, hpiece, hfield⟩ := List.mem_filterMap.mp hfield
    cases piece with
    | field name value =>
      cases hfield
      exact h _ hpiece
    | atom | flex | error => cases hfield
  unfold rebuild
  extract_lets rests
  have hrests : ∀ c ∈ rests, c.Fits store := by
    intro c hc
    obtain ⟨piece, hpiece, hc⟩ := List.mem_filterMap.mp hc
    have hfits := h piece hpiece
    cases piece with
    | field => cases hc
    | error =>
      cases hc
      exact .error
    | atom | flex =>
      cases hc
      exact hfits
  split
  next => exact .row (by simp)
  next first others hnone hcons =>
    have hrests : ∀ c ∈ first :: others, c.Fits store := hcons ▸ hrests
    obtain ⟨hfirst, hothers⟩ := List.forall_mem_cons.mp hrests
    exact hfold others hfirst hothers
  next => exact hfold _ hfields hrests

end Row

end Reduction

namespace Unify

variable {globals : Globals} {state state' : List Postponed × Store}

/-! ## The state of unification -/

/-- The store, the table and the postponed equations are in order. -/
structure Kept (globals : Globals) (state : List Postponed × Store) : Prop where
  store : state.2.Steady
  globals : globals.Fits state.2
  postponed : ∀ equation ∈ state.1,
    equation.expected.Fits state.2 ∧ equation.found.Fits state.2

/-- The discipline of unification as far as the integrity of the store goes. -/
def keeping (globals : Globals) : Discipline (List Postponed × Store) where
  Ok := Kept globals
  Grows state state' := state.2.Evolves state'.2
  refl state _ := .refl state.2
  trans _ _ _ := .trans

/-- A computation over the store alone. -/
theorem keeps_of_store {m : Type → Type} [Monad m] [Executes m Store] {α : Type} {x : UnifyM α}
    {y : m α} {Post : α → Store → Prop} (ok : Kept globals state)
    (h : exec x state = (exec y state.2).map fun r => (r.1, state.1, r.2))
    (hy : Yields Store.evolution state.2 y Post) :
    Yields (keeping globals) state x fun a state' => Post a state'.2 := by
  intro r state' hexec
  rw [h, Option.map_eq_some_iff] at hexec
  obtain ⟨⟨r, store'⟩, hrun, hstate⟩ := hexec
  cases hstate
  obtain ⟨ok', evolves, post⟩ := hy r store' hrun
  refine ⟨⟨ok', ok.globals.evolves evolves, fun equation hequation => ?_⟩, evolves, post⟩
  obtain ⟨hexpected, hfound⟩ := ok.postponed equation hequation
  exact ⟨hexpected.evolves evolves, hfound.evolves evolves⟩

/-- A computation over the store that solves nothing. -/
theorem keeps_of_compression {m : Type → Type} [Monad m] [Executes m Store] {α : Type}
    {x : UnifyM α} {y : m α} {Post : α → Store → Prop} (ok : Kept globals state)
    (h : exec x state = (exec y state.2).map fun r => (r.1, state.1, r.2))
    (hy : Yields Store.compression state.2 y Post) :
    Yields (keeping globals) state x fun a state' =>
      state.2.Compresses state'.2 ∧ Post a state'.2 :=
  keeps_of_store ok h hy.of_compression

theorem postpone_keeps (ok : Kept globals state) {depth : Nat} {a b : Con}
    {blockers : List MetaId} (ha : a.Fits state.2) (hb : b.Fits state.2) :
    Yields (keeping globals) state (postpone depth a b blockers) fun _ _ => True := by
  have hrun : exec (postpone depth a b blockers) state =
      some (some (), state.1 ++ [⟨a, b, depth, blockers⟩], state.2) := rfl
  refine Yields.of_exec hrun ⟨ok.store, ok.globals, fun equation hequation => ?_⟩ (.refl _) trivial
  rcases List.mem_append.mp hequation with h | h
  · exact ok.postponed equation h
  · cases List.mem_singleton.mp h
    exact ⟨ha, hb⟩

theorem mismatch_keeps {α : Type} {Post : α → List Postponed × Store → Prop}
    (ok : Kept globals state) {a b : Con} {reason : MismatchReason} :
    Yields (keeping globals) state (mismatch a b reason : UnifyM α) Post :=
  Yields.of_failure ok rfl

theorem unifyKinds_keeps (fuel : Nat) {k k' : Kind} (ok : Kept globals state) :
    Yields (keeping globals) state (unifyKinds fuel k k') fun _ state' =>
      Store.SameCells state.2 state'.2 := by
  intro r state' hexec
  rw [exec_unifyKinds, Option.map_eq_some_iff] at hexec
  obtain ⟨⟨r, kinds⟩, -, hstate⟩ := hexec
  cases hstate
  have same := Store.sameCells_withKinds state.2 kinds
  refine ⟨⟨same.steady ok.store, ok.globals.evolves same.evolves, fun equation hequation => ?_⟩,
    same.evolves, fun _ _ => same⟩
  obtain ⟨hexpected, hfound⟩ := ok.postponed equation hequation
  exact ⟨hexpected.evolves same.evolves, hfound.evolves same.evolves⟩

/-! ## Solving a metavariable -/

theorem patternVars_keeps {store : Store} (ok : store.Steady) {spine : List Con}
    (hspine : ∀ c ∈ spine, c.Fits store) :
    Yields Store.compression store (patternVars spine) fun found _ =>
      ∀ vars, found = some vars → vars.length = spine.length := by
  have hgo : ∀ (rest : List Con) (seen : List Nat) {store : Store}, store.Steady →
      (∀ c ∈ rest, c.Fits store) →
      Yields Store.compression store (patternVars.go seen rest) fun found _ =>
        ∀ vars, found = some vars → vars.length = seen.length + rest.length := by
    intro rest
    induction rest with
    | nil =>
      intro seen store ok _
      refine Yields.pure ok ?_
      rintro _ ⟨⟩
      simp
    | cons c rest ih =>
      intro seen store ok hrest
      refine Yields.bind ok (Store.resolve_keeps ok (hrest c (by simp))) ?_
      rintro r store₁ ok₁ compresses₁ -
      split
      next i =>
        split
        · exact Yields.pure ok₁ (by simp)
        · have hrest₁ : ∀ c ∈ rest, c.Fits store₁ := fun c hc =>
            (hrest c (List.mem_cons_of_mem _ hc)).evolves compresses₁.toEvolves
          refine (ih (i :: seen) ok₁ hrest₁).mono fun found store₂ _ _ h vars hvars => ?_
          rw [h vars hvars, List.length_cons, List.length_cons]
          omega
      · exact Yields.pure ok₁ (by simp)
  refine (hgo spine [] ok hspine).mono fun found _ _ _ h vars hvars => ?_
  simpa using h vars hvars

theorem unsolvedHeads_keeps {store : Store} (ok : store.Steady) {spine : List Con}
    (hspine : ∀ c ∈ spine, c.Fits store) :
    Yields Store.compression store (unsolvedHeads spine) fun _ _ => True := by
  have hheads : Yields Store.compression store (spine.mapM Store.unsolvedHead)
      fun heads _ => List.Forall₂ (fun _ _ => True) spine heads := by
    refine Yields.mapM ok (fun _ _ h => h) fun c hc store' ok' compresses => ?_
    refine Yields.bind ok' (Store.resolve_keeps ok' ((hspine c hc).evolves
      compresses.toEvolves)) ?_
    intro r store'' ok'' _ _
    split <;> exact Yields.pure ok'' trivial
  exact Yields.bind ok hheads fun _ _ ok' _ _ => Yields.pure ok' trivial

/-- A renamed solution fits the cell that it is for. -/
theorem assign_keeps {id : MetaId} {spine : List Con} {vars : List Nat}
    {other zonked solution : Con} (ok : Kept globals state)
    (hmvar : (Con.mvar id spine).Fits state.2) (hvars : vars.length = spine.length)
    (hzonked : Store.Expanded state.2 zonked)
    (hrenamed : Con.Renamed id vars Depth.zero zonked solution) :
    Yields (keeping globals) state (do
      match ← (Store.assign id solution).run with
      | .ok () => pure ()
      | .error _ => mismatch (.mvar id spine) other .structural : UnifyM Unit) fun _ _ => True := by
  obtain ⟨hid, hlength⟩ := hmvar.top id spine rfl
  have hassign : exec (liftM (Store.assign id solution).run : UnifyM _) state =
      some (some ((Store.assign id solution).run.run state.2).1, state.1,
        ((Store.assign id solution).run.run state.2).2) := rfl
  rw [Store.assign_run] at hassign
  rcases hid' : state.2.solution? id with _ | existing
  · have hrun : exec (liftM (Store.assign id solution).run : UnifyM _) state =
        some (some (.ok ()), state.1, state.2.assigned id solution) := by
      rw [hassign, hid']
    have hfits : solution.Fits state.2 :=
      .of_instantiatedAt (hrenamed.instantiates ▸ hzonked.fits)
    have hbound : solution.bound ≤ (state.2.cell id).arity := by
      rw [← hlength, ← hvars]
      exact hrenamed.bound
    have hmentions : ∀ j, solution.Mentions j → j ≠ id ∧ state.2.isSolved j = false := by
      intro j hj
      refine ⟨fun h => hrenamed.avoids (h ▸ hj), hzonked.unsolved ?_⟩
      rw [← hrenamed.instantiates]
      exact hj.traverse _
    obtain ⟨ok', evolves⟩ := ok.store.solve hid hid' hfits hbound hmentions
    have same : Store.SameCells (state.2.put id solution) (state.2.assigned id solution) :=
      ⟨rfl, rfl, rfl⟩
    have evolves := evolves.trans same.evolves
    have ok' : Kept globals (state.1, state.2.assigned id solution) := by
      refine ⟨same.steady ok', ok.globals.evolves evolves, fun equation hequation => ?_⟩
      obtain ⟨hexpected, hfound⟩ := ok.postponed equation hequation
      exact ⟨hexpected.evolves evolves, hfound.evolves evolves⟩
    exact Yields.next hrun ok ok' evolves (Yields.pure ok' trivial)
  · have hrun : exec (liftM (Store.assign id solution).run : UnifyM _) state =
        some (some (if existing = solution then .ok () else .error ⟨id, existing, solution⟩),
          state) := by
      rw [hassign, hid']
    refine Yields.read hrun ok ?_
    split_ifs with h
    · exact Yields.pure ok trivial
    · exact mismatch_keeps ok

theorem solve_keeps (fuel depth : Nat) {id : MetaId} {spine : List Con} {other : Con}
    (ok : Kept globals state) (hmvar : (Con.mvar id spine).Fits state.2)
    (hother : other.Fits state.2) :
    Yields (keeping globals) state (solve fuel depth id spine other) fun _ _ => True := by
  refine Yields.bind ok (keeps_of_compression ok (exec_storeM _ _)
    (patternVars_keeps ok.store fun c hc => hmvar.part hc)) ?_
  rintro found state₁ ok₁ evolves₁ ⟨-, hfound⟩
  have hmvar₁ := hmvar.evolves evolves₁
  have hother₁ := hother.evolves evolves₁
  rcases found with _ | vars
  · refine Yields.bind ok₁ (keeps_of_compression ok₁ (exec_storeM _ _)
      (unsolvedHeads_keeps ok₁.store fun c hc => hmvar₁.part hc)) ?_
    intro heads state₂ ok₂ evolves₂ _
    exact postpone_keeps ok₂ (hmvar₁.evolves evolves₂) (hother₁.evolves evolves₂)
  refine Yields.bind ok₁ (keeps_of_compression ok₁ (exec_fuelM _ _)
    (Store.zonk_keeps fuel ok₁.store hother₁)) ?_
  rintro zonked state₂ ok₂ evolves₂ ⟨-, hzonked⟩
  have hmvar₂ := hmvar₁.evolves evolves₂
  have hother₂ := hother₁.evolves evolves₂
  split
  next => exact Yields.of_none rfl
  next solution rename hrename =>
  split
  next => exact mismatch_keeps ok₂
  next => exact mismatch_keeps ok₂
  next => exact postpone_keeps ok₂ hmvar₂ hother₂
  next houtcome =>
    have hrenamed := Con.renamed_of_renameFor hrename houtcome
    have hvars := hfound vars rfl
    refine Yields.read (rfl : exec getStore state₂ = some (some state₂.2, state₂)) ok₂ ?_
    split
    next kind hkind =>
      refine Yields.read (rfl : exec getStore state₂ = some (some state₂.2, state₂)) ok₂ ?_
      refine Yields.bind ok₂ (unifyKinds_keeps fuel ok₂) fun _ state₃ ok₃ evolves₃ same => ?_
      exact assign_keeps ok₃ (hmvar₂.evolves evolves₃) hvars
        (hzonked.compresses (.of_sameCells same))
        hrenamed
    next => exact assign_keeps ok₂ hmvar₂ hvars hzonked hrenamed

/-! ## Rows -/

/-- Unification of two constructors, as the steps of unification use it. -/
def Keeps (globals : Globals) (unify : Con → Con → UnifyM Unit) : Prop :=
  ∀ {state a b}, Kept globals state → a.Fits state.2 → b.Fits state.2 →
    Yields (keeping globals) state (unify a b) fun _ _ => True

theorem matchFields_keeps {unify : Con → Con → UnifyM Unit} (H : Keeps globals unify)
    {left right : List Piece} (ok : Kept globals state) (hleft : Row.Fits state.2 left)
    (hright : Row.Fits state.2 right) :
    Yields (keeping globals) state (matchFields unify left right) fun rest state' =>
      Row.Fits state'.2 rest.1 ∧ Row.Fits state'.2 rest.2 := by
  induction left generalizing right state with
  | nil => exact Yields.pure ok ⟨by simp [Row.Fits], hright⟩
  | cons piece left ih =>
    obtain ⟨hpiece, htail⟩ := List.forall_mem_cons.mp hleft
    have skip : Yields (keeping globals) state (do
        let rest ← matchFields unify left right
        pure (piece :: rest.1, rest.2)) fun rest state' =>
          Row.Fits state'.2 rest.1 ∧ Row.Fits state'.2 rest.2 := by
      refine Yields.bind ok (ih ok htail hright) fun rest state' ok' evolves hrest => ?_
      exact Yields.pure ok' ⟨List.forall_mem_cons.mpr ⟨hpiece.evolves evolves, hrest.1⟩, hrest.2⟩
    cases piece with
    | field name value =>
      simp only [matchFields]
      split
      next other rest htake =>
        have hperm := takeField_perm htake
        have hother := (hright (.field name other) (hperm.mem_iff.mpr (by simp))).2
        refine Yields.bind ok (H ok hpiece.2 hother) fun _ state₁ ok₁ evolves₁ _ => ?_
        have hrest : Row.Fits state.2 rest := fun p hp =>
          hright p (hperm.mem_iff.mpr (List.mem_cons_of_mem _ hp))
        exact ih ok₁ (Row.Fits.evolves htail evolves₁) (hrest.evolves evolves₁)
      next => exact skip
    | atom | flex | error => exact skip

theorem cancelRests_subset (left right : List Piece) :
    (cancelRests left right).1 ⊆ left ∧ (cancelRests left right).2 ⊆ right := by
  induction left generalizing right with
  | nil => exact ⟨List.Subset.refl _, List.Subset.refl _⟩
  | cons piece left ih =>
    simp only [cancelRests]
    split
    next rest h =>
      obtain ⟨c, -, htake⟩ := Option.bind_eq_some_iff.mp h
      obtain ⟨found, -, hperm⟩ := takeRest_perm htake
      have hrest : rest ⊆ right := fun p hp => hperm.mem_iff.mpr (List.mem_cons_of_mem _ hp)
      exact ⟨List.subset_cons_of_subset _ (ih rest).1, List.Subset.trans (ih rest).2 hrest⟩
    next => exact ⟨List.cons_subset_cons _ (ih right).1, (ih right).2⟩

/-- The pieces of a leftover fit. -/
theorem Leftover.fits {store : Store} {pieces : List Piece} (h : Row.Fits store pieces) :
    Row.Fits store (Leftover.ofPieces pieces).pieces := fun p hp =>
  h p ((Leftover.pieces_perm pieces).mem_iff.mpr hp)

section Strategies

variable {unify : Con → Con → UnifyM Unit} {left right side other : Leftover}

theorem unifyLeftoverFields_keeps (H : Keeps globals unify) (depth : Nat) {a b : Con}
    (ok : Kept globals state) (ha : a.Fits state.2) (hb : b.Fits state.2)
    (hleft : Row.Fits state.2 left.pieces) (hright : Row.Fits state.2 right.pieces) :
    Yields (keeping globals) state (unifyLeftoverFields unify depth a b left right)
      fun _ _ => True := by
  have hdecide : ∀ {reason : MismatchReason} {blockers : List MetaId} {p : Prop} [Decidable p],
      Yields (keeping globals) state
        (if p then mismatch a b reason else postpone depth a b blockers) fun _ _ => True := by
    intro reason blockers p _
    split
    · exact mismatch_keeps ok
    · exact postpone_keeps ok ha hb
  unfold unifyLeftoverFields
  dsimp only
  split
  next name value name' value' hfields hfields' =>
    split
    next =>
      obtain ⟨hname, hvalue⟩ := hleft (.field name value) (by simp [Leftover.pieces, hfields])
      obtain ⟨hname', hvalue'⟩ :=
        hright (.field name' value') (by simp [Leftover.pieces, hfields'])
      refine Yields.bind ok (H ok hname hname') fun _ state₁ ok₁ evolves₁ _ => ?_
      exact H ok₁ (hvalue.evolves evolves₁) (hvalue'.evolves evolves₁)
    next => exact hdecide
  next => exact hdecide

theorem elementKind_keeps {id : MetaId} (ok : Kept globals state) :
    Yields (keeping globals) state (elementKind id) fun _ _ => True := by
  refine Yields.read (rfl : exec getStore state = some (some state.2, state)) ok ?_
  refine Yields.bind ok (keeps_of_compression ok (exec_storeM _ _)
    (Store.onKinds_keeps (KindStore.resolve (state.2.cell id).kind) ok.store)) ?_
  rintro root state₁ ok₁ - -
  split <;> exact Yields.pure ok₁ trivial

theorem solveTail_keeps (H : Keeps globals unify) (ok : Kept globals state)
    (hside : Row.Fits state.2 side.pieces) (hother : Row.Fits state.2 other.pieces) :
    Yields (keeping globals) state (solveTail unify side other) fun _ _ => True := by
  unfold solveTail
  split
  next id spine v hfields hrests =>
    have hmvar : (Con.mvar id spine).Fits state.2 :=
      hside (.flex (.mvar id spine) v) (by simp [Leftover.pieces, hrests])
    refine Yields.bind ok (elementKind_keeps ok) fun element state₁ ok₁ evolves₁ _ => ?_
    refine Yields.bind ok₁ (H ok₁ (hmvar.evolves evolves₁)
      (Row.rebuild_fits (hother.evolves evolves₁))) fun _ state₂ ok₂ _ _ => ?_
    exact Yields.pure ok₂ trivial
  next => exact Yields.pure ok trivial

/-- A new metavariable fits. -/
theorem freshWithSpine_keeps {store : Store} (ok : store.Steady) (kind : Kind) {spine : List Con}
    (hspine : ∀ c ∈ spine, c.Fits store) :
    Yields Store.evolution store (Store.freshWithSpine kind spine) fun c store' =>
      c.Fits store' := by
  have hrun : exec (Store.freshWithSpine kind spine) store =
      some (some (.mvar store.cells.size spine), store.extended kind spine.length) := rfl
  have evolves : store.Evolves (store.extended kind spine.length) :=
    Store.evolves_extended kind spine.length
  refine Yields.of_exec hrun (ok.extended kind spine.length) evolves (.intro ?_ fun p hp => ?_)
  · rintro id spine' ⟨⟩
    rw [Store.cell_extended, if_pos rfl]
    exact ⟨by simp [Store.extended], rfl⟩
  · exact (hspine p hp).evolves evolves

theorem fresh_keeps {store : Store} (ok : store.Steady) (kind : Kind) (depth : Nat) :
    Yields Store.evolution store (Store.fresh kind depth) fun c store' => c.Fits store' := by
  refine freshWithSpine_keeps ok kind fun c hc => ?_
  obtain ⟨i, -, rfl⟩ := List.mem_map.mp hc
  exact .bvar i

theorem solveCommonTail_keeps (H : Keeps globals unify) (ok : Kept globals state)
    (hleft : Row.Fits state.2 left.pieces) (hright : Row.Fits state.2 right.pieces) :
    Yields (keeping globals) state (solveCommonTail unify left right) fun _ _ => True := by
  unfold solveCommonTail
  split
  next l leftSpine v r rightSpine w hlefts hrights =>
    have hl : (Con.mvar l leftSpine).Fits state.2 :=
      hleft (.flex (.mvar l leftSpine) v) (by simp [Leftover.pieces, hlefts])
    have hr : (Con.mvar r rightSpine).Fits state.2 :=
      hright (.flex (.mvar r rightSpine) w) (by simp [Leftover.pieces, hrights])
    split
    next => exact Yields.pure ok trivial
    next =>
    refine Yields.bind ok (keeps_of_compression ok (exec_storeM _ _)
      (patternVars_keeps ok.store fun c hc => hl.part hc)) ?_
    rintro found state₁ ok₁ evolves₁ -
    split
    next => exact Yields.pure ok₁ trivial
    next =>
    have hr₁ := hr.evolves evolves₁
    refine Yields.bind ok₁ (keeps_of_compression ok₁ (exec_storeM _ _)
      (patternVars_keeps ok₁.store fun c hc => hr₁.part hc)) ?_
    rintro found state₂ ok₂ evolves₂ -
    split
    next => exact Yields.pure ok₂ trivial
    next =>
    refine Yields.read (rfl : exec getStore state₂ = some (some state₂.2, state₂)) ok₂ ?_
    refine Yields.bind ok₂ (elementKind_keeps ok₂) fun element state₃ ok₃ evolves₃ _ => ?_
    have evolves₃ := (evolves₁.trans evolves₂).trans evolves₃
    have hcommon : ∀ c ∈ leftSpine.filter (rightSpine.contains ·), c.Fits state₃.2 := fun c hc =>
      (hl.part (List.mem_filter.mp hc).1).evolves evolves₃
    refine Yields.bind ok₃ (keeps_of_store ok₃ (exec_storeM _ _)
      (freshWithSpine_keeps ok₃.store _ hcommon)) fun tail state₄ ok₄ evolves₄ htail => ?_
    have evolves₄ := evolves₃.trans evolves₄
    have hsolution : ∀ {side : Leftover} {id : MetaId}, Row.Fits state.2 side.pieces →
        (Row.rebuild element
          ({ side with rests := [.flex tail id] } : Leftover).pieces).Fits state₄.2 := by
      refine fun {side id} hside => Row.rebuild_fits fun piece hpiece => ?_
      rcases List.mem_append.mp hpiece with h | h
      · exact (hside piece (List.mem_append_left _ h)).evolves evolves₄
      · cases List.mem_singleton.mp h
        exact htail
    refine Yields.bind ok₄ (H ok₄ (hl.evolves evolves₄) (hsolution hright)) ?_
    intro _ state₅ ok₅ evolves₅ _
    refine Yields.bind ok₅ (H ok₅ (hr.evolves (evolves₄.trans evolves₅))
      ((hsolution hleft).evolves evolves₅)) fun _ state₆ ok₆ _ _ => ?_
    exact Yields.pure ok₆ trivial
  next => exact Yields.pure ok trivial

theorem solveMapped_keeps (H : Keeps globals unify) (fuel depth : Nat) {a b : Con}
    (ok : Kept globals state) (ha : a.Fits state.2) (hb : b.Fits state.2)
    (hside : Row.Fits state.2 side.pieces) (hother : Row.Fits state.2 other.pieces) :
    Yields (keeping globals) state (solveMapped globals fuel depth unify a b side other)
      fun _ _ => True := by
  unfold solveMapped
  split
  next domain codomain f row v field fields hfields hrests hfields' hrests' =>
    have hmap : (Con.map domain codomain f row).Fits state.2 :=
      hside (.flex (.map domain codomain f row) v) (by simp [Leftover.pieces, hrests])
    refine Yields.bind ok (keeps_of_compression ok (exec_fuelM _ _)
      (headNormal_keeps fuel ok.store ok.globals (hmap.part (by simp [Con.parts])))) ?_
    rintro head state₁ ok₁ evolves₁ ⟨-, hhead⟩
    split
    next =>
      have hrun : Yields (keeping globals) state₁ (other.fields.mapM fun field =>
          return (field.1, ← Store.fresh domain depth) : UnifyM _) fun fields' state' =>
          List.Forall₂ (fun field field' => field'.1.Fits state'.2 ∧ field'.2.Fits state'.2)
            other.fields fields' := by
        refine Yields.mapM ok₁ (fun _ evolves h => ⟨h.1.evolves evolves, h.2.evolves evolves⟩) ?_
        intro field hfield state₂ ok₂ evolves₂
        have hname : field.1.Fits state.2 := (hother (.field field.1 field.2) (by
          simp only [Leftover.pieces, List.mem_append, List.mem_map]
          exact .inl ⟨field, hfield, rfl⟩)).1
        refine Yields.bind ok₂ (keeps_of_store ok₂ (exec_storeM _ _)
          (fresh_keeps ok₂.store domain depth)) fun c state₃ ok₃ evolves₃ hc => ?_
        exact Yields.pure ok₃ ⟨hname.evolves ((evolves₁.trans evolves₂).trans evolves₃), hc⟩
      refine Yields.bind ok₁ hrun fun fields' state₂ ok₂ evolves₂ hfields'' => ?_
      have hliteral : (Con.row domain fields').Fits state₂.2 :=
        .row (Con.forall_mem_of_forall₂ hfields'' fun _ _ _ h => h)
      refine Yields.bind ok₂ (H ok₂ (hhead.evolves evolves₂) hliteral) ?_
      intro _ state₃ ok₃ evolves₃ _
      have evolves₃ := (evolves₁.trans evolves₂).trans evolves₃
      refine Yields.bind ok₃ (H ok₃ (ha.evolves evolves₃) (hb.evolves evolves₃)) ?_
      exact fun _ state₄ ok₄ _ _ => Yields.pure ok₄ trivial
    next => exact Yields.pure ok₁ trivial
  next => exact Yields.pure ok trivial

end Strategies

/-- One strategy, and what follows if it does not apply. -/
theorem orElse_keeps {attempt : UnifyM Bool} {otherwise : UnifyM Unit} (ok : Kept globals state)
    (hattempt : Yields (keeping globals) state attempt fun _ _ => True)
    (hotherwise : ∀ state', Kept globals state' → state.2.Evolves state'.2 →
      Yields (keeping globals) state' otherwise fun _ _ => True) :
    Yields (keeping globals) state (do if ← attempt then pure () else otherwise)
      fun _ _ => True := by
  refine Yields.bind ok hattempt fun solved state' ok' evolves _ => ?_
  cases solved with
  | true => exact Yields.pure ok' trivial
  | false => exact hotherwise state' ok' evolves

theorem unifyRows_keeps {unify : Con → Con → UnifyM Unit} (H : Keeps globals unify)
    (fuel depth : Nat) : Keeps globals (unifyRows globals fuel depth unify) := by
  intro state a b ok ha hb
  refine Yields.bind ok (keeps_of_compression ok (exec_fuelM _ _)
    (Row.summarize_keeps fuel ok.store ok.globals ha)) ?_
  rintro lefts state₁ ok₁ evolves₁ ⟨-, hlefts⟩
  refine Yields.bind ok₁ (keeps_of_compression ok₁ (exec_fuelM _ _)
    (Row.summarize_keeps fuel ok₁.store ok₁.globals (hb.evolves evolves₁))) ?_
  rintro rights state₂ ok₂ evolves₂ ⟨-, hrights⟩
  split
  next => exact Yields.pure ok₂ trivial
  next =>
  refine Yields.bind ok₂ (matchFields_keeps H ok₂ (hlefts.evolves evolves₂) hrights) ?_
  rintro ⟨left', right'⟩ state₃ ok₃ evolves₃ ⟨hleft', hright'⟩
  have hsubset := cancelRests_subset left' right'
  simp only
  have hleft := Leftover.fits fun p hp => hleft' p (hsubset.1 hp)
  have hright := Leftover.fits fun p hp => hright' p (hsubset.2 hp)
  generalize Leftover.ofPieces (cancelRests left' right').1 = left at hleft ⊢
  generalize Leftover.ofPieces (cancelRests left' right').2 = right at hright ⊢
  have evolves₃ := (evolves₁.trans evolves₂).trans evolves₃
  have ha := ha.evolves evolves₃
  have hb := hb.evolves evolves₃
  split
  next => exact Yields.pure ok₃ trivial
  next =>
  split
  next => exact unifyLeftoverFields_keeps H depth ok₃ ha hb hleft hright
  next =>
  refine orElse_keeps ok₃ (solveTail_keeps H ok₃ hleft hright) fun state₄ ok₄ evolves₄ => ?_
  refine orElse_keeps ok₄ (solveTail_keeps H ok₄ (hright.evolves evolves₄)
    (hleft.evolves evolves₄)) fun state₅ ok₅ evolves₅ => ?_
  have evolves₅ := evolves₄.trans evolves₅
  refine orElse_keeps ok₅ (solveCommonTail_keeps H ok₅ (hleft.evolves evolves₅)
    (hright.evolves evolves₅)) fun state₆ ok₆ evolves₆ => ?_
  have evolves₆ := evolves₅.trans evolves₆
  refine orElse_keeps ok₆ (solveMapped_keeps H fuel depth ok₆ (ha.evolves evolves₆)
    (hb.evolves evolves₆) (hleft.evolves evolves₆) (hright.evolves evolves₆))
    fun state₇ ok₇ evolves₇ => ?_
  have evolves₇ := evolves₆.trans evolves₇
  refine orElse_keeps ok₇ (solveMapped_keeps H fuel depth ok₇ (ha.evolves evolves₇)
    (hb.evolves evolves₇) (hright.evolves evolves₇) (hleft.evolves evolves₇))
    fun state₈ ok₈ evolves₈ => ?_
  have evolves₈ := evolves₇.trans evolves₈
  split
  · exact mismatch_keeps ok₈
  · exact postpone_keeps ok₈ (ha.evolves evolves₈) (hb.evolves evolves₈)

/-! ## Constructors -/

theorem both_keeps {unify unify' : Con → Con → UnifyM Unit} (H : Keeps globals unify)
    (H' : Keeps globals unify') {a b a' b' : Con} (ok : Kept globals state)
    (ha : a.Fits state.2) (hb : b.Fits state.2) (ha' : a'.Fits state.2) (hb' : b'.Fits state.2) :
    Yields (keeping globals) state (do unify a b; unify' a' b') fun _ _ => True := by
  refine Yields.bind ok (H ok ha hb) fun _ state₁ ok₁ evolves₁ _ => ?_
  exact H' ok₁ (ha'.evolves evolves₁) (hb'.evolves evolves₁)

theorem kindThen_keeps {unify : Con → Con → UnifyM Unit} (H : Keeps globals unify) (fuel : Nat)
    {k k' : Kind} {a b : Con} (ok : Kept globals state) (ha : a.Fits state.2)
    (hb : b.Fits state.2) :
    Yields (keeping globals) state (do unifyKinds fuel k k'; unify a b) fun _ _ => True := by
  refine Yields.bind ok (unifyKinds_keeps fuel ok) fun _ state₁ ok₁ evolves₁ _ => ?_
  exact H ok₁ (ha.evolves evolves₁) (hb.evolves evolves₁)

theorem zip_keeps {unify : Con → Con → UnifyM Unit} (H : Keeps globals unify) {cs cs' : List Con}
    (ok : Kept globals state) (hcs : ∀ c ∈ cs, c.Fits state.2) (hcs' : ∀ c ∈ cs', c.Fits state.2) :
    Yields (keeping globals) state ((cs.zip cs').forM fun (c, c') => unify c c')
      fun _ _ => True := by
  have hpairs : Yields (keeping globals) state ((cs.zip cs').forM fun (c, c') => unify c c')
      fun _ _ => ∀ pair ∈ cs.zip cs', True := by
    refine Yields.forM ok (fun _ _ h => h) fun pair hpair state₁ ok₁ evolves₁ => ?_
    obtain ⟨hc, hc'⟩ := List.of_mem_zip (a := pair.1) (b := pair.2) hpair
    exact H ok₁ ((hcs _ hc).evolves evolves₁) ((hcs' _ hc').evolves evolves₁)
  exact hpairs.mono fun _ _ _ _ _ => trivial

section Steps

variable {unify : Nat → Con → Con → UnifyM Unit}

theorem unifyParts_keeps (H : ∀ depth, Keeps globals (unify depth)) (fuel depth : Nat) :
    Keeps globals (unifyParts fuel depth unify) := by
  intro state a b ok ha hb
  have part : ∀ {c p : Con}, c.Fits state.2 → p ∈ c.parts → p.Fits state.2 := fun h hp => h.part hp
  unfold unifyParts
  split
  next =>
    exact both_keeps (H depth) (H depth) ok (part ha (by simp [Con.parts]))
      (part hb (by simp [Con.parts])) (part ha (by simp [Con.parts]))
      (part hb (by simp [Con.parts]))
  next =>
    exact both_keeps (H depth) (H depth) ok (part ha (by simp [Con.parts]))
      (part hb (by simp [Con.parts])) (part ha (by simp [Con.parts]))
      (part hb (by simp [Con.parts]))
  next =>
    exact kindThen_keeps (H (depth + 1)) fuel ok (part ha (by simp [Con.parts]))
      (part hb (by simp [Con.parts]))
  next =>
    split
    next =>
      exact kindThen_keeps (H (depth + 1)) fuel ok (part ha (by simp [Con.parts]))
        (part hb (by simp [Con.parts]))
    next => exact mismatch_keeps ok
  next =>
    exact H depth ok (part ha (by simp [Con.parts])) (part hb (by simp [Con.parts]))
  next =>
    exact H depth ok (part ha (by simp [Con.parts])) (part hb (by simp [Con.parts]))
  next =>
    refine Yields.bind ok (H depth ok (part ha (by simp [Con.parts]))
      (part hb (by simp [Con.parts]))) fun _ state₁ ok₁ _ _ => ?_
    exact (unifyKinds_keeps fuel ok₁).mono fun _ _ _ _ _ => trivial
  next l r body l' r' body' =>
    refine Yields.bind ok (H depth ok (part ha (by simp [Con.parts]))
      (part hb (by simp [Con.parts]))) fun _ state₁ ok₁ evolves₁ _ => ?_
    have ha₁ := ha.evolves evolves₁
    have hb₁ := hb.evolves evolves₁
    exact both_keeps (H depth) (H depth) ok₁ (ha₁.part (by simp [Con.parts]))
      (hb₁.part (by simp [Con.parts])) (ha₁.part (by simp [Con.parts]))
      (hb₁.part (by simp [Con.parts]))
  next =>
    exact H depth ok (part ha (by simp [Con.parts])) (part hb (by simp [Con.parts]))
  next =>
    exact H depth ok (part ha (by simp [Con.parts])) (part hb (by simp [Con.parts]))
  next cs cs' =>
    split
    next => exact zip_keeps (H depth) ok (fun c hc => ha.part hc) fun c hc => hb.part hc
    next => exact mismatch_keeps ok
  next =>
    split
    next => exact H depth ok (part ha (by simp [Con.parts])) (part hb (by simp [Con.parts]))
    next => exact mismatch_keeps ok
  next =>
    exact both_keeps (H depth) (H depth) ok (part ha (by simp [Con.parts]))
      (part hb (by simp [Con.parts])) (part ha (by simp [Con.parts]))
      (part hb (by simp [Con.parts]))
  next => exact mismatch_keeps ok

theorem unifyHeads_keeps (H : ∀ depth, Keeps globals (unify depth)) (fuel depth : Nat) :
    Keeps globals (unifyHeads globals fuel depth unify) := by
  intro state a b ok ha hb
  unfold unifyHeads
  extract_lets others
  split
  next v spine w spine' =>
    split
    next =>
      split
      next => exact zip_keeps (H depth) ok (fun c hc => ha.part hc) fun c hc => hb.part hc
      next => exact mismatch_keeps ok
    next => exact solve_keeps fuel depth ok ha hb
  next => exact solve_keeps fuel depth ok ha hb
  next => exact solve_keeps fuel depth ok hb ha
  next =>
    unfold others
    split
    next => exact unifyRows_keeps (H depth) fuel depth ok ha hb
    next =>
      split
      next => exact unifyParts_keeps H fuel depth ok ha hb
      next => exact postpone_keeps ok ha hb

end Steps

theorem unifyAt_keeps (fuel depth : Nat) : Keeps globals (unifyAt globals fuel depth) := by
  induction fuel generalizing depth with
  | zero => exact fun _ _ _ => Yields.of_none rfl
  | succ fuel ih =>
    intro state a b ok ha hb
    simp only [unifyAt]
    split
    next => exact Yields.pure ok trivial
    next =>
    refine Yields.bind ok (keeps_of_compression ok (exec_fuelM _ _)
      (headNormal_keeps fuel ok.store ok.globals ha)) ?_
    rintro a' state₁ ok₁ evolves₁ ⟨-, ha'⟩
    refine Yields.bind ok₁ (keeps_of_compression ok₁ (exec_fuelM _ _)
      (headNormal_keeps fuel ok₁.store ok₁.globals (hb.evolves evolves₁))) ?_
    rintro b' state₂ ok₂ evolves₂ ⟨-, hb'⟩
    split
    next => exact Yields.pure ok₂ trivial
    next => exact unifyHeads_keeps ih fuel depth ok₂ (ha'.evolves evolves₂) hb'

end Unify

/-- Whatever unification answers, the store stays in order, and so do the postponed equations. -/
theorem unify_keeps {globals : Globals} {store : Store} (fuel depth : Nat) {a b : Con}
    (ok : store.Steady) (hg : globals.Fits store) (ha : a.Fits store) (hb : b.Fits store) :
    Yields Store.evolution store (unify globals fuel depth a b) fun answer store' =>
      ∀ equation ∈ answer.2, equation.expected.Fits store' ∧ equation.found.Fits store' := by
  intro r store' hexec
  have hrun : ∃ answer postponed, Unify.unifyAt globals fuel depth a b [] store =
      some ((answer, postponed), store') ∧ ∀ result, r = some result → result.2 = postponed := by
    change Option.map _ (Option.bind (Unify.unifyAt globals fuel depth a b [] store) _) = _ at hexec
    rw [Option.map_eq_some_iff] at hexec
    obtain ⟨⟨result, final⟩, hbind, hr⟩ := hexec
    cases hr
    obtain ⟨⟨⟨answer, postponed⟩, final⟩, hanswer, hpure⟩ := Option.bind_eq_some_iff.mp hbind
    cases hpure
    refine ⟨answer, postponed, hanswer, ?_⟩
    rintro _ ⟨⟩
    rfl
  obtain ⟨answer, postponed, hanswer, hr⟩ := hrun
  have hat : exec (Unify.unifyAt globals fuel depth a b) ([], store) =
      some (succeeded answer, postponed, store') := by
    change Option.map _ (Option.map _ (Unify.unifyAt globals fuel depth a b [] store)) = _
    rw [hanswer]
    rfl
  have ok₀ : Unify.Kept globals ([], store) := ⟨ok, hg, by simp⟩
  obtain ⟨ok', evolves, -⟩ := Unify.unifyAt_keeps fuel depth ok₀ ha hb _ _ hat
  refine ⟨ok'.store, evolves, fun result hresult equation hequation => ?_⟩
  rw [hr result hresult] at hequation
  exact ok'.postponed equation hequation

end RowML
