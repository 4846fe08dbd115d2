import RowML.Proofs.Normal.Full

/-!
# Reduction adds no variable

A reduct has no free variables but those of the constructor that it is a reduct of, provided that
the definitions of the global table have none.
-/

namespace RowML

namespace Con

variable {S S' : Nat → Prop} {c p : Con} {d e : Depth}

/-- What a node says about the free variables of the constructor around it. -/
def InScope (S : Nat → Prop) (depth : Depth) (node : Con) : Prop :=
  ∀ i, node = .bvar i → i < depth.con ∨ S (i - depth.con)

/-- Every free variable of a constructor that stands under some binders is in the set. -/
def OverAt (S : Nat → Prop) (depth : Depth) (c : Con) : Prop := Nodes (InScope S) depth c

/-- Every free variable of the constructor is in the set. -/
abbrev Over (S : Nat → Prop) (c : Con) : Prop := c.OverAt S .zero

namespace OverAt

theorem part (h : c.OverAt S d) (hp : p ∈ c.parts) : p.OverAt S (d + c.binders) :=
  Nodes.part h p hp

theorem bvar {i : Nat} (h : i < d.con ∨ S (i - d.con)) : (Con.bvar i).OverAt S d :=
  .intro (fun _ hi => by cases hi; exact h) (by simp [parts])

/-- A node other than a variable. -/
theorem node (hc : ∀ i, c ≠ .bvar i) (hparts : ∀ p ∈ c.parts, p.OverAt S (d + c.binders)) :
    c.OverAt S d :=
  .intro (fun i hi => absurd hi (hc i)) hparts

/-- A node with the frame of another one. -/
theorem of_frame {c' : Con} (h : c.OverAt S d) (hframe : c.frame = c'.frame)
    (hparts : ∀ p ∈ c'.parts, p.OverAt S (d + c.binders)) : c'.OverAt S d := by
  by_cases hbvar : ∃ i, c' = .bvar i
  · obtain ⟨i, rfl⟩ := hbvar
    exact eq_of_frame_leaf hframe.symm rfl rfl ▸ h
  · exact .node (fun i hi => hbvar ⟨i, hi⟩) (binders_eq hframe ▸ hparts)

/-- The free variables inside some binders. -/
theorem under : c.OverAt S (d + e) ↔ c.OverAt (fun i => i < d.con ∨ S (i - d.con)) e := by
  unfold OverAt
  rw [Nodes.shift]
  refine ⟨fun h => h.mono ?_, fun h => h.mono ?_⟩ <;> intro f node hnode i hi <;>
    have := hnode i hi <;> simp only [Depth.add_con] at * <;> rw [Nat.add_comm, Nat.sub_add_eq] at *
  · by_cases hlt : i < f.con
    · exact .inl hlt
    · exact .inr (this.imp (fun h => by omega) id)
  · rcases this with hlt | hlt | hS
    · exact .inl (by omega)
    · exact .inl (by omega)
    · exact .inr hS

/-- A traversal that puts constructors for variables. -/
theorem traverse {vars : Depth → Nat → Con} {kinds : Depth → Kind → Kind}
    (hvars : ∀ f i, (i < f.con ∨ S (i - f.con)) → (vars f i).OverAt S' (d + f))
    (h : c.OverAt S e) : (c.traverse vars kinds e).OverAt S' (d + e) := by
  induction c using inductionOnParts generalizing e with
  | step c ih =>
    by_cases hbvar : ∃ i, c = .bvar i
    · obtain ⟨i, rfl⟩ := hbvar
      exact hvars e i (Nodes.top h i rfl)
    · have hbvar : ∀ i, c ≠ .bvar i := fun i hi => hbvar ⟨i, hi⟩
      have hframe : (c.traverse vars kinds e).frame = c.frame := frame_traverse hbvar
      refine .node (ne_bvar_of_frame hframe hbvar) ?_
      rw [parts_traverse hbvar, binders_eq hframe, Depth.add_assoc]
      exact List.forall_mem_map.mpr fun p hp => ih p hp (h.part hp)

theorem weakenVar (f : Depth) {i : Nat} (h : i < f.con ∨ S (i - f.con)) :
    (Con.weakenVar d f i).OverAt S (d + f) := by
  unfold Con.weakenVar
  refine .bvar ?_
  rw [Depth.add_con]
  split_ifs with hlt
  · exact .inl (by omega)
  · refine .inr ?_
    rw [show i + d.con - (d.con + f.con) = i - f.con by omega]
    exact h.resolve_left hlt

end OverAt

theorem Over.weakened (h : c.Over S) (d : Depth) : (c.weakened d).OverAt S d :=
  OverAt.traverse (fun f _ => OverAt.weakenVar f) h

theorem Over.instantiated {spine : List Con} (h : c.Over S')
    (hS : ∀ i, S' i → i < spine.length ∨ S (i - spine.length)) (hspine : ∀ a ∈ spine, a.Over S) :
    (c.instantiated spine).Over S := by
  refine OverAt.traverse (d := .zero) (fun f i hi => ?_) h
  rw [Depth.zero_add]
  by_cases hlt : i < f.con
  · rw [spineVar_of_lt hlt]
    exact .bvar (.inl hlt)
  have hle := Nat.not_lt.mp hlt
  cases hget : spine.reverse[i - f.con]? with
  | some argument =>
    rw [spineVar_of_some hle hget]
    exact (hspine argument (List.mem_reverse.mp (List.mem_of_getElem? hget))).weakened f
  | none =>
    rw [spineVar_of_none hle hget]
    have hlength := List.getElem?_eq_none_iff.mp hget
    rw [List.length_reverse] at hlength
    have hmem := (hS _ (hi.resolve_left hlt)).resolve_left (by omega)
    refine .bvar (.inr ?_)
    rwa [show i - spine.length - f.con = i - f.con - spine.length by omega]

theorem over_of_bound {n : Nat} (h : c.bound ≤ n) : c.Over (· < n) := by
  refine (bound_le_iff.mp h).mono fun f node hnode i hi => ?_
  have := hnode i hi
  by_cases hlt : i < f.con
  · exact .inl hlt
  · exact .inr (by omega)

theorem over_of_closed (h : c.bound = 0) : c.Over S :=
  (over_of_bound (Nat.le_of_eq h)).mono fun _ _ hnode i hi =>
    (hnode i hi).imp_right fun h => absurd h (Nat.not_lt_zero _)

/-! ## Steps -/

/-- Every free variable of the second constructor is one of the first. -/
def KeepsScope (c r : Con) : Prop := ∀ S, c.Over S → r.Over S

namespace KeepsScope

variable {a b r : Con}

theorem refl (c : Con) : KeepsScope c c := fun _ h => h

theorem trans (h : KeepsScope a b) (h' : KeepsScope b c) : KeepsScope a c :=
  fun S ha => h' S (h S ha)

theorem error (c : Con) : KeepsScope c .error := fun _ _ => .node (by simp) (by simp [parts])

/-- A part of a node that binds nothing. -/
theorem part (hp : p ∈ c.parts) (hbinders : c.binders = .zero) : KeepsScope c p := by
  intro S h
  have hpart := h.part hp
  rwa [hbinders] at hpart

theorem of_parts {c' : Con} (hframe : c.frame = c'.frame)
    (hparts : List.Forall₂ KeepsScope c.parts c'.parts) : KeepsScope c c' := by
  intro S h
  refine h.of_frame hframe (forall_mem_of_forall₂ hparts fun p hp p' hpp => ?_)
  have hpart := h.part hp
  rw [← Depth.add_zero c.binders, ← Depth.add_assoc, OverAt.under] at hpart ⊢
  exact hpp _ hpart

theorem of_alike {kinds : Kind → Kind → Prop} (h : Alike kinds c r) : KeepsScope c r := by
  induction c using inductionOnParts generalizing r with
  | step c ih =>
    refine of_parts h.frame_eq ?_
    obtain ⟨hlength, hparts⟩ := List.forall₂_iff_get.mp h.parts
    exact List.forall₂_iff_get.mpr
      ⟨hlength, fun i hi hi' => ih _ (List.getElem_mem hi) (hparts i hi hi')⟩

/-- A node over several constructors that come from parts of another node. -/
theorem of_over (hr : ∀ i, r ≠ .bvar i) (hbinders : r.binders = .zero)
    (h : ∀ p ∈ r.parts, KeepsScope c p) : KeepsScope c r := by
  intro S hc
  refine .node hr fun p hp => ?_
  rw [hbinders]
  exact h p hp S hc

end KeepsScope

theorem instantiated_keepsScope {v : MetaId} {solution : Con} {spine : List Con}
    (h : solution.bound ≤ spine.length) :
    KeepsScope (.mvar v spine) (solution.instantiated spine) := fun _ hmvar =>
  (over_of_bound h).instantiated (fun _ => .inl) fun _ ha => hmvar.part ha

theorem beta_keepsScope (x : String) (k : Kind) (body argument : Con) :
    KeepsScope (.app (.abs x k body) argument) (body.instantiated [argument]) := by
  intro S h
  have habs : (Con.abs x k body).Over S := h.part (by simp [parts])
  have hbody : body.OverAt S (⟨1, 0⟩ + .zero) := habs.part (by simp [parts])
  refine Over.instantiated (OverAt.under.mp hbody) (fun _ h => h) ?_
  rw [List.forall_mem_singleton]
  exact h.part (by simp [parts])

/-- The body of a kind abstraction; the argument has no constructor variables. -/
theorem kindBeta_keepsScope (x : String) (body : Con) (argument : Kind) :
    KeepsScope (.kapp (.kabs x body) argument) body := by
  intro S h
  have habs : (Con.kabs x body).Over S := h.part (by simp [parts])
  have hbody : body.OverAt S (⟨0, 1⟩ + .zero) := habs.part (by simp [parts])
  exact (OverAt.under.mp hbody).mono fun _ _ hnode i hi => by simpa using hnode i hi

/-! ## The row operators -/

theorem concat_keepsScope {l l' r r' : Con} (hl : KeepsScope l l') (hr : KeepsScope r r') :
    KeepsScope (.concat l r) (.concat l' r') :=
  .of_parts rfl (.cons hl (.cons hr .nil))

theorem concatHeads_keepsScope (l r : Con) : KeepsScope (.concat l r) (concatHeads l r) := by
  unfold concatHeads
  split
  · exact .error _
  · exact .error _
  · exact .part (by simp [parts]) rfl
  · exact .part (by simp [parts]) rfl
  next k fields k' fields' _ _ =>
    refine .of_over (by simp) rfl fun p hp => ?_
    rw [parts, List.flatMap_append, List.mem_append] at hp
    rcases hp with hp | hp
    · have hl : KeepsScope (.concat (.row k fields) (.row k' fields')) (.row k fields) :=
        .part (by simp [parts]) rfl
      exact hl.trans (.part hp rfl)
    · have hr : KeepsScope (.concat (.row k fields) (.row k' fields')) (.row k' fields') :=
        .part (by simp [parts]) rfl
      exact hr.trans (.part hp rfl)
  · exact .refl _

theorem Over.compose {S : Nat → Prop} {d : Kind} {f g : Con} (hf : f.Over S) (hg : g.Over S) :
    (Con.compose d f g).Over S := by
  have lifted : ∀ {c : Con}, c.Over S → (c.lift 1).OverAt S ⟨1, 0⟩ := by
    intro c hc
    rw [lift_eq_traverse]
    exact OverAt.traverse (d := ⟨1, 0⟩) (e := .zero) (fun e _ => OverAt.weakenVar e) hc
  have hvar : (Con.bvar 0).OverAt S ⟨1, 0⟩ := .bvar (.inl Nat.zero_lt_one)
  have hinner : (Con.app (g.lift 1) (.bvar 0)).OverAt S ⟨1, 0⟩ :=
    .node (by simp) (by simpa [parts, binders] using ⟨lifted hg, hvar⟩)
  have houter : (Con.app (f.lift 1) (.app (g.lift 1) (.bvar 0))).OverAt S ⟨1, 0⟩ :=
    .node (by simp) (by simpa [parts, binders] using ⟨lifted hf, hinner⟩)
  exact .node (by simp [Con.compose]) (List.forall_mem_singleton.mpr houter)

theorem mapRow_keepsScope (d e : Kind) (f row : Con) :
    KeepsScope (.map d e f row) (mapRow d e f row) := by
  induction row using inductionOnParts with
  | step row ih =>
    have hf : ∀ {row}, KeepsScope (.map d e f row) f := .part (by simp [parts]) rfl
    have hrow : ∀ {row}, KeepsScope (.map d e f row) row := .part (by simp [parts]) rfl
    cases row with
    | error => exact .error _
    | row k fields =>
      refine .of_over (by simp [mapRow]) rfl fun p hp => ?_
      simp only [mapRow, parts, List.mem_flatMap, List.mem_map, List.mem_cons, List.not_mem_nil,
        or_false] at hp
      obtain ⟨_, ⟨⟨name, value⟩, hmem, rfl⟩, rfl | rfl⟩ := hp
      · exact hrow.trans (.part (List.mem_flatMap.mpr ⟨_, hmem, by simp⟩) rfl)
      · have hvalue : KeepsScope (.map d e f (.row k fields)) value :=
          hrow.trans (.part (List.mem_flatMap.mpr ⟨_, hmem, by simp⟩) rfl)
        refine .of_over (by simp) rfl ?_
        simpa [parts] using ⟨hf, hvalue⟩
    | concat l r =>
      have half : ∀ p ∈ (Con.concat l r).parts,
          KeepsScope (.map d e f (.concat l r)) (.map d e f p) := by
        intro p hp
        refine .of_over (by simp) rfl ?_
        simpa [parts] using ⟨hf, hrow.trans (.part hp rfl)⟩
      refine KeepsScope.trans ?_ (concatHeads_keepsScope _ _)
      refine .of_over (by simp) rfl ?_
      simpa [parts] using
        ⟨(half l (by simp [parts])).trans (ih l (by simp [parts])),
          (half r (by simp [parts])).trans (ih r (by simp [parts]))⟩
    | map d' e' g base =>
      intro S h
      have hinner := hrow S h
      have hcompose := Over.compose (d := d') (hf S h) (hinner.part (p := g) (by simp [parts]))
      have hbase : base.Over S := hinner.part (by simp [parts])
      exact .node (by simp [mapRow]) (by simpa [mapRow, parts, binders] using ⟨hcompose, hbase⟩)
    | _ => exact .refl _

theorem mapHead_keepsScope (d e : Kind) (f row : Con) :
    KeepsScope (.map d e f row) (mapHead d e f row) := by
  unfold mapHead
  split
  · exact .error _
  · split
    · exact .part (by simp [parts]) rfl
    · exact mapRow_keepsScope d e f row

/-! ## References to modules -/

/-- The specification of a pass that adds no variable. -/
private def scoping (S : Nat → Prop) : PassSpec Unit where
  Pre _ d c := c.OverAt S d
  KindPre _ _ _ := True
  Enters _ _ _ := True
  Post _ d _ c' := c'.OverAt S d
  KindPost _ _ _ _ := True

theorem Over.rebuild {node : Depth → Con → Option Con} (hc : c.Over S)
    (hnode : ∀ d c c', c.OverAt S d → node d c = some c' → c'.OverAt S d) :
    (c.rebuild node).Over S := by
  have hpass : Pass (m := Id) (.indifferent Unit) (scoping S) (fun d c => pure (node d c))
      (fun _ k => pure k) :=
    { pre_grows := fun _ _ h => h
      kindPre_grows := fun _ _ h => h
      enters_grows := fun _ _ h => h
      post_grows := fun _ _ h => h
      kindPost_grows := fun _ _ h => h
      pre_part := fun h hp => h.part hp
      pre_kind := fun _ _ => trivial
      node_yields := by
        intro s d c _ hc
        refine Yields.pure trivial ?_
        cases hsome : node d c with
        | some c' => exact hnode d c c' hc hsome
        | none => trivial
      kind_yields := fun _ _ => Yields.pure trivial trivial
      close := fun _ pre _ related => pre.of_frame related.frame
        (forall_mem_of_forall₂ related.parts fun _ _ _ hp => hp) }
  have h := hpass.rebuildM_yields c (s := ()) (d := Depth.zero) trivial hc
  exact (h _ _ rfl).2.2 _ rfl

theorem Over.substModules (hc : c.Over S) (first : Nat) (refs : List ModuleRef) :
    (c.substModules first refs).Over S := by
  unfold Con.substModules
  split
  · exact hc
  · refine hc.rebuild fun d c c' hc h => ?_
    split at h
    · cases h
      exact hc
    · split at h
      · split at h
        · cases h
          exact hc
        · split at h <;> cases h <;> exact .node (by simp) (by simp [parts])
      · cases h

end Con

/-! ## Reduction -/

open RowML.Con

/-- The constructors of the table have no free variables. -/
def Globals.Closed (globals : Globals) : Prop := ∀ c ∈ globals.cons, c.bound = 0

section Reduction

variable {globals : Globals} {store : Store}

theorem Globals.Closed.keepsScope (h : globals.Closed) {c r : Con}
    (hr : (∀ S, ∀ c ∈ globals.cons, c.Over S) → ∀ S, r.Over S) : KeepsScope c r :=
  fun S _ => hr (fun _ c hc => over_of_closed (h c hc)) S

theorem resolve_keepsScope {c : Con} (ok : store.Steady) (hc : c.Fits store) :
    Yields Store.compression store (Store.resolve c) fun r _ => KeepsScope c r := by
  have chased := Store.chased_resolveWithin store.cells.size ok hc
  have hscope : KeepsScope c ((Store.resolveWithin store.cells.size c).run store).1 := by
    rcases chased.answer with h | ⟨before, compresses, same, hread⟩
    · exact h.symm ▸ .refl c
    · cases hread with
      | @intro i spine solution _ hi hr =>
        have steady : before.Steady :=
          (Store.SameCells.mk same.cells.symm same.trail.symm same.snapshots.symm).steady chased.ok
        have hspine := hc.top i spine rfl
        have hbound : solution.bound ≤ spine.length := by
          rw [hspine.2, ← compresses.arity i hspine.1]
          exact steady.bounds hi
        rw [← hr]
        exact (instantiated_keepsScope hbound).trans (.of_alike (instantiate_resembles _ _ _))
  exact Yields.of_exec rfl chased.ok chased.compresses hscope

/-- A reduction whose answers have no variables of their own. -/
def Scoping (globals : Globals) (reduce : Con → FuelM Con) : Prop :=
  ∀ {store c}, Store.Steady store → globals.Fits store → c.Fits store →
    Yields Store.compression store (reduce c) fun r store' => r.Fits store' ∧ KeepsScope c r

/-- Goes on with the reduction of a constructor in the scope of `c`. -/
private theorem Scoping.next {reduce : Con → FuelM Con} (H : Scoping globals reduce) {c c' : Con}
    (ok : store.Steady) (hg : globals.Fits store) (hc' : c'.Fits store) (h : KeepsScope c c') :
    Yields Store.compression store (reduce c') fun r _ => KeepsScope c r :=
  (H ok hg hc').mono fun _ _ _ _ hr => h.trans hr.2

theorem findField_scope {reduce : Con → FuelM Con} (H : Scoping globals reduce) (field : Con)
    (fuel : Nat) {row : Con} (ok : store.Steady) (hg : globals.Fits store)
    (hrow : row.Fits store) :
    Yields Store.compression store (findField reduce field fuel row) fun found _ =>
      ∀ value, found = some value → KeepsScope row value := by
  induction fuel generalizing row store with
  | zero => exact Yields.of_none rfl
  | succ fuel ih =>
    cases row with
    | row k fields =>
      refine Yields.pure ok fun value hvalue => ?_
      obtain ⟨entry, hentry, rfl⟩ := Option.map_eq_some_iff.mp hvalue
      refine .part (List.mem_flatMap.mpr ⟨entry, List.mem_of_find?_eq_some hentry, by simp⟩) rfl
    | concat l r =>
      refine Yields.bind ok (H ok hg (hrow.part (by simp [parts]))) ?_
      rintro l' store₁ ok₁ compresses₁ ⟨hl', hscope⟩
      have hg₁ := hg.evolves compresses₁.toEvolves
      have hl : KeepsScope (.concat l r) l' := (KeepsScope.part (by simp [parts]) rfl).trans hscope
      refine Yields.bind ok₁ (ih ok₁ hg₁ hl') fun found store₂ ok₂ compresses₂ hfound => ?_
      cases found with
      | some value => exact Yields.pure ok₂ fun value hvalue => hl.trans (hfound value hvalue)
      | none =>
        have hr : r.Fits store₂ :=
          (hrow.part (by simp [parts])).evolves (compresses₁.trans compresses₂).toEvolves
        have hg₂ := hg₁.evolves compresses₂.toEvolves
        refine Yields.bind ok₂ (H ok₂ hg₂ hr) ?_
        rintro r' store₃ ok₃ compresses₃ ⟨hr', hscope'⟩
        refine (ih ok₃ (hg₂.evolves compresses₃.toEvolves) hr').mono ?_
        exact fun found _ _ _ hfound value hvalue =>
          (KeepsScope.part (by simp [parts]) rfl).trans (hscope'.trans (hfound value hvalue))
    | _ => exact Yields.pure ok (by simp)

theorem headNormal_scope (hclosed : globals.Closed) (fuel : Nat) :
    Scoping globals (headNormal globals fuel) := by
  induction fuel with
  | zero => exact fun _ _ _ => Yields.of_none rfl
  | succ fuel ih =>
    intro store c ok hg hc
    suffices h : Yields Store.compression store (headNormal globals (fuel + 1) c)
        fun r _ => KeepsScope c r from
      ((headNormal_keeps (fuel + 1) ok hg hc).and h)
    unfold headNormal
    refine Yields.bind ok (.of_exec_eq rfl ((Store.resolve_keeps ok hc).and
      (resolve_keepsScope ok hc))) ?_
    rintro c₁ store₁ ok₁ compresses₁ ⟨headed, hscope₁⟩
    have hg₁ := hg.evolves compresses₁.toEvolves
    have hc₁ := headed.fits
    -- it remains to reduce `c₁`
    suffices h : Yields Store.compression store₁ _ fun r _ => KeepsScope c₁ r from
      h.mono fun r _ _ _ hr => hscope₁.trans hr
    cases c₁ with
    | global id =>
      have hbody : ∀ {kind : Kind} {body : Con},
          globals.definition? id = some (.con kind body) ∨
            globals.definition? id = some (.class kind (some body)) →
          body.Fits store₁ ∧ KeepsScope (.global id) body := fun hbody =>
        ⟨Globals.definition_holds hg₁ hbody,
          hclosed.keepsScope fun h S => Globals.definition_holds (h S) hbody⟩
      simp only
      split
      next h => exact ih.next ok₁ hg₁ (hbody (.inl h)).1 (hbody (.inl h)).2
      next h => exact ih.next ok₁ hg₁ (hbody (.inr h)).1 (hbody (.inr h)).2
      next => exact Yields.pure ok₁ (.refl _)
    | member module path item =>
      have hbody : ∀ {kind : Kind} {body : Con},
          globals.moduleItem? (globals.canonical ⟨module, path⟩) item .con =
              some (.con kind (some body)) ∨
            globals.moduleItem? (globals.canonical ⟨module, path⟩) item .con =
              some (.class kind (some body)) →
          body.Fits store₁ ∧ KeepsScope (.member module path item) body := fun hbody =>
        ⟨hg₁.item hbody,
          hclosed.keepsScope fun h S => Globals.moduleItem_holds
            (fun _ first refs hc => hc.substModules first refs) (.node (by simp) (by simp [parts]))
            (h S) hbody⟩
      simp only
      split
      next h => exact ih.next ok₁ hg₁ (hbody (.inl h)).1 (hbody (.inl h)).2
      next h => exact ih.next ok₁ hg₁ (hbody (.inr h)).1 (hbody (.inr h)).2
      next => exact Yields.pure ok₁ (.of_over (by simp) rfl (by simp [parts]))
    | app f argument =>
      refine Yields.bind ok₁ (ih ok₁ hg₁ (hc₁.part (by simp [parts]))) ?_
      rintro f' store₂ ok₂ compresses₂ ⟨hf', hf⟩
      have hg₂ := hg₁.evolves compresses₂.toEvolves
      have happ : KeepsScope (.app f argument) (.app f' argument) :=
        .of_parts rfl (.cons hf (.cons (.refl _) .nil))
      split
      next x k body =>
        have hargument : argument.Fits store₂ :=
          (hc₁.part (by simp [parts])).evolves compresses₂.toEvolves
        have hbody : (body.instantiated [argument]).Fits store₂ :=
          (hf'.part (by simp [parts])).instantiated (by simpa using hargument)
        refine Yields.bind ok₂ (.of_exec_eq rfl (Store.onKinds_keeps _ ok₂)) ?_
        rintro _ store₃ ok₃ compresses₃ ⟨same, rfl⟩
        have halike := subst_resembles body argument store₂.kinds
        exact ih.next ok₃ (hg₂.evolves compresses₃.toEvolves)
          ((hbody.of_alike halike).evolves same.evolves)
          (happ.trans ((beta_keepsScope x k body argument).trans (.of_alike halike)))
      next => exact Yields.pure ok₂ (.error _)
      next => exact Yields.pure ok₂ happ
    | kapp f argument =>
      refine Yields.bind ok₁ (ih ok₁ hg₁ (hc₁.part (by simp [parts]))) ?_
      rintro f' store₂ ok₂ compresses₂ ⟨hf', hf⟩
      have hg₂ := hg₁.evolves compresses₂.toEvolves
      have hkapp : KeepsScope (.kapp f argument) (.kapp f' argument) :=
        .of_parts rfl (.cons hf .nil)
      split
      next x body =>
        have hbody : body.Fits store₂ := hf'.part (by simp [parts])
        refine Yields.bind ok₂ (.of_exec_eq rfl (Store.onKinds_keeps _ ok₂)) ?_
        rintro _ store₃ ok₃ compresses₃ ⟨same, rfl⟩
        have halike := substKind_resembles body argument store₂.kinds
        exact ih.next ok₃ (hg₂.evolves compresses₃.toEvolves)
          ((hbody.of_alike halike).evolves same.evolves)
          (hkapp.trans ((kindBeta_keepsScope x body argument).trans (.of_alike halike)))
      next => exact Yields.pure ok₂ (.error _)
      next => exact Yields.pure ok₂ hkapp
    | concat l r =>
      refine Yields.bind ok₁ (ih ok₁ hg₁ (hc₁.part (by simp [parts]))) ?_
      rintro l' store₂ ok₂ compresses₂ ⟨-, hl⟩
      refine Yields.bind ok₂ (ih ok₂ (hg₁.evolves compresses₂.toEvolves)
        ((hc₁.part (by simp [parts])).evolves compresses₂.toEvolves)) ?_
      rintro r' store₃ ok₃ - ⟨-, hr⟩
      exact Yields.pure ok₃ ((concat_keepsScope hl hr).trans (concatHeads_keepsScope l' r'))
    | map d e f row =>
      refine Yields.bind ok₁ (ih ok₁ hg₁ (hc₁.part (by simp [parts]))) ?_
      rintro f' store₂ ok₂ compresses₂ ⟨-, hf⟩
      refine Yields.bind ok₂ (ih ok₂ (hg₁.evolves compresses₂.toEvolves)
        ((hc₁.part (by simp [parts])).evolves compresses₂.toEvolves)) ?_
      rintro row' store₃ ok₃ - ⟨-, hrow⟩
      have hmap : KeepsScope (.map d e f row) (.map d e f' row') :=
        .of_parts rfl (.cons hf (.cons hrow .nil))
      exact Yields.pure ok₃ (hmap.trans (mapHead_keepsScope d e f' row'))
    | proj row field =>
      refine Yields.bind ok₁ (ih ok₁ hg₁ (hc₁.part (by simp [parts]))) ?_
      rintro row' store₂ ok₂ compresses₂ ⟨hrow', hrow⟩
      have hg₂ := hg₁.evolves compresses₂.toEvolves
      refine Yields.bind ok₂ (ih ok₂ hg₂
        ((hc₁.part (by simp [parts])).evolves compresses₂.toEvolves)) ?_
      rintro field' store₃ ok₃ compresses₃ ⟨hfield', hfield⟩
      have hg₃ := hg₂.evolves compresses₃.toEvolves
      have hrow' := hrow'.evolves compresses₃.toEvolves
      have hproj : KeepsScope (.proj row field) (.proj row' field') :=
        .of_parts rfl (.cons hrow (.cons hfield .nil))
      have hpart : ∀ {p}, KeepsScope row' p → KeepsScope (.proj row field) p := fun hp =>
        hproj.trans ((KeepsScope.part (by simp [parts]) rfl).trans hp)
      split
      next => exact Yields.pure ok₃ (.error _)
      next =>
      have hkeeps := findField_keeps (headNormal_keeps fuel) field' fuel ok₃ hg₃ hrow'
      refine Yields.bind ok₃ (hkeeps.and (findField_scope ih field' fuel ok₃ hg₃ hrow')) ?_
      rintro found store₄ ok₄ compresses₄ ⟨hfits, hfound⟩
      have hg₄ := hg₃.evolves compresses₄.toEvolves
      split
      next value => exact ih.next ok₄ hg₄ (hfits value rfl) (hpart (hfound value rfl))
      next =>
        split
        next function base _ _ =>
          have hrow₄ := hrow'.evolves compresses₄.toEvolves
          have hfield₄ := hfield'.evolves compresses₄.toEvolves
          have hbase : base.Fits store₄ := hrow₄.part (by simp [parts])
          have hinner : (Con.proj base field').Fits store₄ :=
            .node (by simp) (by simp [parts, hbase, hfield₄])
          refine ih.next ok₄ hg₄ (.app (hrow₄.part (by simp [parts])) hinner) ?_
          have hinner : KeepsScope (.proj row field) (.proj base field') := by
            refine .of_over (by simp) rfl ?_
            simpa [parts] using ⟨hpart (.part (by simp [parts]) rfl),
              hproj.trans (.part (by simp [parts]) rfl)⟩
          refine .of_over (by simp) rfl ?_
          simpa [parts] using ⟨hpart (.part (by simp [parts]) rfl), hinner⟩
        next => exact Yields.pure ok₄ hproj
    | component tuple index =>
      refine Yields.bind ok₁ (ih ok₁ hg₁ (hc₁.part (by simp [parts]))) ?_
      rintro tuple' store₂ ok₂ compresses₂ ⟨htuple', htuple⟩
      have hg₂ := hg₁.evolves compresses₂.toEvolves
      have hcomponent : KeepsScope (.component tuple index) (.component tuple' index) :=
        .of_parts rfl (.cons htuple .nil)
      split
      next components =>
        split
        next c hget =>
          have hmem : c ∈ (Con.tuple components).parts := List.mem_of_getElem? hget
          exact ih.next ok₂ hg₂ (htuple'.part hmem)
            (hcomponent.trans ((KeepsScope.part (by simp [parts]) rfl).trans (.part hmem rfl)))
        next => exact Yields.pure ok₂ (.error _)
      next => exact Yields.pure ok₂ (.error _)
      next => exact Yields.pure ok₂ hcomponent
    | _ => exact Yields.pure ok₁ (.refl _)

private theorem zonkKind_keeps (ok : store.Steady) (k : Kind) :
    Yields Store.compression store (liftM (onKinds (KindStore.zonk k)) : FuelM Kind)
      fun _ _ => True :=
  (Yields.of_exec_eq rfl (Store.onKinds_keeps (KindStore.zonk k) ok)).mono fun _ _ _ _ _ => trivial

/-- Normalization brings in no variable. -/
theorem normalize_scope (hclosed : globals.Closed) (fuel : Nat) :
    Scoping globals (normalize globals fuel) := by
  induction fuel with
  | zero => exact fun _ _ _ => Yields.of_none rfl
  | succ fuel ih =>
    intro store c ok hg hc
    unfold normalize
    refine Yields.bind ok (headNormal_scope hclosed fuel ok hg hc) ?_
    rintro head store₁ ok₁ compresses₁ ⟨hfits, hscope⟩
    have hg₁ := hg.evolves compresses₁.toEvolves
    have hchildren := mapChildrenM_yields (f := normalize globals fuel) (c := head) ok₁
      (K := fun _ _ _ => True) (Q := fun p p' s => p'.Fits s ∧ KeepsScope p p')
      (fun _ _ h => h) (fun _ compresses h => ⟨h.1.evolves compresses.toEvolves, h.2⟩)
      (fun k _ s ok' _ => zonkKind_keeps ok' k)
      fun p hp s ok' compresses => ih ok' (hg₁.evolves compresses.toEvolves)
        ((hfits.part hp).evolves compresses.toEvolves)
    refine Yields.bind ok₁ hchildren ?_
    intro rebuilt store₂ ok₂ compresses₂ parallel
    have hfits₂ := hfits.evolves compresses₂.toEvolves
    split
    next => exact Yields.pure ok₂ ⟨hfits₂, hscope⟩
    next =>
      have hrebuilt : rebuilt.Fits store₂ := .of_parallel hfits₂.top
        ⟨parallel.frame, parallel.annotations, parallel.parts.imp fun _ _ h => h.1⟩
      have hscope' : KeepsScope c rebuilt := hscope.trans
        (.of_parts parallel.frame (parallel.parts.imp fun _ _ h => h.2))
      exact (ih ok₂ (hg₁.evolves compresses₂.toEvolves) hrebuilt).mono
        fun _ _ _ _ h => ⟨h.1, hscope'.trans h.2⟩

end Reduction

end RowML
