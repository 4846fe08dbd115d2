import RowML.Proofs.Store.Substitution
import RowML.Unify.Rename

/-!
# Renaming inverts instantiation

A solution found by renaming reads, at an occurrence whose spine consists of the variables that were
renamed, as the constructor it was made from.  It looks at no other variables and does not mention
the metavariable that it is for.
-/

namespace RowML

namespace Con

/-- A spine of variables. -/
def varSpine (vars : List Nat) : List Con := vars.map .bvar

@[simp] theorem length_varSpine (vars : List Nat) : (varSpine vars).length = vars.length :=
  List.length_map _

theorem spineVar_varSpine (vars : List Nat) (d : Depth) (i : Nat) :
    ∃ j, spineVar (varSpine vars) d i = .bvar j := by
  unfold spineVar
  split
  · exact ⟨i, rfl⟩
  · split
    next argument hget =>
      have hmem := List.mem_reverse.mp (List.mem_of_getElem? hget)
      obtain ⟨v, -, rfl⟩ := List.mem_map.mp hmem
      exact ⟨_, rfl⟩
    next => exact ⟨_, rfl⟩

/-- The renamed variable stands for the variable itself. -/
theorem spineVar_renamed {vars : List Nat} {d : Depth} {i p : Nat} (hi : d.con ≤ i)
    (hp : vars.idxOf? (i - d.con) = some p) :
    spineVar (varSpine vars) d (d.con + vars.length - 1 - p) = .bvar i := by
  obtain ⟨hlt, hget⟩ : ∃ h : p < vars.length, vars[p] = i - d.con := by
    rw [List.idxOf?, List.findIdx?_eq_some_iff_getElem] at hp
    obtain ⟨hlt, hget, -⟩ := hp
    exact ⟨hlt, by simpa using hget⟩
  have hindex : d.con + vars.length - 1 - p - d.con = vars.length - 1 - p := by omega
  have harg : (varSpine vars).reverse[d.con + vars.length - 1 - p - d.con]? =
      some (.bvar (i - d.con)) := by
    rw [hindex, List.getElem?_reverse (by rw [length_varSpine]; omega), length_varSpine]
    have : vars.length - 1 - (vars.length - 1 - p) = p := by omega
    rw [this, varSpine, List.getElem?_map, List.getElem?_eq_getElem hlt, hget]
    rfl
  rw [spineVar_of_some (by omega) harg]
  simp only [weakened, traverse_bvar, weakenVar, Depth.zero_con, Nat.not_lt_zero, if_false]
  congr 1
  omega

/-! ## What renaming establishes -/

/-- The constructor `c` under `depth`, renamed for `target`. -/
structure Renamed (target : MetaId) (vars : List Nat) (depth : Depth) (c c' : Con) : Prop where
  instantiates : c'.instantiatedAt (varSpine vars) depth = c
  bound : c'.bound ≤ vars.length + depth.con
  avoids : ¬ c'.Mentions target

/-- Renaming never forgets that it has failed. -/
def renameDiscipline : Discipline RenameState where
  Ok _ := True
  Grows state state' := state'.outcome = .renamed → state.outcome = .renamed
  refl _ _ h := h
  trans _ _ _ h h' hrenamed := h (h' hrenamed)

/-- The specification of renaming, node by node. -/
def renameSpec (target : MetaId) (vars : List Nat) : PassSpec RenameState where
  Pre _ _ _ := True
  KindPre _ _ _ := True
  Enters _ depth c := (∀ i, c = .bvar i → i < depth.con) ∧ ∀ v spine, c ≠ .mvar v spine
  Post state depth c c' := state.outcome = .renamed → Renamed target vars depth c c'
  KindPost _ _ k k' := k = k'

section Renamed

variable {target : MetaId} {vars : List Nat} {depth : Depth} {c c' : Con}

theorem Renamed.of_bound (hbound : c.bound ≤ depth.con) (hmvar : c.has .mvar = false) :
    Renamed target vars depth c c :=
  ⟨instantiatedAt_of_bound hbound, by omega, not_mentions_of_has hmvar⟩

theorem Renamed.bvar {i p : Nat} (hi : depth.con ≤ i)
    (hp : vars.idxOf? (i - depth.con) = some p) :
    Renamed target vars depth (.bvar i) (.bvar (depth.con + vars.length - 1 - p)) := by
  refine ⟨spineVar_renamed hi hp, ?_, ?_⟩
  · rw [bound_bvar]
    have : p < vars.length := by
      rw [List.idxOf?, List.findIdx?_eq_some_iff_getElem] at hp
      exact hp.1
    omega
  · rintro (_ | ⟨hp, _⟩)
    cases hp

/-- A node is renamed by renaming its parts. -/
theorem Renamed.node (hframe : c.frame = c'.frame) (hkinds : c.annotations = c'.annotations)
    (hbvar : ∀ i, c ≠ .bvar i) (htarget : ∀ spine, c ≠ .mvar target spine)
    (hparts : List.Forall₂ (Renamed target vars (depth + c.binders)) c.parts c'.parts) :
    Renamed target vars depth c c' := by
  have hbvar' := ne_bvar_of_frame hframe.symm hbvar
  refine ⟨eq_of_frame ?_ ?_ ?_, ?_, ?_⟩
  · rw [instantiatedAt, frame_traverse hbvar', hframe]
  · rw [instantiatedAt, annotations_traverse hbvar', List.map_id', hkinds]
  · rw [instantiatedAt, parts_traverse hbvar', ← binders_eq hframe]
    exact map_eq_of_forall₂ (List.Forall₂.flip (hparts.imp fun _ _ hp => hp.instantiates))
  · rw [bound_le_iff_parts]
    refine ⟨fun i hi => absurd hi (hbvar' i), ?_⟩
    refine forall_mem_of_forall₂ hparts fun p _ p' hp => ?_
    rw [← binders_eq hframe]
    have := hp.bound
    rw [Depth.add_con] at this
    omega
  · intro hmentions
    rcases mentions_iff.mp hmentions with ⟨spine, rfl⟩ | ⟨p, hp, hmentions⟩
    · exact htarget _ (eq_mvar_of_frame hframe.symm)
    · exact forall_mem_of_forall₂ (Q := fun p => ¬ p.Mentions target) hparts
        (fun _ _ _ hp => hp.avoids) p hp hmentions

end Renamed

/-- A failure to rename, whatever is answered. -/
private theorem set_failed {target : MetaId} {vars : List Nat} {state state' : RenameState}
    {depth : Depth} {c c' : Con} (h : state'.outcome ≠ .renamed) :
    Yields renameDiscipline state (do set state'; pure (some c') : RenameM (Option Con))
      ((renameSpec target vars).Hook depth c) := by
  have hrun : exec (do set state'; pure (some c') : RenameM (Option Con)) state =
      some (some (some c'), state') := rfl
  exact Yields.of_exec hrun trivial (fun h' => absurd h' h) fun h' => absurd h' h

theorem renameAt_yields (target : MetaId) (vars : List Nat) (fuel : Nat) (foreign : Bool)
    (depth : Depth) (c : Con) (state : RenameState) :
    Yields renameDiscipline state (c.renameAt target vars fuel foreign depth) fun c' state' =>
      state'.outcome = .renamed → Renamed target vars depth c c' := by
  induction fuel generalizing foreign depth c state with
  | zero => exact Yields.of_none rfl
  | succ fuel ih =>
    refine Pass.rebuildM_yields (S := renameSpec target vars) ?_ c trivial trivial
    exact
    { pre_grows := fun _ _ h => h
      kindPre_grows := fun _ _ h => h
      enters_grows := fun _ _ h => h
      post_grows := fun _ grows h hrenamed => h (grows hrenamed)
      kindPost_grows := fun _ _ h => h
      pre_part := fun _ _ => trivial
      pre_kind := fun _ _ => trivial
      node_yields := by
        rintro state depth c - -
        refine Yields.read (rfl : exec get state = some (some state, state)) trivial ?_
        split
        next hsettled =>
          refine Yields.pure trivial fun hrenamed => ?_
          simp [RenameState.isSettled, hrenamed] at hsettled
        next =>
        split
        next h => exact Yields.pure trivial fun _ => .of_bound h.1 (by simpa using h.2)
        next hbound =>
        clear hbound
        split
        next i =>
          split
          next hi => exact Yields.pure trivial ⟨fun j hj => by cases hj; exact hi, by simp⟩
          next hi =>
            split
            next p hp => exact Yields.pure trivial fun _ => .bvar (by omega) hp
            next =>
              refine set_failed ?_
              cases foreign <;> simp
        next v arguments =>
          split
          next => exact set_failed (by simp)
          next hne =>
            have harguments : Yields renameDiscipline state
                (arguments.mapM (renameAt target vars fuel true depth)) fun arguments' state' =>
                  List.Forall₂ (fun c c' => state'.outcome = .renamed →
                    Renamed target vars depth c c') arguments arguments' :=
              Yields.mapM trivial (fun _ grows h hrenamed => h (grows hrenamed))
                fun c _ state' _ _ => ih true depth c state'
            refine Yields.bind trivial harguments fun arguments' after _ _ h => ?_
            have hnode : after.outcome = .renamed →
                Renamed target vars depth (.mvar v arguments) (.mvar v arguments') := by
              intro hrenamed
              refine .node (by simp [frame, h.length_eq]) rfl (by simp) ?_ ?_
              · rintro spine ⟨⟩
                exact hne rfl
              · exact h.imp fun _ _ hc => hc hrenamed
            refine Yields.read (rfl : exec get after = some (some after, after)) trivial ?_
            split
            · exact Yields.of_exec rfl trivial (fun h => h) hnode
            · exact Yields.pure trivial hnode
        next hbvar hmvar =>
          exact Yields.pure trivial ⟨fun i hi => absurd hi (hbvar i), hmvar⟩
      kind_yields := fun _ _ => Yields.pure trivial rfl
      close := by
        intro state depth c c' _ _ henters related hrenamed
        by_cases hbvar : ∃ i, c = .bvar i
        · obtain ⟨i, rfl⟩ := hbvar
          rw [← eq_of_frame_leaf related.frame rfl rfl]
          have hbound : (Con.bvar i).bound ≤ depth.con := by
            rw [bound_bvar]
            exact henters.1 i rfl
          exact .of_bound hbound rfl
        · refine .node related.frame (List.forall₂_eq_eq_eq ▸ related.annotations)
            (fun i hi => hbvar ⟨i, hi⟩) (henters.2 target) ?_
          exact related.parts.imp fun _ _ hp => hp hrenamed }

/-- What a successful renaming answers. -/
theorem renamed_of_renameFor {target : MetaId} {vars : List Nat} {fuel : Nat} {c c' : Con}
    {state : RenameState} (h : c.renameFor target vars fuel = some (c', state))
    (hrenamed : state.outcome = .renamed) : Renamed target vars Depth.zero c c' := by
  have hexec : exec (c.renameAt target vars fuel false Depth.zero) RenameState.start =
      some (some c', state) := by
    change Option.map _ (c.renameFor target vars fuel) = _
    rw [h]
    rfl
  have hyields := renameAt_yields target vars fuel false Depth.zero c RenameState.start
  exact (hyields _ _ hexec).2.2 c' rfl hrenamed

/-! ## Renamed constructors are sound -/

/-- If variables are put for the variables of a constructor and the result is sound, so is the
constructor. -/
theorem Sound.of_instantiatedAt {layout : Layout} {store : Store} {vars : List Nat} {c : Con}
    {d : Depth} (h : (c.instantiatedAt (varSpine vars) d).Sound layout store) :
    c.Sound layout store := by
  induction c using inductionOnParts generalizing d with
  | step c ih =>
    by_cases hbvar : ∃ i, c = .bvar i
    · obtain ⟨i, rfl⟩ := hbvar
      exact bvar_sound i
    · have hbvar : ∀ i, c ≠ .bvar i := fun i hi => hbvar ⟨i, hi⟩
      have hframe : (c.instantiatedAt (varSpine vars) d).frame = c.frame := frame_traverse hbvar
      have hparts : (c.instantiatedAt (varSpine vars) d).parts =
          c.parts.map (instantiatedAt (varSpine vars) (d + c.binders)) := parts_traverse hbvar
      refine .intro (h.top.of_frame hframe ?_ ?_) fun p hp => ?_
      · intro k hk
        refine h.kind ?_
        rwa [instantiatedAt, annotations_traverse hbvar, List.map_id']
      · rw [hparts, List.forall₂_map_left_iff]
        refine List.forall₂_same.mpr fun p _ x hx => ?_
        by_cases hp : ∃ i, p = .bvar i
        · obtain ⟨i, rfl⟩ := hp
          obtain ⟨j, hj⟩ := spineVar_varSpine vars (d + c.binders) i
          cases hj.symm.trans hx
        · have hp : ∀ i, p ≠ .bvar i := fun i hi => hp ⟨i, hi⟩
          have hlabel : (p.instantiatedAt (varSpine vars) (d + c.binders)).frame = p.frame :=
            frame_traverse hp
          rw [hx] at hlabel
          exact (eq_of_frame_leaf hlabel rfl rfl).symm
      · have hmem : p.instantiatedAt (varSpine vars) (d + c.binders) ∈
            (c.instantiatedAt (varSpine vars) d).parts := by
          rw [hparts]
          exact List.mem_map_of_mem hp
        exact ih p hp (h.part hmem)

end Con

end RowML
