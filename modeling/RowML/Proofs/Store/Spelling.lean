import RowML.Proofs.Constructor.Uniform
import RowML.Proofs.Store.KindCommutation

/-!
# What a constructor says once it is spelled out

Zonking puts for every solved metavariable its solution, spelled out in turn, with the spine of the
occurrence for its variables.  This is a function of the constructor, which goes along with shifting
and with putting constructors for variables, and no reading of solutions changes it.
-/

namespace RowML

/-- A kind that is shifted before or after it is spelled out. -/
theorem KindStore.Acyclic.expand_shift {ks : KindStore} (acyclic : ks.Acyclic) (hclosed : ks.Closed)
    (k : Kind) (amount cutoff : Nat) :
    ks.expand (k.shift amount cutoff) = (ks.expand k).shift amount cutoff := by
  unfold Kind.shift
  generalize 0 = d
  induction k using Kind.inductionOnParts generalizing d with
  | step k ih =>
    cases k with
    | mvar v =>
      refine (Kind.mapVars_of_closed (acyclic.spelled_closed hclosed v) d fun e i hi => ?_).symm
      rw [Kind.shiftVar, if_neg (by omega)]
    | bvar i => simp [Kind.mapVars, Kind.shiftVar]
    | type | unit | name | error => rfl
    | arrow a b =>
      simp [Kind.mapVars, ih a (by simp [Kind.parts]), ih b (by simp [Kind.parts])]
    | record a => simp [Kind.mapVars, ih a (by simp [Kind.parts])]
    | tuple ks =>
      simp only [Kind.mapVars, Kind.mapVarsList_eq, expand_tuple, List.map_map, Kind.tuple.injEq]
      exact List.map_congr_left fun k hk => ih k hk d
    | poly x body => simp [Kind.mapVars, ih body (by simp [Kind.parts])]

namespace Con

variable {ks : KindStore} {θ θ' : MetaId → Option Con} {c p : Con} {v : MetaId} {spine : List Con}

mutual
/-- The constructor with the annotations spelled out, and what `θ` gives for the metavariables. -/
def spell (ks : KindStore) (θ : MetaId → Option Con) : Con → Con
  | .mvar v spine =>
    match θ v with
    | some solution => solution.instantiated (spellList ks θ spine)
    | none => .mvar v (spellList ks θ spine)
  | .app f a => .app (f.spell ks θ) (a.spell ks θ)
  | .abs x k body => .abs x (ks.expand k) (body.spell ks θ)
  | .kabs x body => .kabs x (body.spell ks θ)
  | .kapp f k => .kapp (f.spell ks θ) (ks.expand k)
  | .arrow a b => .arrow (a.spell ks θ) (b.spell ks θ)
  | .poly x implicit k body => .poly x implicit (ks.expand k) (body.spell ks θ)
  | .kpoly x body => .kpoly x (body.spell ks θ)
  | .disjoint l r body => .disjoint (l.spell ks θ) (r.spell ks θ) (body.spell ks θ)
  | .record r => .record (r.spell ks θ)
  | .variant r => .variant (r.spell ks θ)
  | .row k fields => .row (ks.expand k) (spellFields ks θ fields)
  | .concat l r => .concat (l.spell ks θ) (r.spell ks θ)
  | .map d e f r => .map (ks.expand d) (ks.expand e) (f.spell ks θ) (r.spell ks θ)
  | .proj r f => .proj (r.spell ks θ) (f.spell ks θ)
  | .tuple cs => .tuple (spellList ks θ cs)
  | .component t i => .component (t.spell ks θ) i
  | c => c
def spellList (ks : KindStore) (θ : MetaId → Option Con) : List Con → List Con
  | [] => []
  | c :: cs => c.spell ks θ :: spellList ks θ cs
def spellFields (ks : KindStore) (θ : MetaId → Option Con) : List (Con × Con) → List (Con × Con)
  | [] => []
  | (name, value) :: fields => (name.spell ks θ, value.spell ks θ) :: spellFields ks θ fields
end

@[simp] theorem spellList_eq (cs : List Con) : spellList ks θ cs = cs.map (spell ks θ) := by
  induction cs with
  | nil => rfl
  | cons c cs ih => rw [spellList, ih, List.map_cons]

@[simp] theorem spellFields_eq (fields : List (Con × Con)) :
    spellFields ks θ fields =
      fields.map fun field => (field.1.spell ks θ, field.2.spell ks θ) := by
  induction fields with
  | nil => rfl
  | cons field fields ih => rw [spellFields, ih, List.map_cons]

@[simp] theorem spell_bvar (i : Nat) : spell ks θ (.bvar i) = .bvar i := rfl

theorem spell_solved {solution : Con} (h : θ v = some solution) :
    spell ks θ (.mvar v spine) = solution.instantiated (spine.map (spell ks θ)) := by
  rw [spell, h, spellList_eq]

theorem spell_unsolved (h : θ v = none) :
    spell ks θ (.mvar v spine) = .mvar v (spine.map (spell ks θ)) := by
  rw [spell, h, spellList_eq]

/-- The outermost node is no metavariable that stands for something. -/
def Stays (θ : MetaId → Option Con) (c : Con) : Prop := ∀ v spine, c = .mvar v spine → θ v = none

theorem frame_spell (h : c.Stays θ) : (c.spell ks θ).frame = c.frame := by
  cases c with
  | mvar v spine => simp [spell_unsolved (h v spine rfl), frame, Function.comp_def]
  | tuple | row => simp [spell, frame, Function.comp_def]
  | _ => rfl

theorem annotations_spell (h : c.Stays θ) :
    (c.spell ks θ).annotations = c.annotations.map ks.expand := by
  cases c with
  | mvar v spine => rw [spell_unsolved (h v spine rfl)]; rfl
  | _ => rfl

theorem parts_spell (h : c.Stays θ) : (c.spell ks θ).parts = c.parts.map (spell ks θ) := by
  cases c with
  | mvar v spine => rw [spell_unsolved (h v spine rfl)]; rfl
  | tuple cs => exact spellList_eq cs
  | row k fields => simp [spell, parts, List.flatMap_map, List.map_flatMap]
  | _ => rfl

/-- A node is a metavariable that stands for something, or its outermost node stays. -/
theorem solved_or_stays (θ : MetaId → Option Con) (c : Con) :
    (∃ v spine solution, c = .mvar v spine ∧ θ v = some solution) ∨ c.Stays θ := by
  by_cases h : c.Stays θ
  · exact .inr h
  · left
    simp only [Stays, not_forall] at h
    obtain ⟨v, spine, hc, hv⟩ := h
    obtain ⟨solution, hsolution⟩ := Option.ne_none_iff_exists'.mp hv
    exact ⟨v, spine, solution, hc, hsolution⟩

theorem Stays.traverse {vars : Depth → Nat → Con} {kinds : Depth → Kind → Kind} {d : Depth}
    (h : c.Stays θ) (hbvar : ∀ i, c ≠ .bvar i) : (c.traverse vars kinds d).Stays θ := by
  intro v spine hmvar
  have hframe : (c.traverse vars kinds d).frame = c.frame := frame_traverse hbvar
  rw [hmvar] at hframe
  exact h v _ (eq_mvar_of_frame hframe)

/-- Only what stands for the metavariables that are mentioned matters. -/
theorem spell_congr (h : ∀ v, c.Mentions v → θ v = θ' v) : c.spell ks θ = c.spell ks θ' := by
  induction c using inductionOnParts with
  | step c ih =>
    have hparts : ∀ p ∈ c.parts, p.spell ks θ = p.spell ks θ' := fun p hp =>
      ih p hp fun v hv => h v (.part hp hv)
    rcases solved_or_stays θ c with ⟨v, spine, solution, rfl, hv⟩ | hstays
    · rw [spell_solved hv, spell_solved (h v (.here spine) ▸ hv)]
      exact congrArg solution.instantiated (List.map_congr_left hparts)
    · have hstays' : c.Stays θ' := fun v spine hc => h v (hc ▸ .here spine) ▸ hstays v spine hc
      refine eq_of_frame ?_ ?_ ?_
      · rw [frame_spell hstays, frame_spell hstays']
      · rw [annotations_spell hstays, annotations_spell hstays']
      · rw [parts_spell hstays, parts_spell hstays']
        exact List.map_congr_left hparts

/-- Constructors whose annotations are spelled alike are spelled alike. -/
theorem spell_alike {c' : Con} (h : Alike (fun k k' => ks.expand k = ks.expand k') c c') :
    c'.spell ks θ = c.spell ks θ := by
  induction c using inductionOnParts generalizing c' with
  | step c ih =>
    have hparts : c'.parts.map (spell ks θ) = c.parts.map (spell ks θ) := by
      refine map_eq_map_of_forall₂ ?_
      obtain ⟨hlength, hparts⟩ := List.forall₂_iff_get.mp h.parts
      exact List.forall₂_iff_get.mpr
        ⟨hlength, fun i hi hi' => ih _ (List.getElem_mem hi) (hparts i hi hi')⟩
    rcases solved_or_stays θ c with ⟨v, spine, solution, rfl, hv⟩ | hstays
    · rw [eq_mvar_of_frame h.frame_eq, spell_solved hv, spell_solved hv]
      exact congrArg solution.instantiated hparts
    · have hstays' : c'.Stays θ := fun v spine hc =>
        hstays v _ (eq_mvar_of_frame (hc ▸ h.frame_eq.symm))
      refine eq_of_frame ?_ ?_ ?_
      · rw [frame_spell hstays, frame_spell hstays', h.frame_eq]
      · rw [annotations_spell hstays, annotations_spell hstays']
        exact map_eq_map_of_forall₂ (h.annotations.imp fun _ _ hk => hk.symm)
      · rw [parts_spell hstays, parts_spell hstays', hparts]

theorem spell_of_has (hmvar : c.has .mvar = false) (hkind : c.has .kindMVar = false) :
    c.spell ks θ = c := by
  have hexpand : c.expandKinds ks = c := expandKinds_of_has hkind
  induction c using inductionOnParts with
  | step c ih =>
    have hstays : c.Stays θ := fun v spine hc =>
      absurd (hc ▸ .here spine) (not_mentions_of_has hmvar (v := v))
    refine eq_of_frame (frame_spell hstays) ?_ ?_
    · rw [annotations_spell hstays, ← annotations_expandKinds, hexpand]
    · rw [parts_spell hstays, List.map_congr_left (g := id) fun p hp => ?_, List.map_id]
      have hkind := has_of_part hkind hp
      exact ih p hp (has_of_part hmvar hp) hkind (expandKinds_of_has hkind)

/-! ## Moving and replacing variables -/

/-- Every metavariable that stands for something has a spine for all the variables of what it stands
for, which mentions no kind variables. -/
def Served (θ : MetaId → Option Con) (c : Con) : Prop :=
  c.All fun node => ∀ v spine solution, node = .mvar v spine → θ v = some solution →
    solution.bound ≤ spine.length ∧ solution.KindScoped .zero

theorem Served.part (h : c.Served θ) (hp : p ∈ c.parts) : p.Served θ := (All.iff.mp h).2 p hp

theorem Served.top {solution : Con} (h : (Con.mvar v spine).Served θ) (hv : θ v = some solution) :
    solution.bound ≤ spine.length ∧ solution.KindScoped .zero :=
  (All.iff.mp h).1 v spine solution rfl hv

/-- Spelling out goes along with a traversal that goes into spines. -/
theorem spell_traverse {vars vars' : Depth → Nat → Con} {kinds kinds' : Depth → Kind → Kind}
    (U : Uniform vars' kinds') (hvars : ∀ d i, (vars d i).spell ks θ = vars' d i)
    (hkinds : ∀ d k, ks.expand (kinds d k) = kinds' d (ks.expand k)) (hc : c.Served θ) (d : Depth) :
    (c.traverse vars kinds d).spell ks θ = (c.spell ks θ).traverse vars' kinds' d := by
  induction c using inductionOnParts generalizing d with
  | step c ih =>
    have hparts : ∀ p ∈ c.parts, (p.traverse vars kinds (d + c.binders)).spell ks θ =
        (p.spell ks θ).traverse vars' kinds' (d + c.binders) := fun p hp => ih p hp (hc.part hp) _
    rcases solved_or_stays θ c with ⟨v, spine, solution, rfl, hv⟩ | hstays
    · obtain ⟨hbound, hscoped⟩ := hc.top hv
      rw [traverse_mvar, spell_solved hv, spell_solved hv,
        U.instantiated (by simpa using hbound) hscoped, List.map_map, List.map_map]
      exact congrArg solution.instantiated (List.map_congr_left hparts)
    · by_cases hbvar : ∃ i, c = .bvar i
      · obtain ⟨i, rfl⟩ := hbvar
        rw [spell_bvar, traverse_bvar, traverse_bvar, hvars]
      · have hbvar : ∀ i, c ≠ .bvar i := fun i hi => hbvar ⟨i, hi⟩
        have hbvar' : ∀ i, c.spell ks θ ≠ .bvar i := ne_bvar_of_frame (frame_spell hstays) hbvar
        have hstays' : (c.traverse vars kinds d).Stays θ := hstays.traverse hbvar
        refine eq_of_frame ?_ ?_ ?_
        · rw [frame_spell hstays', frame_traverse hbvar, frame_traverse hbvar', frame_spell hstays]
        · rw [annotations_spell hstays', annotations_traverse hbvar, annotations_traverse hbvar',
            annotations_spell hstays, List.map_map, List.map_map]
          exact List.map_congr_left fun k _ => hkinds d k
        · rw [parts_spell hstays', parts_traverse hbvar, parts_traverse hbvar', parts_spell hstays,
            List.map_map, List.map_map, binders_eq (frame_spell hstays)]
          exact List.map_congr_left hparts

theorem spell_weakened (acyclic : ks.Acyclic) (hclosed : ks.Closed) (hc : c.Served θ)
    (amount : Depth) : (c.weakened amount).spell ks θ = (c.spell ks θ).weakened amount :=
  spell_traverse (uniform_weaken amount) (fun _ _ => spell_bvar _)
    (fun _ k => acyclic.expand_shift hclosed k _ _) hc Depth.zero

theorem spell_lift (acyclic : ks.Acyclic) (hclosed : ks.Closed) (hc : c.Served θ) (amount : Nat) :
    (c.lift amount).spell ks θ = (c.spell ks θ).lift amount := by
  have hweakened : ∀ c : Con, c.lift amount = c.weakened ⟨amount, 0⟩ := by
    intro c
    have hkinds : weakenKind ⟨amount, 0⟩ = fun _ k => k := by
      funext d k
      exact Kind.shift_zero k _
    rw [lift_eq_traverse, weakened, hkinds]
  rw [hweakened, hweakened, spell_weakened acyclic hclosed hc]

theorem spell_instantiated (acyclic : ks.Acyclic) (hclosed : ks.Closed) (hc : c.Served θ)
    (hspine : ∀ a ∈ spine, a.Served θ) :
    (c.instantiated spine).spell ks θ = (c.spell ks θ).instantiated (spine.map (spell ks θ)) := by
  refine spell_traverse (uniform_spine _) (fun d i => ?_) (fun _ _ => rfl) hc Depth.zero
  unfold spineVar
  rw [← List.map_reverse, List.getElem?_map, List.length_map]
  split
  · exact spell_bvar i
  · cases hget : spine.reverse[i - d.con]? with
    | none => exact spell_bvar _
    | some argument =>
      have hmem := List.mem_reverse.mp (List.mem_of_getElem? hget)
      exact spell_weakened acyclic hclosed (hspine argument hmem) d

/-! ## Operations on what is spelled out -/

theorem eq_of_alike {c' : Con} (h : Alike (fun k k' => k' = k) c c') : c' = c := by
  induction c using inductionOnParts generalizing c' with
  | step c ih =>
    refine eq_of_frame h.frame_eq.symm ?_ ?_
    · simpa using map_eq_map_of_forall₂ (f := id) (g := id) h.annotations
    · obtain ⟨hlength, hparts⟩ := List.forall₂_iff_get.mp h.parts
      refine List.ext_get hlength.symm fun i hi' hi => ?_
      exact ih _ (List.get_mem _ _) (hparts i hi hi')

private theorem relates_spelled :
    Relates (.still KindStore) KindStore.Spelled fun _ k k' => k' = k :=
  ⟨fun _ hsame h => hsame ▸ h, fun _ _ h => h, fun _ => rfl⟩

private theorem shifts_spelled :
    Shifts (.still KindStore) KindStore.Spelled fun _ k k' => k' = k := by
  intro ks k amount cutoff _ hk
  have hrun : exec (KindStore.lift k amount cutoff) ks = some (some (k.shift amount cutoff), ks) :=
    congrArg (fun r => some (some r.1, r.2)) (hk.lift amount cutoff)
  exact Yields.of_exec hrun trivial rfl rfl

/-- Where all annotations are spelled out, an argument is moved under binders without a store. -/
theorem weaken_spelled (hc : c.Annotated ks.Spelled) (d : Depth) :
    (c.weaken d).run ks = (c.weakened d, ks) := by
  have ok : (Discipline.still KindStore).Ok ks := trivial
  obtain ⟨-, hsame, halike⟩ := relates_spelled.weaken shifts_spelled d ok hc _ _ rfl
  exact Prod.ext (eq_of_alike (halike _ rfl)) hsame

/-- So does instantiation. -/
theorem instantiate_spelled (hc : c.Annotated ks.Spelled)
    (hspine : ∀ a ∈ spine, a.Annotated ks.Spelled) :
    ((c.instantiate spine).run ks).1 = c.instantiated spine := by
  have ok : (Discipline.still KindStore).Ok ks := trivial
  have h := relates_spelled.instantiate shifts_spelled ok hc hspine
  exact eq_of_alike ((h _ _ rfl).2.2 _ rfl)

/-! ## Variables of what is spelled out -/

theorem bound_spell {n : Nat} (hc : c.Served θ) (h : c.bound ≤ n) : (c.spell ks θ).bound ≤ n := by
  induction c using inductionOnParts generalizing n with
  | step c ih =>
    obtain ⟨hvar, hparts⟩ := bound_le_iff_parts.mp h
    have hparts : ∀ p ∈ c.parts, (p.spell ks θ).bound ≤ n + c.binders.con := fun p hp =>
      ih p hp (hc.part hp) (hparts p hp)
    rcases solved_or_stays θ c with ⟨v, spine, solution, rfl, hv⟩ | hstays
    · rw [spell_solved hv]
      exact bound_instantiated (by simpa using (hc.top hv).1) (List.forall_mem_map.mpr hparts)
    · rw [bound_le_iff_parts, parts_spell hstays, binders_eq (frame_spell hstays)]
      refine ⟨fun i hi => hvar i ?_, List.forall_mem_map.mpr hparts⟩
      exact (eq_of_frame_leaf (hi ▸ frame_spell hstays) rfl rfl).symm

theorem KindScoped.spell (acyclic : ks.Acyclic) (hclosed : ks.Closed) (hc : c.Served θ) {d : Depth}
    (h : c.KindScoped d) : (c.spell ks θ).KindScoped d := by
  induction c using inductionOnParts generalizing d with
  | step c ih =>
    have hparts : ∀ p ∈ c.parts, (p.spell ks θ).KindScoped (d + c.binders) := fun p hp =>
      ih p hp (hc.part hp) (h.part hp)
    rcases solved_or_stays θ c with ⟨v, spine, solution, rfl, hv⟩ | hstays
    · rw [spell_solved hv]
      exact (hc.top hv).2.instantiated (List.forall_mem_map.mpr hparts)
    · refine .intro ?_ ?_
      · rw [annotations_spell hstays]
        refine List.forall_mem_map.mpr fun k hk => ?_
        rw [KindStore.expand_eq_assign]
        exact Kind.Vars.assign (Nodes.top h k hk) (acyclic.spelled_closed hclosed)
      · rw [parts_spell hstays, binders_eq (frame_spell hstays)]
        exact List.forall_mem_map.mpr hparts

end Con

end RowML
