import RowML.Proofs.Constructor.Substitution

/-!
# Substitutions that go into spines

A solution stands in the context of its own cell: it has no variables but those that the spine of an
occurrence fills in.  Whatever moves the occurrence or replaces variables around it goes into the
spine and leaves the solution alone.
-/

namespace RowML

namespace Kind

variable {k : Kind} {d : Nat}

theorem Vars.mapVars {P P' : Nat → Nat → Prop} {f : Nat → Nat → Kind} (d d' n e : Nat)
    (h : Vars P (d + e) k) (hf : ∀ e i, P (d + e) i → Vars P' (n + e) (f (d' + e) i)) :
    Vars P' (n + e) (k.mapVars f (d' + e)) := by
  induction k using inductionOnParts generalizing e with
  | step k ih =>
    obtain ⟨htop, hparts⟩ := Vars.iff.mp h
    have hpart : ∀ p ∈ k.parts, Vars P' (n + e + k.binders) (p.mapVars f (d' + e + k.binders)) := by
      intro p hp
      rw [Nat.add_assoc, Nat.add_assoc]
      exact ih p hp _ (by simpa [Nat.add_assoc] using hparts p hp)
    cases k with
    | bvar i => exact hf e i (htop i rfl)
    | type | unit | name | error | mvar =>
      exact .intro (by simp [Kind.mapVars]) (by simp [Kind.mapVars, parts])
    | tuple ks =>
      simp only [Kind.mapVars, mapVarsList_eq]
      exact .intro (by simp) (List.forall_mem_map.mpr hpart)
    | arrow a b =>
      have ha := hpart a (by simp [parts])
      have hb := hpart b (by simp [parts])
      refine .intro (by simp [Kind.mapVars]) fun p hp => ?_
      rcases List.mem_pair.mp hp with rfl | rfl
      · exact ha
      · exact hb
    | record a =>
      have ha := hpart a (by simp [parts])
      refine .intro (by simp [Kind.mapVars]) fun p hp => ?_
      obtain rfl := List.mem_singleton.mp hp
      exact ha
    | poly x body =>
      have hbody := hpart body (by simp [parts])
      refine .intro (by simp [Kind.mapVars]) fun p hp => ?_
      obtain rfl := List.mem_singleton.mp hp
      exact hbody

/-- Every variable is bound, by the kind itself or by one of `d` binders around it. -/
abbrev Within (d : Nat) (k : Kind) : Prop := Vars (fun depth i => i < depth) d k

theorem Within.bvar {i : Nat} (h : i < d) : (Kind.bvar i).Within d :=
  .intro (fun j hj => by cases hj; exact h) (by simp [parts])

theorem Within.add (h : k.Within d) (n : Nat) : k.Within (n + d) := by
  have hself : k.mapVars (fun _ i => .bvar i) 0 = k :=
    mapVars_eq_self (d := 0) (e := 0) (Vars.of_forall fun _ _ => rfl)
  rw [← hself]
  exact h.mapVars d 0 (n + d) 0 fun e i hi => Within.bvar (by omega)

theorem Within.shift (h : k.Within d) (n cutoff : Nat) : (k.shift n cutoff).Within (n + d) :=
  h.mapVars d 0 (n + d) 0 fun e i hi => Within.bvar (by split <;> omega)

/-- A shift leaves a kind alone that has no variables above the cutoff. -/
theorem Within.shift_eq (h : k.Within d) (n : Nat) : k.shift n d = k := by
  refine mapVars_eq_self (d := 0) (e := 0) ?_
  have hvars : Vars (fun e i => i < d + e) (0 + 0) (k.mapVars (fun _ i => .bvar i) (0 + 0)) :=
    h.mapVars d 0 0 0 fun e i hi => .intro (fun j hj => by cases hj; omega) (by simp [parts])
  rw [mapVars_eq_self (d := 0) (e := 0) (Vars.of_forall fun _ _ => rfl)] at hvars
  refine hvars.mono fun e i hi => ?_
  rw [shiftVar, if_neg (by omega)]

/-- Shifts above and below a cutoff. -/
theorem shift_shift_above (k : Kind) (m n cutoff e : Nat) :
    (k.shift m cutoff).shift n (e + m + cutoff) = (k.shift n (e + cutoff)).shift m cutoff := by
  refine (@mapVars_mapVars _ _ (fun depth i => .bvar (if e + cutoff + depth ≤ i then i + m + n
    else if cutoff + depth ≤ i then i + m else i)) _ _ 0 k fun d i => ?_).trans
    (mapVars_mapVars k fun d i => ?_).symm
  · simp only [shiftVar, mapVars, Nat.zero_add, Kind.bvar.injEq]
    split_ifs <;> omega
  · simp only [shiftVar, mapVars, Nat.zero_add, Kind.bvar.injEq]
    split_ifs <;> omega

end Kind

namespace Con

variable {c p : Con} {d e : Depth}

/-! ## Kind variables -/

/-- Every kind variable in the annotations is bound, by the constructor itself or by one of the
binders around it. -/
def KindScoped (d : Depth) (c : Con) : Prop :=
  Nodes (fun e node => ∀ k ∈ node.annotations, k.Within e.kind) d c

namespace KindScoped

theorem part (h : c.KindScoped d) (hp : p ∈ c.parts) : p.KindScoped (d + c.binders) :=
  Nodes.part h p hp

theorem bvar (i : Nat) : (Con.bvar i).KindScoped d :=
  .intro (by simp [annotations]) (by simp [parts])

theorem traverse {vars : Depth → Nat → Con} {kinds : Depth → Kind → Kind} (d d' e : Depth)
    (h : c.KindScoped (d' + e)) (hvars : ∀ f i, (vars f i).KindScoped (d + f))
    (hkinds : ∀ f k, Kind.Within (d' + f).kind k → (kinds f k).Within (d + f).kind) :
    (c.traverse vars kinds e).KindScoped (d + e) := by
  induction c using inductionOnParts generalizing e with
  | step c ih =>
    by_cases hbvar : ∃ i, c = .bvar i
    · obtain ⟨i, rfl⟩ := hbvar
      exact hvars e i
    · have hbvar : ∀ i, c ≠ .bvar i := fun i hi => hbvar ⟨i, hi⟩
      refine .intro ?_ ?_
      · rw [annotations_traverse hbvar]
        exact List.forall_mem_map.mpr fun k hk => hkinds e k (Nodes.top h k hk)
      · rw [parts_traverse hbvar, binders_eq (frame_traverse hbvar), Depth.add_assoc]
        exact List.forall_mem_map.mpr fun p hp => ih p hp _ (Depth.add_assoc _ _ _ ▸ h.part hp)

theorem weakened (h : c.KindScoped d) (e : Depth) : (c.weakened e).KindScoped (d + e) := by
  refine KindScoped.traverse (d + e) d Depth.zero h (fun _ _ => .bvar _) fun f k hk => ?_
  rw [Depth.add_assoc, Depth.add_comm e, ← Depth.add_assoc, Depth.add_comm]
  exact hk.shift e.kind f.kind

theorem instantiated {spine : List Con} (h : c.KindScoped .zero)
    (hspine : ∀ a ∈ spine, a.KindScoped d) : (c.instantiated spine).KindScoped d := by
  refine h.traverse d Depth.zero Depth.zero (fun f i => ?_) fun f k hk => ?_
  rotate_left
  · exact Depth.zero_add f ▸ hk.add d.kind
  unfold spineVar
  split
  · exact .bvar i
  · split
    next argument hget =>
      have hmem := List.mem_reverse.mp (List.mem_of_getElem? hget)
      exact (hspine argument hmem).weakened f
    next => exact .bvar _

end KindScoped

/-! ## Uniform traversals -/

/-- A traversal that leaves alone what is bound below it, and goes along when a constructor is put
under binders. -/
structure Uniform (vars : Depth → Nat → Con) (kinds : Depth → Kind → Kind) : Prop where
  bound : ∀ {d i}, i < d.con → vars d i = .bvar i
  closed : ∀ {d k}, Kind.Within d.kind k → kinds d k = k
  weakened : ∀ d e c,
    traverse vars kinds (d + e) (weakened c e) = (traverse vars kinds d c).weakened e

theorem uniform_spine (spine : List Con) : Uniform (spineVar spine) fun _ k => k :=
  ⟨spineVar_of_lt, fun _ => rfl, instantiatedAt_weakened spine⟩

theorem uniform_weaken (amount : Depth) : Uniform (weakenVar amount) (weakenKind amount) where
  bound h := by rw [weakenVar, if_pos h]
  closed h := h.shift_eq _
  weakened d e c := by
    refine traverse_square (d + e) Depth.zero Depth.zero d (fun f i => ?_) (fun f k => ?_)
      Depth.zero c
    · simp only [weakenVar, traverse_bvar, Depth.zero_add, Depth.add_con, Con.bvar.injEq]
      split_ifs <;> omega
    · simp only [weakenKind, Depth.zero_add, Depth.add_kind]
      exact Kind.shift_shift_above k _ _ _ _

/-- A traversal of an instantiated solution goes into the spine. -/
theorem Uniform.instantiated {vars : Depth → Nat → Con} {kinds : Depth → Kind → Kind}
    (U : Uniform vars kinds) {solution : Con} {spine : List Con}
    (hbound : solution.bound ≤ spine.length) (hscoped : solution.KindScoped .zero) (d : Depth) :
    traverse vars kinds d (solution.instantiated spine) =
      solution.instantiated (spine.map (traverse vars kinds d)) := by
  refine traverse_traverse_of_nodes d Depth.zero Depth.zero Depth.zero
    (((bound_le_iff.mp hbound).and hscoped).mono fun e node hnode =>
      ⟨fun i hi => ?_, fun k hk => ?_⟩)
  · have hlt := hnode.1 i hi
    rw [Depth.zero_add]
    by_cases he : i < e.con
    · rw [spineVar_of_lt he, spineVar_of_lt he, traverse_bvar]
      exact U.bound (Nat.lt_of_lt_of_le he (Nat.le_add_left _ _))
    · have hindex : i - e.con < spine.reverse.length := by
        rw [List.length_reverse]
        omega
      rw [spineVar_of_some (by omega) (List.getElem?_eq_getElem hindex),
        spineVar_of_some (by omega) (by
          rw [← List.map_reverse, List.getElem?_map, List.getElem?_eq_getElem hindex,
            Option.map_some])]
      exact U.weakened d e _
  · exact U.closed ((hnode.2 k hk).add d.kind)

end Con

end RowML
