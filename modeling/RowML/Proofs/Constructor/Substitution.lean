import RowML.Constructor.Shift
import RowML.Proofs.Constructor.Mention
import RowML.Proofs.Constructor.Rebuild
import RowML.Proofs.Kind.Variables

/-!
# Shifting and substitution without a store

`traverse` replaces bound variables and kind annotations, each by a function of the depth where it
stands.  Shifting, instantiation and kind substitution are traversals, and how two of them compose
is decided at the variables.
-/

namespace RowML

namespace Con

/-- Replaces the variable `i` under `depth` by `vars depth i` and every annotation likewise. -/
def traverse (vars : Depth → Nat → Con) (kinds : Depth → Kind → Kind) (depth : Depth) (c : Con) :
    Con :=
  Id.run <| c.rebuildM
    (fun depth node =>
      match node with
      | .bvar i => pure (some (vars depth i))
      | _ => pure none)
    (fun depth k => pure (kinds depth k)) depth

section Traverse

variable {vars : Depth → Nat → Con} {kinds : Depth → Kind → Kind} {depth : Depth} {c : Con}

@[simp] theorem traverse_bvar (i : Nat) : traverse vars kinds depth (.bvar i) = vars depth i := rfl

private theorem traverseList (cs : List Con) :
    Id.run (rebuildListM (fun depth node =>
      match node with
      | .bvar i => pure (some (vars depth i))
      | _ => pure none) (fun depth k => pure (kinds depth k)) depth cs) =
      cs.map (traverse vars kinds depth) := by
  induction cs with
  | nil => rfl
  | cons c cs ih =>
    rw [List.map_cons, ← ih]
    rfl

private theorem traverseFields (fields : List (Con × Con)) :
    Id.run (rebuildFieldsM (fun depth node =>
      match node with
      | .bvar i => pure (some (vars depth i))
      | _ => pure none) (fun depth k => pure (kinds depth k)) depth fields) =
      fields.map fun field =>
        (traverse vars kinds depth field.1, traverse vars kinds depth field.2) := by
  induction fields with
  | nil => rfl
  | cons field fields ih =>
    rw [List.map_cons, ← ih]
    rfl

@[simp] theorem traverse_mvar (v : MetaId) (spine : List Con) :
    traverse vars kinds depth (.mvar v spine) =
      .mvar v (spine.map (traverse vars kinds depth)) := by
  rw [← traverseList]
  rfl

@[simp] theorem traverse_tuple (cs : List Con) :
    traverse vars kinds depth (.tuple cs) = .tuple (cs.map (traverse vars kinds depth)) := by
  rw [← traverseList]
  rfl

@[simp] theorem traverse_row (k : Kind) (fields : List (Con × Con)) :
    traverse vars kinds depth (.row k fields) =
      .row (kinds depth k) (fields.map fun field =>
        (traverse vars kinds depth field.1, traverse vars kinds depth field.2)) := by
  rw [← traverseFields]
  rfl

theorem frame_traverse (hc : ∀ i, c ≠ .bvar i) :
    (traverse vars kinds depth c).frame = c.frame := by
  cases c with
  | bvar i => exact absurd rfl (hc i)
  | mvar | tuple | row => simp [frame, Function.comp_def]
  | _ => rfl

theorem annotations_traverse (hc : ∀ i, c ≠ .bvar i) :
    (traverse vars kinds depth c).annotations = c.annotations.map (kinds depth) := by
  cases c with
  | bvar i => exact absurd rfl (hc i)
  | mvar | tuple | row => simp [annotations]
  | _ => rfl

theorem parts_traverse (hc : ∀ i, c ≠ .bvar i) :
    (traverse vars kinds depth c).parts =
      c.parts.map (traverse vars kinds (depth + c.binders)) := by
  cases c with
  | bvar i => exact absurd rfl (hc i)
  | mvar | tuple => simp [parts, binders]
  | row k fields => simp [parts, binders, List.flatMap_map, List.map_flatMap]
  | _ => rfl

/-- A traversal that changes neither variables nor annotations. -/
theorem traverse_eq_self (depth e : Depth)
    (h : Nodes (fun e node => (∀ i, node = .bvar i → vars (depth + e) i = .bvar i) ∧
      ∀ k ∈ node.annotations, kinds (depth + e) k = k) e c) :
    traverse vars kinds (depth + e) c = c := by
  induction c using inductionOnParts generalizing e with
  | step c ih =>
    by_cases hc : ∃ i, c = .bvar i
    · obtain ⟨i, rfl⟩ := hc
      exact h.top.1 i rfl
    · have hc : ∀ i, c ≠ .bvar i := fun i hi => hc ⟨i, hi⟩
      refine eq_of_frame (frame_traverse hc) ?_ ?_
      · rw [annotations_traverse hc, List.map_congr_left (g := id) h.top.2, List.map_id]
      · rw [parts_traverse hc, Depth.add_assoc,
          List.map_congr_left (g := id) fun p hp => ih p hp _ (h.part p hp), List.map_id]

/-- Two traversals that amount to one, on the nodes of a constructor. -/
theorem traverse_traverse_of_nodes {vars' vars'' : Depth → Nat → Con}
    {kinds' kinds'' : Depth → Kind → Kind} (d d' d'' e : Depth)
    (h : Nodes (fun e node => (∀ i, node = .bvar i →
      traverse vars kinds (d + e) (vars' (d' + e) i) = vars'' (d'' + e) i) ∧
      ∀ k ∈ node.annotations, kinds (d + e) (kinds' (d' + e) k) = kinds'' (d'' + e) k) e c) :
    traverse vars kinds (d + e) (traverse vars' kinds' (d' + e) c) =
      traverse vars'' kinds'' (d'' + e) c := by
  induction c using inductionOnParts generalizing e with
  | step c ih =>
    by_cases hc : ∃ i, c = .bvar i
    · obtain ⟨i, rfl⟩ := hc
      exact h.top.1 i rfl
    · have hc : ∀ i, c ≠ .bvar i := fun i hi => hc ⟨i, hi⟩
      have hframe : (traverse vars' kinds' (d' + e) c).frame = c.frame := frame_traverse hc
      have hc' := ne_bvar_of_frame hframe hc
      refine eq_of_frame ?_ ?_ ?_
      · rw [frame_traverse hc', hframe, frame_traverse hc]
      · rw [annotations_traverse hc', annotations_traverse hc, annotations_traverse hc,
          List.map_map]
        exact List.map_congr_left fun k hk => h.top.2 k hk
      · rw [parts_traverse hc', parts_traverse hc, parts_traverse hc, List.map_map,
          binders_eq hframe]
        refine List.map_congr_left fun p hp => ?_
        simpa [Depth.add_assoc] using ih p hp _ (h.part p hp)

/-- Two traversals that amount to one. -/
theorem traverse_traverse {vars' vars'' : Depth → Nat → Con}
    {kinds' kinds'' : Depth → Kind → Kind} (d d' d'' e : Depth)
    (hvars : Nodes (fun e node => ∀ i, node = .bvar i →
      traverse vars kinds (d + e) (vars' (d' + e) i) = vars'' (d'' + e) i) e c)
    (hkinds : ∀ e k, kinds (d + e) (kinds' (d' + e) k) = kinds'' (d'' + e) k) :
    traverse vars kinds (d + e) (traverse vars' kinds' (d' + e) c) =
      traverse vars'' kinds'' (d'' + e) c :=
  traverse_traverse_of_nodes d d' d'' e (hvars.mono fun e _ hnode => ⟨hnode, fun k _ => hkinds e k⟩)

/-- Two ways around a square of traversals. -/
theorem traverse_square {vars₁ vars₂ vars₃ vars₄ : Depth → Nat → Con}
    {kinds₁ kinds₂ kinds₃ kinds₄ : Depth → Kind → Kind} (d₁ d₂ d₃ d₄ : Depth)
    (hvars : ∀ e i, traverse vars₁ kinds₁ (d₁ + e) (vars₂ (d₂ + e) i) =
      traverse vars₃ kinds₃ (d₃ + e) (vars₄ (d₄ + e) i))
    (hkinds : ∀ e k, kinds₁ (d₁ + e) (kinds₂ (d₂ + e) k) = kinds₃ (d₃ + e) (kinds₄ (d₄ + e) k))
    (e : Depth) (c : Con) :
    traverse vars₁ kinds₁ (d₁ + e) (traverse vars₂ kinds₂ (d₂ + e) c) =
      traverse vars₃ kinds₃ (d₃ + e) (traverse vars₄ kinds₄ (d₄ + e) c) := by
  induction c using inductionOnParts generalizing e with
  | step c ih =>
    by_cases hc : ∃ i, c = .bvar i
    · obtain ⟨i, rfl⟩ := hc
      exact hvars e i
    · have hc : ∀ i, c ≠ .bvar i := fun i hi => hc ⟨i, hi⟩
      have hframe₂ : (traverse vars₂ kinds₂ (d₂ + e) c).frame = c.frame := frame_traverse hc
      have hframe₄ : (traverse vars₄ kinds₄ (d₄ + e) c).frame = c.frame := frame_traverse hc
      have hc₂ := ne_bvar_of_frame hframe₂ hc
      have hc₄ := ne_bvar_of_frame hframe₄ hc
      refine eq_of_frame ?_ ?_ ?_
      · rw [frame_traverse hc₂, frame_traverse hc₄, hframe₂, hframe₄]
      · rw [annotations_traverse hc₂, annotations_traverse hc₄, annotations_traverse hc,
          annotations_traverse hc, List.map_map, List.map_map]
        exact List.map_congr_left fun k _ => hkinds e k
      · rw [parts_traverse hc₂, parts_traverse hc₄, parts_traverse hc, parts_traverse hc,
          List.map_map, List.map_map, binders_eq hframe₂, binders_eq hframe₄]
        refine List.map_congr_left fun p hp => ?_
        simpa [Depth.add_assoc] using ih p hp (e + c.binders)

/-- The discipline of computations without a state. -/
def stateless : Discipline Unit where
  Ok _ := True
  Grows _ _ := True
  refl _ _ := trivial
  trans _ _ _ _ _ := trivial

theorem map_eq_of_forall₂ {α β : Type} {f : α → β} {xs : List α} {ys : List β}
    (h : List.Forall₂ (fun x y => f x = y) xs ys) : xs.map f = ys := by
  rwa [← List.forall₂_eq_eq_eq, List.forall₂_map_left_iff]

/-- A pass without effects whose hook does what a traversal does. -/
theorem rebuild_eq_traverse {node : Depth → Con → Option Con}
    (hsome : ∀ d c c', node d c = some c' → traverse vars (fun _ k => k) d c = c')
    (hnone : ∀ d i, node d (.bvar i) ≠ none) :
    c.rebuild node = c.traverse vars (fun _ k => k) Depth.zero := by
  let S : PassSpec Unit :=
    ⟨fun _ _ _ => True, fun _ _ _ => True, fun _ _ c => ∀ i, c ≠ .bvar i,
      fun _ d c c' => traverse vars (fun _ k => k) d c = c', fun _ _ k k' => id k = k'⟩
  have P : Pass (m := Id) stateless S (fun d c => pure (node d c)) (fun _ k => pure k) :=
    { pre_grows := fun _ _ h => h
      kindPre_grows := fun _ _ h => h
      enters_grows := fun _ _ h => h
      post_grows := fun _ _ h => h
      kindPost_grows := fun _ _ h => h
      pre_part := fun _ _ => trivial
      pre_kind := fun _ _ => trivial
      node_yields := by
        intro s d c _ _
        refine Yields.pure trivial ?_
        cases hnode : node d c with
        | some c' => exact hsome d c c' hnode
        | none =>
          rintro i rfl
          exact hnone d i hnode
      kind_yields := fun _ _ => Yields.pure trivial rfl
      close := by
        intro s d c c' _ _ hc related
        refine eq_of_frame ((frame_traverse hc).trans related.frame) ?_ ?_
        · rw [annotations_traverse hc]
          exact map_eq_of_forall₂ related.annotations
        · rw [parts_traverse hc]
          exact map_eq_of_forall₂ related.parts }
  have h := (P.rebuildM_yields c (s := ()) (d := Depth.zero) trivial trivial) _ _ rfl
  exact (h.2.2 _ rfl).symm

end Traverse

/-! ## Weakening and instantiation -/

/-- A variable under `depth` binders after `amount` binders are put around the constructor. -/
def weakenVar (amount depth : Depth) (i : Nat) : Con :=
  .bvar (if i < depth.con then i else i + amount.con)

def weakenKind (amount depth : Depth) (k : Kind) : Kind := k.shift amount.kind depth.kind

/-- The constructor as it reads under `amount` further binders. -/
def weakened (c : Con) (amount : Depth) : Con :=
  c.traverse (weakenVar amount) (weakenKind amount) Depth.zero

/-- A variable under `depth` binders after the spine is put for the variables around them. -/
def spineVar (spine : List Con) (depth : Depth) (i : Nat) : Con :=
  if i < depth.con then .bvar i
  else
    match spine.reverse[i - depth.con]? with
    | some argument => argument.weakened depth
    | none => .bvar (i - spine.length)

/-- The part of a solution that stands under `depth` binders, at an occurrence with a spine. -/
def instantiatedAt (spine : List Con) (depth : Depth) (c : Con) : Con :=
  c.traverse (spineVar spine) (fun _ k => k) depth

/-- A solution as it reads at an occurrence with the given spine. -/
def instantiated (c : Con) (spine : List Con) : Con := c.instantiatedAt spine Depth.zero

/-- The constructor with `argument` for the innermost kind variable. -/
def kindSubstituted (c : Con) (argument : Kind) : Con :=
  c.traverse (fun _ i => .bvar i) (fun depth k => k.substitute argument depth.kind) Depth.zero

@[simp] theorem weakened_zero (c : Con) : c.weakened Depth.zero = c := by
  unfold weakened
  refine traverse_eq_self Depth.zero Depth.zero (Nodes.of_forall fun d _ => ?_)
  exact ⟨fun i _ => by simp [weakenVar], fun k _ => by simp [weakenKind]⟩

/-- Shifting a constructor that has been moved under the binders that the shift spares. -/
theorem weaken_weakened (c : Con) (amount d e : Depth) :
    traverse (weakenVar amount) (weakenKind amount) e (c.weakened (d + e)) =
      c.weakened (d + e + amount) := by
  refine traverse_traverse e Depth.zero Depth.zero Depth.zero
    (Nodes.of_forall fun f _ i _ => ?_) fun f k => ?_
  · simp only [weakenVar, Depth.zero_add, Depth.add_con, traverse_bvar, Con.bvar.injEq]
    split_ifs <;> omega
  · simp only [weakenKind, Depth.zero_add, Depth.add_kind]
    exact Kind.shift_shift k _ _ _ _ (Nat.le_add_left _ _)

theorem spineVar_of_lt {spine : List Con} {d : Depth} {i : Nat} (h : i < d.con) :
    spineVar spine d i = .bvar i := by
  simp [spineVar, h]

theorem spineVar_of_some {spine : List Con} {d : Depth} {i : Nat} {argument : Con}
    (h : d.con ≤ i) (hget : spine.reverse[i - d.con]? = some argument) :
    spineVar spine d i = argument.weakened d := by
  simp [spineVar, Nat.not_lt.mpr h, hget]

theorem spineVar_of_none {spine : List Con} {d : Depth} {i : Nat}
    (h : d.con ≤ i) (hget : spine.reverse[i - d.con]? = none) :
    spineVar spine d i = .bvar (i - spine.length) := by
  simp [spineVar, Nat.not_lt.mpr h, hget]

@[simp] theorem instantiated_nil (c : Con) : c.instantiated [] = c := by
  refine traverse_eq_self Depth.zero Depth.zero (Nodes.of_forall fun d _ => ?_)
  exact ⟨fun i _ => by simp [spineVar], fun _ _ => rfl⟩

/-- Instantiation commutes with weakening. -/
theorem instantiatedAt_weakened (spine : List Con) (d e : Depth) (c : Con) :
    (c.weakened e).instantiatedAt spine (d + e) = (c.instantiatedAt spine d).weakened e := by
  refine traverse_square (d + e) Depth.zero Depth.zero d (fun f i => ?_) (fun f k => rfl)
    Depth.zero c
  simp only [Depth.zero_add, weakenVar, traverse_bvar, spineVar, Depth.add_con]
  by_cases hf : i < f.con
  · have : i < d.con + f.con := by omega
    have : i < d.con + e.con + f.con := by omega
    simp [weakenVar, *]
  by_cases hd : i < d.con + f.con
  · have : i + e.con < d.con + e.con + f.con := by omega
    simp [weakenVar, *]
  · have hindex : i + e.con - (d.con + e.con + f.con) = i - (d.con + f.con) := by omega
    have : ¬ i + e.con < d.con + e.con + f.con := by omega
    simp only [if_neg hf, if_neg hd, if_neg this, hindex]
    rcases hget : spine.reverse[i - (d.con + f.con)]? with _ | argument
    · have hlength := List.getElem?_eq_none_iff.mp hget
      rw [List.length_reverse] at hlength
      simp only [traverse_bvar, weakenVar, Con.bvar.injEq]
      rw [if_neg (by omega)]
      omega
    · have hdepth : d + e + f = d + f + e := by
        rw [Depth.add_assoc, Depth.add_comm e, Depth.add_assoc]
      simp only [hdepth]
      exact (weaken_weakened argument e d f).symm

/-- Instantiating an instantiated solution instantiates the spine. -/
theorem instantiatedAt_instantiated {c : Con} {spine : List Con} (hc : c.bound ≤ spine.length)
    (spine' : List Con) (d : Depth) :
    (c.instantiated spine).instantiatedAt spine' d =
      c.instantiated (spine.map (instantiatedAt spine' d)) := by
  have hnodes := bound_le_iff.mp hc
  refine traverse_traverse d Depth.zero Depth.zero Depth.zero
    (hnodes.mono fun e node hnode i hi => ?_) (fun _ _ => rfl)
  have hlt := hnode i hi
  simp only [Depth.zero_add, spineVar]
  by_cases he : i < e.con
  · have : i < d.con + e.con := by omega
    simp [he, spineVar, this]
  · have hindex : i - e.con < spine.reverse.length := by
      rw [List.length_reverse]
      omega
    simp only [if_neg he, ← List.map_reverse, List.getElem?_map,
      List.getElem?_eq_getElem hindex, Option.map_some]
    exact instantiatedAt_weakened spine' d e _

/-- Binders that a constructor does not look past do not see the spine. -/
theorem instantiatedAt_of_bound {c : Con} {spine : List Con} {d : Depth} (hc : c.bound ≤ d.con) :
    c.instantiatedAt spine d = c := by
  refine traverse_eq_self d Depth.zero ?_
  rw [← Nat.add_zero d.con, bound_le_add_iff, ← Depth.add_zero d, Nodes.shift] at hc
  refine hc.mono fun e node hnode => ⟨fun i hi => ?_, fun _ _ => rfl⟩
  exact spineVar_of_lt (hnode i hi)

/-! ## What a traversal mentions -/

theorem mentions_traverse {vars : Depth → Nat → Con} {kinds : Depth → Kind → Kind} {v : MetaId}
    {c : Con} {d : Depth} (h : (c.traverse vars kinds d).Mentions v) :
    c.Mentions v ∨ ∃ e i, (vars e i).Mentions v := by
  induction c using inductionOnParts generalizing d with
  | step c ih =>
    by_cases hc : ∃ i, c = .bvar i
    · obtain ⟨i, rfl⟩ := hc
      exact .inr ⟨d, i, h⟩
    · have hc : ∀ i, c ≠ .bvar i := fun i hi => hc ⟨i, hi⟩
      rcases mentions_iff.mp h with ⟨spine, hmvar⟩ | ⟨p, hp, hmentions⟩
      · have hframe : (c.traverse vars kinds d).frame = c.frame := frame_traverse hc
        rw [hmvar] at hframe
        exact .inl (eq_mvar_of_frame hframe ▸ .here _)
      · rw [parts_traverse hc] at hp
        obtain ⟨q, hq, rfl⟩ := List.mem_map.mp hp
        rcases ih q hq hmentions with hq' | hvars
        · exact .inl (.part hq hq')
        · exact .inr hvars

/-- A traversal keeps metavariables. -/
theorem Mentions.traverse {vars : Depth → Nat → Con} {kinds : Depth → Kind → Kind} {v : MetaId}
    {c : Con} (h : c.Mentions v) (d : Depth) : (c.traverse vars kinds d).Mentions v := by
  induction h generalizing d with
  | here spine =>
    rw [traverse_mvar]
    exact .here _
  | @part c p hp _ ih =>
    have hc : ∀ i, c ≠ .bvar i := by
      rintro i rfl
      cases hp
    refine .part ?_ (ih (d + c.binders))
    rw [parts_traverse hc]
    exact List.mem_map_of_mem hp

theorem mentions_weakened {v : MetaId} {c : Con} {d : Depth} (h : (c.weakened d).Mentions v) :
    c.Mentions v := by
  rcases mentions_traverse h with h | ⟨e, i, h⟩
  · exact h
  · cases h with
    | part hp _ => cases hp

theorem mentions_instantiated {v : MetaId} {c : Con} {spine : List Con}
    (h : (c.instantiated spine).Mentions v) : c.Mentions v ∨ ∃ a ∈ spine, a.Mentions v := by
  rcases mentions_traverse h with h | ⟨e, i, h⟩
  · exact .inl h
  · right
    unfold spineVar at h
    split at h
    · cases h with
      | part hp _ => cases hp
    · split at h
      next argument hget =>
        exact ⟨argument, List.mem_reverse.mp (List.mem_of_getElem? hget), mentions_weakened h⟩
      next =>
        cases h with
        | part hp _ => cases hp

theorem bound_traverse {vars : Depth → Nat → Con} {kinds : Depth → Kind → Kind} {c : Con}
    {n : Nat} (d e : Depth)
    (h : Nodes (fun e node => ∀ i, node = .bvar i → (vars (d + e) i).bound ≤ n + e.con) e c) :
    (c.traverse vars kinds (d + e)).bound ≤ n + e.con := by
  induction c using inductionOnParts generalizing e with
  | step c ih =>
    by_cases hc : ∃ i, c = .bvar i
    · obtain ⟨i, rfl⟩ := hc
      exact h.top i rfl
    · have hc : ∀ i, c ≠ .bvar i := fun i hi => hc ⟨i, hi⟩
      have hframe : (c.traverse vars kinds (d + e)).frame = c.frame := frame_traverse hc
      rw [bound_le_iff_parts, parts_traverse hc, binders_eq hframe]
      refine ⟨fun i hi => absurd hi (ne_bvar_of_frame hframe hc i), ?_⟩
      refine List.forall_mem_map.mpr fun p hp => ?_
      have := ih p hp (e + c.binders) (h.part p hp)
      rwa [Depth.add_con, ← Nat.add_assoc, ← Depth.add_assoc] at this

theorem bound_weakened {c : Con} {n : Nat} (d : Depth) (hc : c.bound ≤ n) :
    (c.weakened d).bound ≤ n + d.con := by
  refine bound_traverse (n := n + d.con) Depth.zero Depth.zero
    ((bound_le_iff.mp hc).mono fun e node h i hi => ?_)
  have := h i hi
  rw [weakenVar, bound_bvar, Depth.zero_add]
  split <;> omega

theorem bound_instantiated {c : Con} {spine : List Con} {n : Nat} (hc : c.bound ≤ spine.length)
    (hspine : ∀ a ∈ spine, a.bound ≤ n) : (c.instantiated spine).bound ≤ n := by
  refine bound_traverse Depth.zero Depth.zero ((bound_le_iff.mp hc).mono fun e node h i hi => ?_)
  have := h i hi
  rw [Depth.zero_add]
  by_cases he : i < e.con
  · rw [spineVar_of_lt he, bound_bvar]
    omega
  · have hindex : i - e.con < spine.reverse.length := by
      rw [List.length_reverse]
      omega
    rw [spineVar_of_some (by omega) (List.getElem?_eq_getElem hindex)]
    exact bound_weakened e (hspine _ (List.mem_reverse.mp (List.getElem_mem hindex)))

end Con

end RowML
