import RowML.Proofs.Constructor.Children
import RowML.Proofs.Constructor.Mention

/-!
# One step of a pass

A pass treats a node by its hook or goes on to the parts of the node.  That one equation, for all
forms of nodes, is what an argument about a pass by induction on the parts needs; with it two passes
are compared that differ in the nodes which they skip.
-/

namespace RowML

namespace Con

/-- Children that are replaced one by one. -/
theorem parallel_map (f : Con → Con) (kind : Kind → Kind) (c : Con) :
    Parallel (fun k k' => kind k = k') (fun p p' => f p = p') c
      (c.withChildren (c.children.map (Sum.map kind f))) := by
  refine parallel_withChildren (List.forall₂_map_right_iff.mpr (List.forall₂_same.mpr ?_))
  rintro (k | p) -
  · exact .inl rfl
  · exact .inr rfl

section Children

variable {m : Type → Type} [Monad m] [LawfulMonad m]

private theorem mapM_congr {α β : Type} {f g : α → m β} {xs : List α} (h : ∀ x ∈ xs, f x = g x) :
    xs.mapM f = xs.mapM g := by
  induction xs with
  | nil => simp
  | cons x xs ih =>
    obtain ⟨hx, hxs⟩ := List.forall_mem_cons.mp h
    rw [List.mapM_cons, List.mapM_cons, hx, ih hxs]

theorem mapChildrenM_congr {f g : Con → m Con} {kind kind' : Kind → m Kind} {c : Con}
    (hf : ∀ p ∈ c.parts, f p = g p) (hkind : ∀ k ∈ c.annotations, kind k = kind' k) :
    c.mapChildrenM f kind = c.mapChildrenM g kind' := by
  rw [mapChildrenM_eq, mapChildrenM_eq]
  refine congrArg _ (mapM_congr ?_)
  rintro (k | p) hx
  · rw [onChild, onChild, hkind k (inl_mem_children.mp hx)]
  · rw [onChild, onChild, hf p (inr_mem_children.mp hx)]

theorem mapChildrenM_pure (f : Con → Con) (kind : Kind → Kind) (c : Con) :
    c.mapChildrenM (m := m) (fun p => pure (f p)) (fun k => pure (kind k)) =
      pure (c.withChildren (c.children.map (Sum.map kind f))) := by
  have hchild : onChild (m := m) (fun p => pure (f p)) (fun k => pure (kind k)) =
      fun x => pure (Sum.map kind f x) := by
    funext x
    cases x <;> simp [onChild]
  rw [mapChildrenM_eq, hchild, List.mapM_pure, map_pure]

theorem mapChildrenM_self {f : Con → m Con} {kind : Kind → m Kind} {c : Con}
    (hf : ∀ p ∈ c.parts, f p = pure p) (hkind : ∀ k ∈ c.annotations, kind k = pure k) :
    c.mapChildrenM f kind = pure c := by
  have hid : Sum.map (fun k : Kind => k) (fun p : Con => p) = id := by
    funext x
    cases x <;> rfl
  rw [mapChildrenM_congr hf hkind, mapChildrenM_pure, hid, List.map_id, withChildren_children]

end Children

section Passes

variable {m : Type → Type} [Monad m] [LawfulMonad m] {node plain : Depth → Con → m (Option Con)}
  {kind : Depth → Kind → m Kind}

private theorem rebuildListM_eq (d : Depth) (cs : List Con) :
    rebuildListM node kind d cs = cs.mapM fun c => c.rebuildM node kind d := by
  induction cs with
  | nil => simp [rebuildListM]
  | cons c cs ih => simp [rebuildListM, ih]

private theorem rebuildFieldsM_eq (d : Depth) (fields : List (Con × Con)) :
    rebuildFieldsM node kind d fields = fields.mapM (fun field => do
      let name ← field.1.rebuildM node kind d
      let value ← field.2.rebuildM node kind d
      pure (name, value)) := by
  induction fields with
  | nil => simp [rebuildFieldsM]
  | cons field fields ih => simp [rebuildFieldsM, ih]

/-- A pass is its hook, and where that gives nothing the same pass over the parts. -/
theorem rebuildM_step (d : Depth) (c : Con) :
    c.rebuildM node kind d = orRebuild (node d c) fun _ =>
      c.mapChildrenM (fun p => p.rebuildM node kind (d + c.binders)) (kind d) := by
  cases c with
  | mvar v spine | tuple spine => simp only [rebuildM, rebuildListM_eq]; rfl
  | row k fields => simp only [rebuildM, rebuildFieldsM_eq]; rfl
  | _ => rfl

theorem orRebuild_some {c : Con} {rebuild : Unit → m Con} :
    orRebuild (pure (some c) : m (Option Con)) rebuild = pure c := by
  simp [orRebuild]

theorem orRebuild_none {rebuild : Unit → m Con} :
    orRebuild (pure none : m (Option Con)) rebuild = rebuild () := by
  simp [orRebuild]

/-- A pass without effects on a constructor all of whose nodes it leaves alone. -/
theorem rebuildM_self {d : Depth} {c : Con}
    (h : Nodes (fun e n => (plain e n = pure none ∨ plain e n = pure (some n)) ∧
      ∀ k ∈ n.annotations, kind e k = pure k) d c) :
    c.rebuildM plain kind d = pure c := by
  induction h with
  | intro top _ ih =>
    rw [rebuildM_step]
    rcases top.1 with hnone | hsome
    · rw [hnone, orRebuild_none, mapChildrenM_self ih top.2]
    · rw [hsome, orRebuild_some]

/-- Two passes with the same hook, one of which skips nodes that the other leaves alone. -/
theorem rebuildM_eq_of_skips
    (h : ∀ d c, node d c = plain d c ∨
      node d c = pure (some c) ∧ c.rebuildM plain kind d = pure c) (d : Depth) (c : Con) :
    c.rebuildM node kind d = c.rebuildM plain kind d := by
  induction c using inductionOnParts generalizing d with
  | step c ih =>
    rcases h d c with hsame | ⟨hskip, hself⟩
    · have hchildren := mapChildrenM_congr (fun p hp => ih p hp (d + c.binders))
        fun k (_ : k ∈ c.annotations) => rfl (a := kind d k)
      rw [rebuildM_step, hsame, hchildren, ← rebuildM_step]
    · rw [rebuildM_step, hskip, orRebuild_some, hself]

end Passes

/-! ## Visits -/

section Visit

variable {α : Type} {f : α → Depth → Con → α}

private theorem foldNodesList_eq (acc : α) (d : Depth) (cs : List Con) :
    foldNodesList f acc d cs = cs.foldl (fun acc p => foldNodes f acc d p) acc := by
  induction cs generalizing acc with
  | nil => rfl
  | cons c cs ih => exact ih _

private theorem foldNodesFields_eq (acc : α) (d : Depth) (fields : List (Con × Con)) :
    foldNodesFields f acc d fields =
      (fields.flatMap fun field => [field.1, field.2]).foldl (fun acc p => foldNodes f acc d p)
        acc := by
  induction fields generalizing acc with
  | nil => rfl
  | cons field fields ih => exact ih _

/-- A visit is the node and then its parts from left to right. -/
theorem foldNodes_step (acc : α) (d : Depth) (c : Con) :
    foldNodes f acc d c =
      c.parts.foldl (fun acc p => foldNodes f acc (d + c.binders) p) (f acc d c) := by
  cases c with
  | mvar v spine | tuple spine => exact foldNodesList_eq _ d spine
  | row k fields => exact foldNodesFields_eq _ d fields
  | _ => rfl

/-- A visit to nodes that add nothing. -/
theorem foldNodes_self {d : Depth} {c : Con} (h : Nodes (fun e n => ∀ acc, f acc e n = acc) d c)
    (acc : α) : foldNodes f acc d c = acc := by
  induction h generalizing acc with
  | @intro d c top _ ih =>
    have hparts : ∀ acc,
        c.parts.foldl (fun acc p => foldNodes f acc (d + c.binders) p) acc = acc := by
      generalize c.parts = ps at ih
      induction ps with
      | nil => exact fun _ => rfl
      | cons p ps ihs =>
        obtain ⟨hp, hps⟩ := List.forall_mem_cons.mp ih
        intro acc
        rw [List.foldl_cons, hp, ihs hps]
    rw [foldNodes_step, top, hparts]

theorem sizeOf_part_lt {c p : Con} (hp : p ∈ c.parts) : sizeOf p < sizeOf c := by
  cases c with
  | mvar v spine | tuple spine =>
    have hlt := List.sizeOf_lt_of_mem (show p ∈ spine from hp)
    simp only [mvar.sizeOf_spec, tuple.sizeOf_spec]
    omega
  | row k fields =>
    obtain ⟨⟨name, value⟩, hfield, hp⟩ := List.mem_flatMap.mp hp
    have hlt := List.sizeOf_lt_of_mem hfield
    rw [Prod.mk.sizeOf_spec] at hlt
    rw [row.sizeOf_spec]
    rcases List.mem_pair.mp hp with rfl | rfl <;> omega
  | app | arrow | concat | proj | map =>
    rcases List.mem_pair.mp hp with rfl | rfl <;> simp <;> omega
  | disjoint =>
    rcases List.mem_cons.mp hp with rfl | hp
    · simp
      omega
    · rcases List.mem_pair.mp hp with rfl | rfl <;> simp <;> omega
  | record | variant =>
    obtain rfl := List.mem_singleton.mp hp
    simp
  | kapp | abs | kabs | poly | kpoly | component =>
    obtain rfl := List.mem_singleton.mp hp
    simp only [kapp.sizeOf_spec, abs.sizeOf_spec, kabs.sizeOf_spec, poly.sizeOf_spec,
      kpoly.sizeOf_spec, component.sizeOf_spec]
    omega
  | prim | unit | error | bvar | global | member | relative | skolem | label => cases hp

end Visit

/-! ## Occurrences -/

section Collect

variable {α : Type} {c : Con}

/-- The metavariable that is the outermost node. -/
def headMVar : Con → List MetaId
  | .mvar v _ => [v]
  | _ => []

/-- The metavariables that are written in `c`, once for every place, from left to right. -/
def occurrences (c : Con) : List MetaId :=
  c.foldNodes (fun vs _ node => vs ++ node.headMVar) [] Depth.zero

private theorem foldNodes_append (acc : List MetaId) (d : Depth) (c : Con) :
    c.foldNodes (fun vs _ node => vs ++ node.headMVar) acc d = acc ++ c.occurrences := by
  induction c using inductionOnParts generalizing acc d with
  | step c ih =>
    have hparts : ∀ (acc : List MetaId) (e : Depth),
        c.parts.foldl (fun acc p => p.foldNodes (fun vs _ node => vs ++ node.headMVar) acc e) acc =
          acc ++ c.parts.flatMap occurrences := by
      intro acc e
      rw [List.flatMap_def, ← List.foldl_append_eq_append]
      exact List.foldl_ext _ _ _ fun acc p hp => ih p hp acc e
    rw [occurrences, foldNodes_step, foldNodes_step, hparts, hparts, List.nil_append,
      List.append_assoc]

/-- What is written in a node is the node, then what is written in its parts. -/
theorem occurrences_step (c : Con) :
    c.occurrences = c.headMVar ++ c.parts.flatMap occurrences := by
  rw [occurrences, foldNodes_step, List.nil_append, List.flatMap_def,
    ← List.foldl_append_eq_append]
  exact List.foldl_ext _ _ _ fun acc p _ => foldNodes_append acc _ p

theorem mem_occurrences {v : MetaId} : v ∈ c.occurrences ↔ c.Mentions v := by
  induction c using inductionOnParts with
  | step c ih =>
    rw [occurrences_step, List.mem_append, List.mem_flatMap]
    refine ⟨?_, fun h => ?_⟩
    · rintro (h | ⟨p, hp, h⟩)
      · cases c with
        | mvar w spine =>
          obtain rfl := List.mem_singleton.mp h
          exact .here spine
        | _ => cases h
      · exact .part hp ((ih p hp).mp h)
    · cases h with
      | here spine => exact .inl (List.mem_singleton_self v)
      | part hp h => exact .inr ⟨_, hp, (ih _ hp).mpr h⟩

/-- A visit that adds the metavariables to something, one by one. -/
private theorem foldNodes_foldl (add : α → MetaId → α) (acc : α) (d : Depth) (c : Con) :
    c.foldNodes (fun acc _ node => node.headMVar.foldl add acc) acc d =
      c.occurrences.foldl add acc := by
  induction c using inductionOnParts generalizing acc d with
  | step c ih =>
    rw [foldNodes_step, occurrences_step, List.foldl_append, List.foldl_flatMap]
    exact List.foldl_ext _ _ _ fun acc p hp => ih p hp acc _

/-- Adding what is not there yet. -/
private theorem foldl_insert (vs seen : List MetaId) :
    vs.foldl (fun seen v => if seen.contains v then seen else seen ++ [v]) seen =
      seen ++ (vs.filter fun v => !seen.contains v).eraseDups := by
  induction vs generalizing seen with
  | nil => simp
  | cons v vs ih =>
    rw [List.foldl_cons, ih]
    split
    next h => rw [List.filter_cons_of_neg (by simpa using h)]
    next h =>
      rw [List.filter_cons_of_pos (by simpa using h), List.eraseDups_cons, List.filter_filter,
        List.append_assoc, List.singleton_append]
      refine congrArg (fun vs => seen ++ v :: vs.eraseDups) (List.filter_congr fun w _ => ?_)
      by_cases hw : w = v <;> simp [hw]

/-- The metavariables are listed at their first occurrences. -/
theorem mvars_eq_eraseDups (c : Con) : c.mvars = c.occurrences.eraseDups := by
  have hmvars : c.mvars = c.foldNodes (fun seen _ node => node.headMVar.foldl
      (fun seen v => if seen.contains v then seen else seen ++ [v]) seen) [] Depth.zero := by
    unfold mvars
    congr 1
    funext seen _ node
    cases node <;> rfl
  rw [hmvars, foldNodes_foldl, foldl_insert, List.nil_append, List.filter_eq_self.mpr (by simp)]

end Collect

end Con

end RowML
