import RowML.Proofs.Constructor.Node

/-!
# Bounds and features

What is known of a constructor, read as statements about every node: the bound of a constructor
limits its free variables, a missing feature is exhibited by no node.  `Free` and `Occurs` say what
that is without counting: the bound is one past the largest free variable, and a feature is there
exactly if a node that exhibits it occurs.
-/

namespace RowML

namespace Con

section Fold

variable {α : Type} {f : α → Depth → Con → α} {P : α → Prop} {Q : Depth → Con → Prop}

mutual
/-- If one step of a fold adds the condition `Q` of the node, the fold adds it for all nodes. -/
theorem foldNodes_iff (hf : ∀ acc d n, P (f acc d n) ↔ P acc ∧ Q d n) (c : Con) (acc : α)
    (d : Depth) : P (foldNodes f acc d c) ↔ P acc ∧ Nodes Q d c := by
  cases c with
  | prim | unit | error | bvar | global | member | relative | skolem | label =>
    rw [Nodes.iff]
    simp [foldNodes, hf, parts]
  | mvar v spine =>
    rw [Nodes.iff]
    simp [foldNodes, foldNodesList_iff hf spine, hf, parts, binders, and_assoc]
  | tuple cs =>
    rw [Nodes.iff]
    simp [foldNodes, foldNodesList_iff hf cs, hf, parts, binders, and_assoc]
  | row k fields =>
    rw [Nodes.iff]
    simp only [foldNodes, foldNodesFields_iff hf fields, hf, parts, binders, and_assoc,
      Depth.add_zero]
  | app g a | arrow g a | concat g a | proj g a | map k₁ k₂ g a =>
    rw [Nodes.iff]
    simp [foldNodes, foldNodes_iff hf g, foldNodes_iff hf a, hf, parts, binders, and_assoc]
  | abs x k body | poly x i k body | kabs x body | kpoly x body =>
    rw [Nodes.iff]
    simp only [foldNodes, foldNodes_iff hf body, hf, parts, List.mem_singleton, forall_eq,
      and_assoc]
    rfl
  | kapp r k | record r | variant r | component r i =>
    rw [Nodes.iff]
    simp [foldNodes, foldNodes_iff hf r, hf, parts, binders, and_assoc]
  | disjoint l r body =>
    rw [Nodes.iff]
    simp [foldNodes, foldNodes_iff hf l, foldNodes_iff hf r, foldNodes_iff hf body, hf, parts,
      binders, and_assoc]
private theorem foldNodesList_iff (hf : ∀ acc d n, P (f acc d n) ↔ P acc ∧ Q d n)
    (cs : List Con) (acc : α) (d : Depth) :
    P (foldNodesList f acc d cs) ↔ P acc ∧ ∀ c ∈ cs, Nodes Q d c := by
  cases cs with
  | nil => simp [foldNodesList]
  | cons c cs =>
    simp [foldNodesList, foldNodesList_iff hf cs, foldNodes_iff hf c, and_assoc]
private theorem foldNodesFields_iff (hf : ∀ acc d n, P (f acc d n) ↔ P acc ∧ Q d n)
    (fields : List (Con × Con)) (acc : α) (d : Depth) :
    P (foldNodesFields f acc d fields) ↔
      P acc ∧ ∀ c ∈ fields.flatMap fun field => [field.1, field.2], Nodes Q d c := by
  cases fields with
  | nil => simp [foldNodesFields]
  | cons field fields =>
    simp only [foldNodesFields, foldNodesFields_iff hf fields, foldNodes_iff hf field.1,
      foldNodes_iff hf field.2, and_assoc, List.flatMap_cons, List.cons_append, List.nil_append,
      List.forall_mem_cons]
end

end Fold

/-! ## Bounds -/

/-- What a node says about the bound of the constructor around it. -/
def WithinBound (n : Nat) (depth : Depth) (node : Con) : Prop :=
  ∀ i, node = .bvar i → i < depth.con + n

theorem bound_le_iff {c : Con} {n : Nat} :
    c.bound ≤ n ↔ Nodes (WithinBound n) Depth.zero c := by
  unfold bound
  rw [foldNodes_iff (P := (· ≤ n)) (Q := WithinBound n)]
  · simp
  · intro acc d node
    cases node <;> simp [WithinBound]
    omega

theorem withinBound_add (n : Nat) (d : Depth) : WithinBound (d.con + n) = fun e node =>
    WithinBound n (d + e) node := by
  funext e node
  simp only [WithinBound, Depth.add_con, eq_iff_iff]
  constructor <;> intro h i hi <;> have := h i hi <;> omega

/-- The bound of a constructor under binders. -/
theorem bound_le_add_iff {c : Con} {n : Nat} {d : Depth} :
    c.bound ≤ d.con + n ↔ Nodes (WithinBound n) d c := by
  rw [bound_le_iff, withinBound_add, ← Nodes.shift, Depth.add_zero]

/-- The bound of a node is decided by its parts. -/
theorem bound_le_iff_parts {c : Con} {n : Nat} :
    c.bound ≤ n ↔ (∀ i, c = .bvar i → i < n) ∧ ∀ p ∈ c.parts, p.bound ≤ n + c.binders.con := by
  rw [bound_le_iff, Nodes.iff]
  refine and_congr (by simp [WithinBound]) (forall₂_congr fun p _ => ?_)
  rw [Depth.zero_add, ← bound_le_add_iff, Nat.add_comm]

@[simp] theorem bound_bvar (i : Nat) : (Con.bvar i).bound = i + 1 := by
  simp [bound, foldNodes]

/-! ## Features -/

theorem has_eq_false_iff {c : Con} {feature : Feature} {d : Depth} :
    c.has feature = false ↔ Nodes (fun _ node => node.exhibits feature = false) d c := by
  have h := foldNodes_iff (f := fun found _ node => found || node.exhibits feature)
    (P := (· = false)) (Q := fun _ node => node.exhibits feature = false)
    (fun acc d n => by simp) c false Depth.zero
  unfold has
  rw [h]
  simp only [true_and]
  conv_rhs => rw [← Depth.add_zero d, Nodes.shift]

/-- The features of a node are those that it exhibits and those of its parts. -/
theorem has_iff_parts {c : Con} {feature : Feature} :
    c.has feature = false ↔ c.exhibits feature = false ∧ ∀ p ∈ c.parts, p.has feature = false := by
  rw [has_eq_false_iff (d := Depth.zero), Nodes.iff]
  exact and_congr Iff.rfl (forall₂_congr fun p _ => has_eq_false_iff.symm)

/-! ## Metavariables -/

/-- The metavariable `v` is written somewhere in a constructor. -/
inductive Mentions (v : MetaId) : Con → Prop where
  | here (spine : List Con) : Mentions v (.mvar v spine)
  | part {c p : Con} (hp : p ∈ c.parts) (h : Mentions v p) : Mentions v c

theorem mentions_iff {v : MetaId} {c : Con} :
    Mentions v c ↔ (∃ spine, c = .mvar v spine) ∨ ∃ p ∈ c.parts, Mentions v p := by
  constructor
  · intro h
    cases h with
    | here spine => exact .inl ⟨spine, rfl⟩
    | part hp h => exact .inr ⟨_, hp, h⟩
  · rintro (⟨spine, rfl⟩ | ⟨p, hp, h⟩)
    · exact .here spine
    · exact .part hp h

theorem not_mentions_of_parts {v : MetaId} {c : Con} (hmvar : ∀ spine, c ≠ .mvar v spine)
    (hparts : ∀ p ∈ c.parts, ¬ p.Mentions v) : ¬ c.Mentions v := by
  intro hv
  obtain ⟨spine, hspine⟩ | ⟨p, hp, hv⟩ := mentions_iff.mp hv
  · exact hmvar spine hspine
  · exact hparts p hp hv

theorem all_ne_mvar_iff {v : MetaId} {c : Con} :
    c.All (fun node => ∀ spine, node ≠ .mvar v spine) ↔ ¬ c.Mentions v := by
  induction c using inductionOnParts with
  | step c ih =>
    rw [All.iff, mentions_iff, not_or, not_exists]
    exact and_congr Iff.rfl (by simpa using forall₂_congr ih)

theorem not_mentions_of_has {v : MetaId} {c : Con} (h : c.has .mvar = false) : ¬ c.Mentions v := by
  intro hv
  have hnodes := has_eq_false_iff (d := Depth.zero).mp h
  clear h
  generalize Depth.zero = d at hnodes
  induction hv generalizing d with
  | here spine => cases hnodes.top
  | part hp _ ih => exact ih _ (hnodes.part _ hp)

theorem has_mvar_eq_false_iff {c : Con} : c.has .mvar = false ↔ ∀ v, ¬ c.Mentions v := by
  refine ⟨fun h _ => not_mentions_of_has h, fun h => ?_⟩
  induction c using inductionOnParts with
  | step c ih =>
    refine has_iff_parts.mpr ⟨?_, fun p hp => ih p hp fun v hv => h v (.part hp hv)⟩
    cases c with
    | mvar v spine => exact absurd (.here spine) (h v)
    | _ => rfl

theorem mvars_eq_nil_iff {c : Con} : c.mvars = [] ↔ c.has .mvar = false := by
  unfold mvars
  rw [foldNodes_iff (P := (· = [])) (Q := fun _ node => node.exhibits .mvar = false),
    ← has_eq_false_iff]
  · exact and_iff_right rfl
  · intro seen d node
    cases node with
    | mvar v spine =>
      by_cases hseen : v ∈ seen <;> simp [exhibits, hseen]
      exact List.ne_nil_of_mem hseen
    | _ => simp [exhibits]

end Con

namespace Con

/-! ## Free variables -/

/-- The variable `i` is free in a constructor. -/
inductive Free : Nat → Con → Prop where
  | here (i : Nat) : Free i (.bvar i)
  | part {i : Nat} {c p : Con} (hp : p ∈ c.parts) (h : Free (i + c.binders.con) p) : Free i c

theorem free_iff {i : Nat} {c : Con} :
    Free i c ↔ c = .bvar i ∨ ∃ p ∈ c.parts, Free (i + c.binders.con) p := by
  constructor
  · intro h
    cases h with
    | here => exact .inl rfl
    | part hp h => exact .inr ⟨_, hp, h⟩
  · rintro (rfl | ⟨p, hp, h⟩)
    · exact .here i
    · exact .part hp h

theorem Free.lt_bound {i : Nat} {c : Con} (h : Free i c) : i < c.bound := by
  induction h with
  | here i => simp
  | @part i c p hp _ ih =>
    have := (bound_le_iff_parts.mp (Nat.le_refl c.bound)).2 p hp
    omega

/-- The largest variable below a bound that is not too large is free. -/
theorem free_of_bound {i : Nat} {c : Con} (h : c.bound = i + 1) : Free i c := by
  induction c using inductionOnParts generalizing i with
  | step c ih =>
    by_contra hfree
    rw [free_iff, not_or] at hfree
    have hle : c.bound ≤ i := by
      refine bound_le_iff_parts.mpr ⟨fun j hj => ?_, fun p hp => ?_⟩
      · have hlt := (bound_le_iff_parts.mp (Nat.le_of_eq h)).1 j hj
        have hne : j ≠ i := by
          rintro rfl
          exact hfree.1 hj
        omega
      · have hlt := (bound_le_iff_parts.mp (Nat.le_of_eq h)).2 p hp
        by_contra hgt
        exact hfree.2 ⟨p, hp, ih p hp (by omega)⟩
    omega

/-- The bound is one past the largest free variable, and 0 if there is none. -/
theorem bound_exact (c : Con) :
    (c.bound = 0 ∧ ∀ i, ¬ Free i c) ∨
      ∃ i, c.bound = i + 1 ∧ Free i c ∧ ∀ j, Free j c → j ≤ i := by
  cases h : c.bound with
  | zero =>
    refine .inl ⟨rfl, fun i hi => ?_⟩
    have := hi.lt_bound
    omega
  | succ i =>
    refine .inr ⟨i, rfl, free_of_bound h, fun j hj => ?_⟩
    have := hj.lt_bound
    omega

/-- A property of the free variables, said of every variable by where it stands. -/
theorem nodes_iff_free {P : Nat → Prop} {c : Con} (d : Depth) :
    Nodes (fun e node => ∀ i, node = .bvar i → e.con ≤ i → P (i - e.con)) d c ↔
      ∀ i, Free i c → d.con ≤ i → P (i - d.con) := by
  induction c using inductionOnParts generalizing d with
  | step c ih =>
    rw [Nodes.iff]
    constructor
    · rintro ⟨htop, hparts⟩ i hfree hle
      rcases free_iff.mp hfree with hc | ⟨p, hp, hfree⟩
      · exact htop i hc hle
      · have h := (ih p hp _).mp (hparts p hp) _ hfree (Nat.add_le_add_right hle _)
        rwa [Depth.add_con, Nat.add_sub_add_right] at h
    · intro h
      refine ⟨?_, fun p hp => (ih p hp _).mpr fun j hfree hle => ?_⟩
      · rintro i rfl hle
        exact h i (.here i) hle
      · obtain ⟨i, rfl⟩ := Nat.exists_eq_add_of_le' (Nat.le_trans (Nat.le_add_left _ _) hle)
        rw [Depth.add_con, Nat.add_sub_add_right]
        exact h i (.part hp hfree) (Nat.le_of_add_le_add_right hle)

/-! ## Occurrences -/

/-- The node `node` occurs in a constructor. -/
inductive Occurs (node : Con) : Con → Prop where
  | here : Occurs node node
  | part {c p : Con} (hp : p ∈ c.parts) (h : Occurs node p) : Occurs node c

theorem occurs_iff {node c : Con} : Occurs node c ↔ c = node ∨ ∃ p ∈ c.parts, Occurs node p := by
  constructor
  · intro h
    cases h with
    | here => exact .inl rfl
    | part hp h => exact .inr ⟨_, hp, h⟩
  · rintro (rfl | ⟨p, hp, h⟩)
    · exact .here
    · exact .part hp h

/-- What holds of every node that occurs holds of every node. -/
theorem nodes_of_occurs {Q : Con → Prop} {c : Con} (h : ∀ node, Occurs node c → Q node)
    (d : Depth) : Nodes (fun _ => Q) d c := by
  induction c using inductionOnParts generalizing d with
  | step c ih =>
    refine .intro (h c .here) fun p hp => ?_
    exact ih p hp (fun node ho => h node (.part hp ho)) _

theorem Occurs.of_nodes {Q : Con → Prop} {node c : Con} {d : Depth} (h : Nodes (fun _ => Q) d c)
    (ho : Occurs node c) : Q node := by
  induction ho generalizing d with
  | here => exact h.top
  | part hp _ ih => exact ih (h.part _ hp)

/-- A constructor has a feature exactly if a node that exhibits it occurs. -/
theorem has_iff_occurs {c : Con} {feature : Feature} :
    c.has feature = true ↔ ∃ node, Occurs node c ∧ node.exhibits feature = true := by
  rw [← not_iff_not, Bool.not_eq_true, has_eq_false_iff (d := Depth.zero)]
  constructor
  · rintro h ⟨node, ho, hexhibits⟩
    rw [Occurs.of_nodes h ho] at hexhibits
    cases hexhibits
  · intro h
    refine nodes_of_occurs (fun node ho => ?_) _
    by_contra hexhibits
    exact h ⟨node, ho, by simpa using hexhibits⟩

/-- A feature that the nodes of one form exhibit. -/
theorem has_iff {feature : Feature} {P : Con → Prop}
    (h : ∀ n : Con, n.exhibits feature = true ↔ P n) (c : Con) :
    c.has feature = true ↔ ∃ n, P n ∧ Occurs n c := by
  simp only [has_iff_occurs, h, and_comm]

/-- The nodes that exhibit a feature, where these are of one form. -/
private theorem exhibits_iff (n : Con) :
    (n.exhibits .mvar = true ↔ ∃ v spine, n = .mvar v spine) ∧
    (n.exhibits .error = true ↔ n = .error) ∧
    (n.exhibits .skolem = true ↔ ∃ s, n = .skolem s) ∧
    (n.exhibits .relative = true ↔ ∃ level path item, n = .relative level path item) ∧
    (n.exhibits .member = true ↔ ∃ module path item, n = .member module path item) ∧
    (n.exhibits .global = true ↔ ∃ definition, n = .global definition) := by
  cases n <;> simp [exhibits]

theorem has_mvar_iff (c : Con) : c.has .mvar = true ↔ ∃ v spine, Occurs (.mvar v spine) c := by
  simpa using has_iff (fun n => (exhibits_iff n).1) c

theorem has_error_iff (c : Con) : c.has .error = true ↔ Occurs .error c := by
  simpa using has_iff (fun n => (exhibits_iff n).2.1) c

theorem has_skolem_iff (c : Con) : c.has .skolem = true ↔ ∃ s, Occurs (.skolem s) c := by
  simpa using has_iff (fun n => (exhibits_iff n).2.2.1) c

theorem has_relative_iff (c : Con) :
    c.has .relative = true ↔ ∃ level path item, Occurs (.relative level path item) c := by
  simpa using has_iff (fun n => (exhibits_iff n).2.2.2.1) c

theorem has_member_iff (c : Con) :
    c.has .member = true ↔ ∃ module path item, Occurs (.member module path item) c := by
  simpa using has_iff (fun n => (exhibits_iff n).2.2.2.2.1) c

theorem has_global_iff (c : Con) :
    c.has .global = true ↔ ∃ definition, Occurs (.global definition) c := by
  simpa using has_iff (fun n => (exhibits_iff n).2.2.2.2.2) c

/-! ## One node at a time -/

/-- A node has the features that it exhibits and those of its parts. -/
theorem has_node (feature : Feature) (c : Con) :
    c.has feature = (c.exhibits feature || c.parts.any (·.has feature)) := by
  rw [Bool.eq_iff_iff, has_iff_occurs, Bool.or_eq_true, List.any_eq_true]
  constructor
  · rintro ⟨node, ho, hexhibits⟩
    rcases occurs_iff.mp ho with rfl | ⟨p, hp, ho⟩
    · exact .inl hexhibits
    · exact .inr ⟨p, hp, has_iff_occurs.mpr ⟨node, ho, hexhibits⟩⟩
  · rintro (hexhibits | ⟨p, hp, hhas⟩)
    · exact ⟨c, .here, hexhibits⟩
    · obtain ⟨node, ho, hexhibits⟩ := has_iff_occurs.mp hhas
      exact ⟨node, .part hp ho, hexhibits⟩

end Con

end RowML
