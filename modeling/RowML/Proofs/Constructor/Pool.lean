import RowML.Constructor.Pool
import RowML.Proofs.Constructor.Mention

/-!
# What a pool stores

Nodes are only added to a pool, and what is stored of a node is computed from what is stored of its
parts.  So what is stored at an index of a pool that has been built by interning is what would be
computed of the whole constructor that the index stands for, and that says what occurs in it.
-/

namespace RowML

namespace Node

variable {α β γ : Type} {n : Node α}

theorem mapParts_congr {f g : α → β} (h : ∀ p ∈ n.parts, f p = g p) :
    n.mapParts f = n.mapParts g := by
  cases n with
  | mvar v spine | tuple spine =>
    exact congrArg _ (List.map_congr_left h)
  | row k fields =>
    refine congrArg _ (List.map_congr_left fun field hfield => ?_)
    have hmem : ∀ p ∈ [field.1, field.2], f p = g p := fun p hp =>
      h p (List.mem_flatMap.mpr ⟨field, hfield, hp⟩)
    rw [hmem _ (by simp), hmem _ (by simp)]
  | _ => simp_all [mapParts, parts]

theorem mapParts_mapParts (f : β → γ) (g : α → β) (n : Node α) :
    (n.mapParts g).mapParts f = n.mapParts fun p => f (g p) := by
  cases n with
  | mvar _ cs | tuple cs => exact congrArg _ (List.map_map ..)
  | row _ fields => exact congrArg _ (List.map_map ..)
  | _ => rfl

theorem mapParts_id (n : Node α) : n.mapParts (fun p => p) = n := by
  cases n with
  | mvar _ cs | tuple cs => exact congrArg _ (List.map_id' cs)
  | row _ fields => exact congrArg _ (List.map_id' fields)
  | _ => rfl

theorem parts_mapParts (f : α → β) (n : Node α) : (n.mapParts f).parts = n.parts.map f := by
  cases n with
  | row k fields =>
    change (fields.map _).flatMap _ = (fields.flatMap _).map f
    rw [List.flatMap_map, List.map_flatMap]
    rfl
  | _ => rfl

/-- The outermost node of a constructor. -/
def ofCon : Con → Node Con
  | .prim p => .prim p
  | .unit => .unit
  | .error => .error
  | .bvar i => .bvar i
  | .global d => .global d
  | .member m p x => .member m p x
  | .relative l p x => .relative l p x
  | .skolem s => .skolem s
  | .mvar v spine => .mvar v spine
  | .app f a => .app f a
  | .abs x k body => .abs x k body
  | .kabs x body => .kabs x body
  | .kapp f k => .kapp f k
  | .arrow a b => .arrow a b
  | .poly x implicit k body => .poly x implicit k body
  | .kpoly x body => .kpoly x body
  | .disjoint l r body => .disjoint l r body
  | .record r => .record r
  | .variant r => .variant r
  | .row k fields => .row k fields
  | .label x => .label x
  | .concat l r => .concat l r
  | .map d c f r => .map d c f r
  | .proj r f => .proj r f
  | .tuple cs => .tuple cs
  | .component t i => .component t i

theorem toCon_ofCon (c : Con) : (ofCon c).toCon = c := by
  cases c <;> rfl

theorem parts_ofCon (c : Con) : (ofCon c).parts = c.parts := by
  cases c <;> rfl

end Node

/-! ## What is known of a node -/

/-- What the passes go by. -/
def Con.metadata (c : Con) : Metadata := ⟨fun feature => c.has feature, c.bound⟩

section Join

variable {m : Metadata} {cs : List Con} {feature : Feature} {b : Nat}

private theorem has_foldl : ((cs.map Con.metadata).foldl .join m).has feature = false ↔
    m.has feature = false ∧ ∀ c ∈ cs, c.has feature = false := by
  induction cs generalizing m with
  | nil => simp
  | cons c cs ih =>
    rw [List.map_cons, List.foldl_cons, ih, List.forall_mem_cons, Metadata.join,
      Bool.or_eq_false_iff, and_assoc]
    rfl

private theorem bound_foldl :
    ((cs.map Con.metadata).foldl .join m).bound ≤ b ↔ m.bound ≤ b ∧ ∀ c ∈ cs, c.bound ≤ b := by
  induction cs generalizing m with
  | nil => simp
  | cons c cs ih =>
    rw [List.map_cons, List.foldl_cons, ih, List.forall_mem_cons, Metadata.join, Nat.max_le,
      and_assoc]
    rfl

/-- The fields of a row, joined one by one, are its names and values in turn. -/
private theorem foldl_fields (m : Metadata) (fields : List (Con × Con)) :
    (fields.map fun field => (field.1.metadata, field.2.metadata)).foldl
        (fun m field => (m.join field.1).join field.2) m =
      ((fields.flatMap fun field => [field.1, field.2]).map Con.metadata).foldl .join m := by
  induction fields generalizing m with
  | nil => rfl
  | cons field fields ih => exact ih _

end Join

namespace Node

private theorem has_metadata (n : Node Con) (feature : Feature) :
    n.toCon.has feature = false ↔ (n.mapParts Con.metadata).metadata.has feature = false := by
  rw [Con.has_iff_parts]
  cases n with
  | prim | unit | error | bvar | global | member | relative | skolem | label =>
    rw [and_iff_left (by simp [toCon, Con.parts])]
    cases feature <;> exact Iff.rfl
  | mvar v cs | tuple cs =>
    rw [mapParts, metadata, has_foldl]
    refine and_congr_left' ?_
    cases feature <;> exact Iff.rfl
  | row k fields =>
    rw [mapParts, metadata, foldl_fields, has_foldl]
    refine and_congr_left' ?_
    cases feature <;> simp [Metadata.ofKind, toCon, Con.exhibits, Con.annotations]
  | app | concat | proj | component =>
    simp only [mapParts, metadata, Metadata.join, Bool.or_eq_false_iff, and_assoc, toCon,
      Con.parts, List.forall_mem_cons, List.not_mem_nil, false_imp_iff, implies_true, and_true]
    refine and_congr_left' ?_
    cases feature <;> exact Iff.rfl
  | arrow | disjoint | record | variant | kabs | kpoly =>
    simp only [mapParts, metadata, Metadata.join, Bool.or_eq_false_iff, and_assoc, toCon,
      Con.parts, List.forall_mem_cons, List.not_mem_nil, false_imp_iff, implies_true, and_true]
    refine and_iff_right ?_
    cases feature <;> rfl
  | abs | poly | kapp | map =>
    cases feature <;> simp [mapParts, metadata, Con.metadata, Metadata.ofFeatures,
      Metadata.ofKind, Metadata.join, Metadata.underCon, toCon, Con.parts, Con.exhibits,
      Con.annotations, and_assoc]

private theorem bound_metadata (n : Node Con) (b : Nat) :
    n.toCon.bound ≤ b ↔ (n.mapParts Con.metadata).metadata.bound ≤ b := by
  rw [Con.bound_le_iff_parts]
  cases n with
  | mvar v cs | tuple cs =>
    rw [mapParts, metadata, bound_foldl]
    simp [toCon, Con.parts, Con.binders, Metadata.ofFeatures, Metadata.empty]
  | row k fields =>
    rw [mapParts, metadata, foldl_fields, bound_foldl]
    simp [toCon, Con.parts, Con.binders, Metadata.ofKind]
  | _ =>
    simp [mapParts, metadata, Con.metadata, Metadata.ofFeatures, Metadata.empty, Metadata.ofKind,
      Metadata.join, Metadata.underCon, toCon, Con.parts, Con.binders, Nat.max_le,
      Nat.succ_le_iff]

/-- What is known of a constructor is known of its outermost node. -/
theorem metadata_toCon (n : Node Con) : n.toCon.metadata = (n.mapParts Con.metadata).metadata := by
  have hbool : ∀ {a b : Bool}, (a = false ↔ b = false) → a = b := by decide
  refine Metadata.ext (funext fun feature => hbool (n.has_metadata feature)) ?_
  exact Nat.le_antisymm ((n.bound_metadata _).mpr (Nat.le_refl _))
    ((n.bound_metadata _).mp (Nat.le_refl _))

end Node

namespace Pool

variable {pool : Pool} {node : Node Nat} {i : Nat}

/-! ## Interning, one node at a time -/

/-- The pools that are built by interning, with parts that are there already. -/
inductive Built : Pool → Prop where
  | empty : Built empty
  | intern {pool : Pool} {node : Node Nat} (h : Built pool)
      (hparts : ∀ i ∈ node.parts, i < pool.nodes.size) : Built ((intern node).run pool).2

/-- The constructor at an index. -/
def constructor? (pool : Pool) (index : Nat) : Option Con := pool.constructors[index]?

/-- The constructor that a node makes of the constructors at its parts. -/
def built (pool : Pool) (node : Node Nat) : Con :=
  (node.mapParts fun i => (pool.constructor? i).getD .unit).toCon

theorem constructors_push (pool : Pool) (node : Node Nat) :
    (pool.push node).constructors = pool.constructors.push (pool.built node) := by
  simp [constructors, push, built, constructor?]

theorem size_constructors (pool : Pool) : pool.constructors.size = pool.nodes.size :=
  Array.foldl_induction (fun i (cs : Array Con) => cs.size = i) rfl fun _ _ h => by
    rw [Array.size_push, h]

/-- Interning gives back the index of an equal node, or adds the node at the end. -/
theorem intern_cases (pool : Pool) (node : Node Nat) :
    (∃ i, pool.nodes[i]? = some node ∧ (intern node).run pool = (i, pool)) ∨
      (intern node).run pool = (pool.nodes.size, pool.push node) := by
  unfold intern
  rw [StateT.run_bind, StateT.run_get, pure_bind]
  cases h : pool.nodes.finIdxOf? node with
  | some i =>
    have hi := (Array.finIdxOf?_eq_some_iff.mp h).1
    exact .inl ⟨i, Array.getElem?_eq_some_iff.mpr ⟨i.isLt, hi⟩, rfl⟩
  | none => exact .inr rfl

/-- A new node is added. -/
theorem run_intern (hnew : node ∉ pool.nodes.toList) :
    (intern node).run pool = (pool.nodes.size, pool.push node) := by
  rcases intern_cases pool node with ⟨i, hi, -⟩ | hrun
  · exact absurd (Array.mem_toList_iff.mpr (Array.mem_of_getElem? hi)) hnew
  · exact hrun

@[simp] theorem nodes_push (pool : Pool) (node : Node Nat) :
    (pool.push node).nodes = pool.nodes.push node := rfl

namespace Built

theorem push (h : pool.Built) (hnew : node ∉ pool.nodes.toList)
    (hparts : ∀ i ∈ node.parts, i < pool.nodes.size) : (pool.push node).Built := by
  have hintern := h.intern hparts
  rwa [run_intern hnew] at hintern

/-- What is stored is what would be computed of the whole constructors. -/
theorem exact (h : pool.Built) : pool.metadata = pool.constructors.map Con.metadata := by
  induction h with
  | empty => simp [Pool.empty, constructors]
  | @intern pool node h hparts ih =>
    rcases intern_cases pool node with ⟨i, -, hrun⟩ | hrun
    · rwa [hrun]
    · rw [hrun, constructors_push, Array.map_push, Pool.push, ih, built, Node.metadata_toCon,
        Node.mapParts_mapParts]
      refine congrArg (Array.push _) (congrArg _ (Node.mapParts_congr fun p hp => ?_))
      have hp' : p < pool.constructors.size := size_constructors pool ▸ hparts p hp
      simp [metadataAt, constructor?, ih, hp']

/-- What is stored of a constructor is what would be computed of the whole of it. -/
theorem metadataAt_eq (h : pool.Built) {c : Con} (hi : pool.constructor? i = some c) :
    pool.metadataAt i = c.metadata := by
  have hi : pool.constructors[i]? = some c := hi
  rw [metadataAt, h.exact, Array.getElem?_map, hi]
  rfl

end Built

/-- New nodes are added in order, so each may have parts among those before it. -/
theorem Built.forM {nodes : List (Node Nat)} (h : pool.Built)
    (hnew : (pool.nodes.toList ++ nodes).Nodup)
    (hparts : ∀ n (hn : n < nodes.length), ∀ p ∈ nodes[n].parts, p < pool.nodes.size + n) :
    ((nodes.forM fun node => discard (Pool.intern node)).run pool).2.Built := by
  induction nodes generalizing pool with
  | nil => exact h
  | cons node nodes ih =>
    have hnode : node ∉ pool.nodes.toList := fun hmem =>
      (List.nodup_append.mp hnew).2.2 node hmem node List.mem_cons_self rfl
    have hrest := ih (h.push hnode (hparts 0 (by simp))) (by simpa [Pool.push] using hnew)
      fun n hn p hp => by
        have := hparts (n + 1) (Nat.succ_lt_succ hn) p hp
        rw [Pool.push, Array.size_push]
        omega
    change ((nodes.forM fun node => discard (Pool.intern node)).run
      ((Pool.intern node).run pool).2).2.Built
    rw [run_intern hnode]
    exact hrest

/-- The pool that every session starts with is built by interning. -/
theorem built_initial : initial.Built := Built.empty.forM (by decide) (by decide)

/-- Whatever `pool` holds is at the same index of `pool'`. -/
def Extends (pool pool' : Pool) : Prop :=
  ∀ i c, pool.constructor? i = some c → pool'.constructor? i = some c

theorem lt_of_constructor? {c : Con} (h : pool.constructor? i = some c) : i < pool.nodes.size :=
  size_constructors pool ▸ (Array.getElem?_eq_some_iff.mp h).1

theorem Extends.built_eq {pool' : Pool} (h : pool.Extends pool')
    (hparts : ∀ i ∈ node.parts, i < pool.nodes.size) : pool'.built node = pool.built node := by
  refine congrArg Node.toCon (Node.mapParts_congr fun i hi => ?_)
  have hi' : i < pool.constructors.size := size_constructors pool ▸ hparts i hi
  rw [h _ _ (Array.getElem?_eq_getElem hi'), constructor?, Array.getElem?_eq_getElem hi']

theorem extends_intern (pool : Pool) (node : Node Nat) :
    pool.Extends ((intern node).run pool).2 := by
  intro i c hc
  rcases intern_cases pool node with ⟨j, -, hrun⟩ | hrun
  · rwa [hrun]
  · obtain ⟨hi, -⟩ := Array.getElem?_eq_some_iff.mp hc
    rw [hrun, constructor?, constructors_push, Array.getElem?_push_lt hi]
    exact hc ▸ (Array.getElem?_eq_getElem hi).symm

namespace Built

/-- The node at an index, with the constructors at its parts, is the constructor at the index. -/
theorem constructor?_eq (h : pool.Built) (hi : pool.nodes[i]? = some node) :
    pool.constructor? i = some (pool.built node) ∧ ∀ j ∈ node.parts, j < pool.nodes.size := by
  induction h generalizing i node with
  | empty => simp [Pool.empty] at hi
  | @intern pool new h hparts ih =>
    have hextends := extends_intern pool new
    rcases intern_cases pool new with ⟨k, -, hrun⟩ | hrun
    · rw [hrun] at hi ⊢
      exact ih hi
    rw [hrun] at hi hextends ⊢
    rw [nodes_push, Array.getElem?_push] at hi
    split at hi
    next hnew =>
      cases hi
      rw [hextends.built_eq hparts]
      refine ⟨?_, fun j hj => ?_⟩
      · rw [constructor?, constructors_push, hnew, ← size_constructors, Array.getElem?_push_size]
      · rw [nodes_push, Array.size_push]
        exact Nat.lt_succ_of_lt (hparts j hj)
    next =>
      obtain ⟨hconstructor, hlt⟩ := ih hi
      rw [hextends.built_eq hlt]
      refine ⟨hextends _ _ hconstructor, fun j hj => ?_⟩
      rw [nodes_push, Array.size_push]
      exact Nat.lt_succ_of_lt (hlt j hj)

/-- What interning gives back is the index of what has been interned. -/
theorem constructor?_intern (h : pool.Built) (node : Node Nat) :
    ((Pool.intern node).run pool).2.constructor? ((Pool.intern node).run pool).1 =
      some (pool.built node) := by
  rcases intern_cases pool node with ⟨k, hk, hrun⟩ | hrun
  · rw [hrun]
    exact (h.constructor?_eq hk).1
  · rw [hrun, constructor?, constructors_push, ← size_constructors, Array.getElem?_push_size]

private theorem exists_parts {cs : List Con} (h : pool.Built)
    (hcs : ∀ c ∈ cs, ∀ {pool : Pool}, pool.Built →
      ∃ pool' i, pool'.Built ∧ pool.Extends pool' ∧ pool'.constructor? i = some c) :
    ∃ pool', pool'.Built ∧ pool.Extends pool' ∧ ∀ c ∈ cs, ∃ i, pool'.constructor? i = some c := by
  induction cs generalizing pool with
  | nil => exact ⟨pool, h, fun _ _ hj => hj, by simp⟩
  | cons c cs ih =>
    obtain ⟨hc, hcs⟩ := List.forall_mem_cons.mp hcs
    obtain ⟨pool', i, h', hextends, hi⟩ := hc h
    obtain ⟨pool'', h'', hextends', hindices⟩ := ih h' hcs
    exact ⟨pool'', h'', fun j d hj => hextends' j d (hextends j d hj),
      List.forall_mem_cons.mpr ⟨⟨i, hextends' _ _ hi⟩, hindices⟩⟩

/-- Every constructor can be interned. -/
theorem exists_interned (h : pool.Built) (c : Con) :
    ∃ pool' i, pool'.Built ∧ pool.Extends pool' ∧ pool'.constructor? i = some c := by
  induction c using Con.inductionOnParts generalizing pool with
  | step c ih =>
    obtain ⟨pool', h', hextends, hindices⟩ := exists_parts h fun p hp _ h => ih p hp h
    choose! index hindex using hindices
    have hparts : ∀ i ∈ ((Node.ofCon c).mapParts index).parts, i < pool'.nodes.size := by
      rw [Node.parts_mapParts, Node.parts_ofCon]
      exact List.forall_mem_map.mpr fun p hp => lt_of_constructor? (hindex p hp)
    have hbuilt : pool'.built ((Node.ofCon c).mapParts index) = c := by
      have hself : (Node.ofCon c).mapParts (fun p => (pool'.constructor? (index p)).getD .unit) =
          (Node.ofCon c).mapParts fun p => p := by
        refine Node.mapParts_congr fun p hp => ?_
        rw [hindex p (Node.parts_ofCon c ▸ hp), Option.getD_some]
      rw [built, Node.mapParts_mapParts, hself, Node.mapParts_id, Node.toCon_ofCon]
    exact ⟨_, _, h'.intern hparts, fun j d hj => extends_intern pool' _ j d (hextends j d hj),
      (h'.constructor?_intern _).trans (congrArg some hbuilt)⟩

end Built

end Pool

end RowML
