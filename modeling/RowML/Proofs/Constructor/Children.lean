import RowML.Proofs.Constructor.Node
import RowML.Proofs.Execution
import Mathlib.Data.Sum.Basic

/-!
# Acting on what is below a node

What is below a node are kind annotations and constructors.  A pass over them is a loop over one
list, and the node is put together again from what the loop answers.
-/

namespace RowML

namespace Con

/-- What is below the outermost node, in the order in which a pass comes to it. -/
def children : Con → List (Kind ⊕ Con)
  | .kapp f k => [.inr f, .inl k]
  | c => c.annotations.map .inl ++ c.parts.map .inr

/-- The node of `c` over other children. -/
def withChildren (c : Con) (xs : List (Kind ⊕ Con)) : Con :=
  assemble c.frame (xs.filterMap Sum.getLeft?) (xs.filterMap Sum.getRight?)

/-- What a pass does to one child. -/
def onChild {m : Type → Type} [Monad m] (f : Con → m Con) (kind : Kind → m Kind) :
    Kind ⊕ Con → m (Kind ⊕ Con)
  | .inl k => .inl <$> kind k
  | .inr c => .inr <$> f c

private theorem filterMap_getLeft? (kinds : List Kind) (parts : List Con) :
    (kinds.map Sum.inl ++ parts.map Sum.inr).filterMap Sum.getLeft? = kinds := by
  rw [List.filterMap_append, List.filterMap_map, List.filterMap_map]
  change kinds.filterMap some ++ parts.filterMap (fun _ => none) = kinds
  simp

private theorem filterMap_getRight? (kinds : List Kind) (parts : List Con) :
    (kinds.map Sum.inl ++ parts.map Sum.inr).filterMap Sum.getRight? = parts := by
  rw [List.filterMap_append, List.filterMap_map, List.filterMap_map]
  change kinds.filterMap (fun _ => none) ++ parts.filterMap some = parts
  simp

theorem withChildren_append (c : Con) (kinds : List Kind) (parts : List Con) :
    c.withChildren (kinds.map .inl ++ parts.map .inr) = assemble c.frame kinds parts := by
  rw [withChildren, filterMap_getLeft?, filterMap_getRight?]

theorem filterMap_getLeft?_children (c : Con) :
    c.children.filterMap Sum.getLeft? = c.annotations := by
  cases c with
  | kapp => rfl
  | _ => exact filterMap_getLeft? _ _

theorem filterMap_getRight?_children (c : Con) :
    c.children.filterMap Sum.getRight? = c.parts := by
  cases c with
  | kapp => rfl
  | _ => exact filterMap_getRight? _ _

theorem withChildren_children (c : Con) : c.withChildren c.children = c := by
  rw [withChildren, filterMap_getLeft?_children, filterMap_getRight?_children, assemble_frame]

/-! ## Putting a node together -/

theorem flatMap_pairUp {α : Type} {xs : List α} {n : Nat} (h : xs.length = 2 * n) :
    ((pairUp xs).flatMap fun field => [field.1, field.2]) = xs ∧ (pairUp xs).length = n := by
  induction n generalizing xs with
  | zero =>
    rw [List.length_eq_zero_iff.mp h]
    exact ⟨rfl, rfl⟩
  | succ n ih =>
    match xs with
    | name :: value :: rest =>
      obtain ⟨hrest, hlength⟩ := @ih rest (by simpa [Nat.mul_add] using h)
      exact ⟨by simp [pairUp, hrest], by simp [pairUp, hlength]⟩

/-- A frame takes annotations and parts in the numbers that it asks for. -/
theorem assemble_spec {c : Con} {kinds : List Kind} {parts : List Con}
    (hkinds : kinds.length = c.annotations.length) (hparts : parts.length = c.parts.length) :
    (assemble c.frame kinds parts).frame = c.frame ∧
      (assemble c.frame kinds parts).annotations = kinds ∧
      (assemble c.frame kinds parts).parts = parts := by
  cases c with
  | row k fields =>
    obtain ⟨k, rfl⟩ := List.length_eq_one_iff.mp hkinds
    have hlength : (Con.row k fields).parts.length = 2 * fields.length := by
      simp [Con.parts, Nat.mul_comm]
    obtain ⟨hflat, hcount⟩ := flatMap_pairUp (hparts.trans hlength)
    exact ⟨by simp [assemble, frame, hcount], rfl, hflat⟩
  | mvar v spine | tuple spine =>
    obtain rfl := List.length_eq_zero_iff.mp hkinds
    change parts.length = spine.length at hparts
    exact ⟨by simp [assemble, frame, hparts], rfl, rfl⟩
  | app | arrow | concat | proj =>
    obtain rfl := List.length_eq_zero_iff.mp hkinds
    obtain ⟨a, b, rfl⟩ := List.length_eq_two.mp hparts
    exact ⟨rfl, rfl, rfl⟩
  | kabs | kpoly | record | variant | component =>
    obtain rfl := List.length_eq_zero_iff.mp hkinds
    obtain ⟨a, rfl⟩ := List.length_eq_one_iff.mp hparts
    exact ⟨rfl, rfl, rfl⟩
  | abs | poly | kapp =>
    obtain ⟨k, rfl⟩ := List.length_eq_one_iff.mp hkinds
    obtain ⟨a, rfl⟩ := List.length_eq_one_iff.mp hparts
    exact ⟨rfl, rfl, rfl⟩
  | disjoint =>
    obtain rfl := List.length_eq_zero_iff.mp hkinds
    obtain ⟨a, b, c, rfl⟩ := List.length_eq_three.mp hparts
    exact ⟨rfl, rfl, rfl⟩
  | map =>
    obtain ⟨k, k', rfl⟩ := List.length_eq_two.mp hkinds
    obtain ⟨a, b, rfl⟩ := List.length_eq_two.mp hparts
    exact ⟨rfl, rfl, rfl⟩
  | prim | unit | error | bvar | global | member | relative | skolem | label =>
    obtain rfl := List.length_eq_zero_iff.mp hkinds
    obtain rfl := List.length_eq_zero_iff.mp hparts
    exact ⟨rfl, rfl, rfl⟩

section Pass

variable {m : Type → Type} [Monad m] {f : Con → m Con} {kind : Kind → m Kind}

private theorem mapM_inl [LawfulMonad m] (kinds : List Kind) :
    (kinds.map Sum.inl).mapM (onChild f kind) = List.map Sum.inl <$> kinds.mapM kind := by
  induction kinds with
  | nil => simp
  | cons k kinds ih =>
    rw [List.map_cons, List.mapM_cons, ih, List.mapM_cons]
    simp [onChild]

private theorem mapM_inr [LawfulMonad m] (cs : List Con) :
    (cs.map Sum.inr).mapM (onChild f kind) = List.map Sum.inr <$> cs.mapM f := by
  induction cs with
  | nil => simp
  | cons c cs ih =>
    rw [List.map_cons, List.mapM_cons, ih, List.mapM_cons]
    simp [onChild]

private theorem mapM_fields [LawfulMonad m] (fields : List (Con × Con)) :
    (fields.mapM fun field => do
      let name ← f field.1
      Prod.mk name <$> f field.2) =
      pairUp <$> (fields.flatMap fun field => [field.1, field.2]).mapM f := by
  induction fields with
  | nil => simp [pairUp]
  | cons field fields ih => simp [ih, pairUp]

private theorem mapM_append [LawfulMonad m] (c : Con) :
    c.withChildren <$> (c.annotations.map Sum.inl ++ c.parts.map Sum.inr).mapM (onChild f kind) =
      c.annotations.mapM kind >>= fun kinds => assemble c.frame kinds <$> c.parts.mapM f := by
  rw [List.mapM_append, mapM_inl, mapM_inr]
  simp only [map_eq_pure_bind, bind_assoc, pure_bind, withChildren_append]

/-- A pass over the children of a node is a loop. -/
theorem mapChildrenM_eq [LawfulMonad m] (c : Con) :
    c.mapChildrenM f kind = c.withChildren <$> c.children.mapM (onChild f kind) := by
  cases c with
  | kapp g k =>
    simp [mapChildrenM, children, onChild, withChildren, frame, assemble, List.filterMap_cons]
  | mvar v spine | tuple spine | row k fields =>
    rw [children, mapM_append]
    · simp [mapChildrenM, annotations, parts, frame, mapM_fields]
      rfl
    · simp
  | _ =>
    rw [children, mapM_append]
    · simp [mapChildrenM, annotations, parts, frame, assemble]
    · simp

end Pass

/-! ## What a pass establishes -/

/-- The same node over related children. -/
structure Parallel (kinds : Kind → Kind → Prop) (parts : Con → Con → Prop) (c c' : Con) : Prop where
  frame : c.frame = c'.frame
  annotations : List.Forall₂ kinds c.annotations c'.annotations
  parts : List.Forall₂ parts c.parts c'.parts

theorem inl_mem_children {c : Con} {k : Kind} : .inl k ∈ c.children ↔ k ∈ c.annotations := by
  cases c <;> simp [children, annotations]

theorem inr_mem_children {c p : Con} : .inr p ∈ c.children ↔ p ∈ c.parts := by
  cases c <;> simp [children, parts, annotations]

private theorem filterMap_related {kinds : Kind → Kind → Prop} {parts : Con → Con → Prop}
    {xs ys : List (Kind ⊕ Con)} (h : List.Forall₂ (Sum.LiftRel kinds parts) xs ys) :
    List.Forall₂ kinds (xs.filterMap Sum.getLeft?) (ys.filterMap Sum.getLeft?) ∧
      List.Forall₂ parts (xs.filterMap Sum.getRight?) (ys.filterMap Sum.getRight?) := by
  induction h with
  | nil => exact ⟨.nil, .nil⟩
  | cons hxy _ ih =>
    cases hxy with
    | inl hk => exact ⟨.cons hk ih.1, ih.2⟩
    | inr hp => exact ⟨ih.1, .cons hp ih.2⟩

theorem parallel_withChildren {kinds : Kind → Kind → Prop} {parts : Con → Con → Prop} {c : Con}
    {xs : List (Kind ⊕ Con)} (h : List.Forall₂ (Sum.LiftRel kinds parts) c.children xs) :
    Parallel kinds parts c (c.withChildren xs) := by
  obtain ⟨hkinds, hparts⟩ := filterMap_related h
  rw [filterMap_getLeft?_children] at hkinds
  rw [filterMap_getRight?_children] at hparts
  obtain ⟨hframe, hannotations, hparts'⟩ :=
    assemble_spec hkinds.length_eq.symm hparts.length_eq.symm
  exact ⟨hframe.symm, by rwa [withChildren, hannotations], by rwa [withChildren, hparts']⟩

private theorem children_of_ne_kapp {c : Con} (h : ∀ f k, c ≠ .kapp f k) :
    c.children = c.annotations.map .inl ++ c.parts.map .inr := by
  cases c with
  | kapp f k => exact absurd rfl (h f k)
  | _ => rfl

private theorem eq_kapp_of_frame {c f : Con} {k : Kind} (h : c.frame = (Con.kapp f k).frame) :
    ∃ f' k', c = .kapp f' k' := by
  cases c with
  | kapp f' k' => exact ⟨f', k', rfl⟩
  | _ => cases h

/-- A node over related children has related children, in the order in which a pass comes to
them. -/
theorem Parallel.children {kinds : Kind → Kind → Prop} {parts : Con → Con → Prop} {c c' : Con}
    (h : Parallel kinds parts c c') :
    List.Forall₂ (Sum.LiftRel kinds parts) c.children c'.children := by
  have happend : ∀ {ks ks' : List Kind} {ps ps' : List Con}, List.Forall₂ kinds ks ks' →
      List.Forall₂ parts ps ps' → List.Forall₂ (Sum.LiftRel kinds parts)
        (ks.map .inl ++ ps.map .inr) (ks'.map .inl ++ ps'.map .inr) := by
    intro ks ks' ps ps' hks hps
    refine List.rel_append ?_ ?_
    · rw [List.forall₂_map_left_iff, List.forall₂_map_right_iff]
      exact hks.imp fun _ _ hk => .inl hk
    · rw [List.forall₂_map_left_iff, List.forall₂_map_right_iff]
      exact hps.imp fun _ _ hp => .inr hp
  by_cases hkapp : ∃ f k, c = .kapp f k
  · obtain ⟨f, k, rfl⟩ := hkapp
    obtain ⟨f', k', rfl⟩ := eq_kapp_of_frame h.frame.symm
    exact .cons (.inr (List.forall₂_cons.mp h.parts).1)
      (.cons (.inl (List.forall₂_cons.mp h.annotations).1) .nil)
  · have hc : ∀ f k, c ≠ .kapp f k := fun f k hk => hkapp ⟨f, k, hk⟩
    have hc' : ∀ f k, c' ≠ .kapp f k := by
      rintro f k rfl
      obtain ⟨f', k', hk⟩ := eq_kapp_of_frame h.frame
      exact hc f' k' hk
    rw [children_of_ne_kapp hc, children_of_ne_kapp hc']
    exact happend h.annotations h.parts

section Yields

variable {m : Type → Type} {σ : Type} [Monad m] [Executes m σ] [LawfulMonad m] {f : Con → m Con}
  {kind : Kind → m Kind} {c : Con} {s : σ}

theorem mapChildrenM_yields {D : Discipline σ} {K : Kind → Kind → σ → Prop}
    {Q : Con → Con → σ → Prop} (ok : D.Ok s)
    (grows_K : ∀ {k k' s s'}, D.Ok s' → D.Grows s s' → K k k' s → K k k' s')
    (grows_Q : ∀ {p p' s s'}, D.Ok s' → D.Grows s s' → Q p p' s → Q p p' s')
    (hkind : ∀ k ∈ c.annotations, ∀ s', D.Ok s' → D.Grows s s' → Yields D s' (kind k) (K k))
    (hf : ∀ p ∈ c.parts, ∀ s', D.Ok s' → D.Grows s s' → Yields D s' (f p) (Q p)) :
    Yields D s (c.mapChildrenM f kind) fun c' s' =>
      Parallel (fun k k' => K k k' s') (fun p p' => Q p p' s') c c' := by
  rw [mapChildrenM_eq]
  refine .map ok (Yields.mono (Yields.mapM (Q := fun x y s =>
    Sum.LiftRel (fun k k' => K k k' s) (fun p p' => Q p p' s) x y) ok ?_ ?_) fun xs s' _ _ h =>
      parallel_withChildren h)
  · rintro _ _ s s' ok' grows (⟨hk⟩ | ⟨hp⟩)
    · exact .inl (grows_K ok' grows hk)
    · exact .inr (grows_Q ok' grows hp)
  · rintro (k | p) hx s' ok' grows
    · exact .map ok' ((hkind k (inl_mem_children.mp hx) s' ok' grows).mono fun _ _ _ _ h => .inl h)
    · exact .map ok' ((hf p (inr_mem_children.mp hx) s' ok' grows).mono fun _ _ _ _ h => .inr h)

private theorem exec_map {α β : Type} {g : α → β} {x : m α} {a : α} {s' : σ}
    (h : exec x s = some (some a, s')) : exec (g <$> x) s = some (some (g a), s') := by
  rw [map_eq_pure_bind, exec_bind, h]
  exact exec_pure _ _

private theorem exec_mapM_self {α : Type} {g : α → m α} {xs : List α}
    (h : ∀ x ∈ xs, exec (g x) s = some (some x, s)) :
    exec (xs.mapM g) s = some (some xs, s) := by
  induction xs with
  | nil => exact exec_pure _ _
  | cons x xs ih =>
    obtain ⟨hx, hxs⟩ := List.forall_mem_cons.mp h
    rw [List.mapM_cons, exec_bind, hx]
    simp only [exec_bind, ih hxs, exec_pure]

/-- A pass that leaves every child alone leaves the node alone. -/
theorem exec_mapChildrenM_self (hkind : ∀ k ∈ c.annotations, exec (kind k) s = some (some k, s))
    (hf : ∀ p ∈ c.parts, exec (f p) s = some (some p, s)) :
    exec (c.mapChildrenM f kind) s = some (some c, s) := by
  have hchildren : exec (c.children.mapM (onChild f kind)) s = some (some c.children, s) := by
    refine exec_mapM_self ?_
    rintro (k | p) hx
    · exact exec_map (hkind k (inl_mem_children.mp hx))
    · exact exec_map (hf p (inr_mem_children.mp hx))
  rw [mapChildrenM_eq, exec_map hchildren, withChildren_children]

end Yields

end Con

end RowML
