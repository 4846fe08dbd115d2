import RowML.Proofs.Constructor.Node
import RowML.Proofs.Execution
import Mathlib.Data.List.Forall2

/-!
# Rebuilding passes

A pass over constructors is given by what it does at one node and at one kind annotation.  If that
establishes a relation between input and output wherever it replaces a node, and the relation passes
from the parts of a node to the node, then the whole pass establishes it.
-/

namespace RowML

namespace Con

section Pass

variable {m : Type → Type} {σ : Type} [Monad m] [Executes m σ]

/-- The relations that a pass is about: what it needs of a constructor and of a kind, what it
establishes between input and output, and what it has found out when it enters a node. -/
structure PassSpec (σ : Type) where
  Pre : σ → Depth → Con → Prop
  KindPre : σ → Depth → Kind → Prop
  Enters : σ → Depth → Con → Prop
  Post : σ → Depth → Con → Con → Prop
  KindPost : σ → Depth → Kind → Kind → Prop

/-- The output for a node that the hook replaced, or the right to enter the node. -/
def PassSpec.Hook (S : PassSpec σ) (depth : Depth) (c : Con) : Option Con → σ → Prop
  | some c', s => S.Post s depth c c'
  | none, s => S.Enters s depth c

/-- The output shares the node of the input, and annotations and parts are related. -/
structure PassSpec.Related (S : PassSpec σ) (s : σ) (depth : Depth) (c c' : Con) : Prop where
  frame : c.frame = c'.frame
  annotations : List.Forall₂ (S.KindPost s depth) c.annotations c'.annotations
  parts : List.Forall₂ (S.Post s (depth + c.binders)) c.parts c'.parts

/-- A hook at nodes and one at kinds that establish a specification, one node at a time. -/
structure Pass (D : Discipline σ) (S : PassSpec σ) (node : Depth → Con → m (Option Con))
    (kind : Depth → Kind → m Kind) : Prop where
  pre_grows : ∀ {s s' d c}, D.Ok s' → D.Grows s s' → S.Pre s d c → S.Pre s' d c
  kindPre_grows : ∀ {s s' d k}, D.Ok s' → D.Grows s s' → S.KindPre s d k → S.KindPre s' d k
  enters_grows : ∀ {s s' d c}, D.Ok s' → D.Grows s s' → S.Enters s d c → S.Enters s' d c
  post_grows : ∀ {s s' d c c'}, D.Ok s' → D.Grows s s' → S.Post s d c c' → S.Post s' d c c'
  kindPost_grows : ∀ {s s' d k k'}, D.Ok s' → D.Grows s s' → S.KindPost s d k k' →
    S.KindPost s' d k k'
  pre_part : ∀ {s d c p}, S.Pre s d c → p ∈ c.parts → S.Pre s (d + c.binders) p
  pre_kind : ∀ {s d c k}, S.Pre s d c → k ∈ c.annotations → S.KindPre s d k
  node_yields : ∀ {s d c}, D.Ok s → S.Pre s d c → Yields D s (node d c) (S.Hook d c)
  kind_yields : ∀ {s d k}, D.Ok s → S.KindPre s d k →
    Yields D s (kind d k) fun k' s' => S.KindPost s' d k k'
  close : ∀ {s d c c'}, D.Ok s → S.Pre s d c → S.Enters s d c → S.Related s d c c' →
    S.Post s d c c'

variable {D : Discipline σ} {S : PassSpec σ} {node : Depth → Con → m (Option Con)}
  {kind : Depth → Kind → m Kind}

namespace Pass

private theorem orRebuild_yields (P : Pass D S node kind) {s : σ} {d : Depth} {c : Con}
    {rebuild : Unit → m Con} (ok : D.Ok s) (pre : S.Pre s d c)
    (h : ∀ s', D.Ok s' → S.Pre s' d c →
      Yields D s' (rebuild ()) fun c' s'' => S.Related s'' d c c') :
    Yields D s (orRebuild (node d c) rebuild) fun c' s' => S.Post s' d c c' := by
  refine Yields.bind ok (P.node_yields ok pre) fun r s' ok' grows hook => ?_
  cases r with
  | some c' => exact Yields.pure ok' hook
  | none =>
    have pre' := P.pre_grows ok' grows pre
    refine (h s' ok' pre').mono fun c' s'' ok'' grows' related => ?_
    exact P.close ok'' (P.pre_grows ok'' grows' pre') (P.enters_grows ok'' grows' hook) related

private theorem leaf_yields (P : Pass D S node kind) {s : σ} {d : Depth} {c : Con}
    (hparts : c.parts = []) (hkinds : c.annotations = []) (ok : D.Ok s) (pre : S.Pre s d c) :
    Yields D s (orRebuild (node d c) fun _ => pure c) fun c' s' => S.Post s' d c c' := by
  refine P.orRebuild_yields ok pre fun s' ok' _ => Yields.pure ok' ⟨rfl, ?_, ?_⟩
  · rw [hkinds]
    exact .nil
  · rw [hparts]
    exact .nil

mutual
/-- A pass establishes its specification at every constructor. -/
theorem rebuildM_yields (P : Pass D S node kind) (c : Con) {s : σ} {d : Depth} (ok : D.Ok s)
    (pre : S.Pre s d c) : Yields D s (c.rebuildM node kind d) fun c' s' => S.Post s' d c c' := by
  cases c with
  | prim p => exact P.leaf_yields rfl rfl ok pre
  | unit => exact P.leaf_yields rfl rfl ok pre
  | error => exact P.leaf_yields rfl rfl ok pre
  | bvar i => exact P.leaf_yields rfl rfl ok pre
  | global i => exact P.leaf_yields rfl rfl ok pre
  | member i p x => exact P.leaf_yields rfl rfl ok pre
  | relative l p x => exact P.leaf_yields rfl rfl ok pre
  | skolem i => exact P.leaf_yields rfl rfl ok pre
  | label x => exact P.leaf_yields rfl rfl ok pre
  | mvar v spine =>
    refine P.orRebuild_yields ok pre fun s ok pre => ?_
    refine Yields.bind ok (rebuildListM_yields P spine ok fun p hp => P.pre_part pre hp) ?_
    intro spine' s ok _ h
    exact Yields.pure ok ⟨by simp [frame, h.length_eq], .nil, h⟩
  | tuple cs =>
    refine P.orRebuild_yields ok pre fun s ok pre => ?_
    refine Yields.bind ok (rebuildListM_yields P cs ok fun p hp => P.pre_part pre hp) ?_
    intro cs' s ok _ h
    exact Yields.pure ok ⟨by simp [frame, h.length_eq], .nil, h⟩
  | row k fields =>
    refine P.orRebuild_yields ok pre fun s ok pre => ?_
    refine Yields.bind ok (P.kind_yields ok (P.pre_kind pre (by simp [annotations]))) ?_
    intro k' s ok grows hk
    refine Yields.bind ok (rebuildFieldsM_yields P fields ok fun p hp =>
      P.pre_grows ok grows (P.pre_part pre hp)) ?_
    intro fields' s ok grows h
    refine Yields.pure ok ⟨by simp [frame, h.1], .cons (P.kindPost_grows ok grows hk) .nil, h.2⟩
  | app f a | arrow f a | concat f a | proj f a =>
    refine P.orRebuild_yields ok pre fun s ok pre => ?_
    refine Yields.bind ok (rebuildM_yields P f ok (P.pre_part pre (by simp [parts]))) ?_
    intro f' s ok grows hf
    refine Yields.bind ok (rebuildM_yields P a ok
      (P.pre_grows ok grows (P.pre_part pre (by simp [parts])))) ?_
    intro a' s ok grows ha
    exact Yields.pure ok ⟨rfl, .nil, .cons (P.post_grows ok grows hf) (.cons ha .nil)⟩
  | abs x k body | poly x i k body =>
    refine P.orRebuild_yields ok pre fun s ok pre => ?_
    refine Yields.bind ok (P.kind_yields ok (P.pre_kind pre (by simp [annotations]))) ?_
    intro k' s ok grows hk
    refine Yields.bind ok (rebuildM_yields P body ok
      (P.pre_grows ok grows (P.pre_part pre (by simp [parts])))) ?_
    intro body' s ok grows hbody
    exact Yields.pure ok ⟨rfl, .cons (P.kindPost_grows ok grows hk) .nil, .cons hbody .nil⟩
  | kabs x r | kpoly x r | record r | variant r | component r i =>
    refine P.orRebuild_yields ok pre fun s ok pre => ?_
    refine Yields.bind ok (rebuildM_yields P r ok (P.pre_part pre (by simp [parts]))) ?_
    intro r' s ok _ hr
    exact Yields.pure ok ⟨rfl, .nil, .cons hr .nil⟩
  | kapp f k =>
    refine P.orRebuild_yields ok pre fun s ok pre => ?_
    refine Yields.bind ok (rebuildM_yields P f ok (P.pre_part pre (by simp [parts]))) ?_
    intro f' s ok grows hf
    refine Yields.bind ok (P.kind_yields ok
      (P.kindPre_grows ok grows (P.pre_kind pre (by simp [annotations])))) ?_
    intro k' s ok grows hk
    exact Yields.pure ok ⟨rfl, .cons hk .nil, .cons (P.post_grows ok grows hf) .nil⟩
  | disjoint l r body =>
    refine P.orRebuild_yields ok pre fun s ok pre => ?_
    refine Yields.bind ok (rebuildM_yields P l ok (P.pre_part pre (by simp [parts]))) ?_
    intro l' s ok grows hl
    have pre := P.pre_grows ok grows pre
    refine Yields.bind ok (rebuildM_yields P r ok (P.pre_part pre (by simp [parts]))) ?_
    intro r' s ok grows hr
    have pre := P.pre_grows ok grows pre
    have hl := P.post_grows ok grows hl
    refine Yields.bind ok (rebuildM_yields P body ok (P.pre_part pre (by simp [parts]))) ?_
    intro body' s ok grows hbody
    exact Yields.pure ok ⟨rfl, .nil, .cons (P.post_grows ok grows hl)
      (.cons (P.post_grows ok grows hr) (.cons hbody .nil))⟩
  | map k₁ k₂ f r =>
    refine P.orRebuild_yields ok pre fun s ok pre => ?_
    refine Yields.bind ok (P.kind_yields ok (P.pre_kind pre (by simp [annotations]))) ?_
    intro k₁' s ok grows h₁
    have pre := P.pre_grows ok grows pre
    refine Yields.bind ok (P.kind_yields ok (P.pre_kind pre (by simp [annotations]))) ?_
    intro k₂' s ok grows h₂
    have pre := P.pre_grows ok grows pre
    have h₁ := P.kindPost_grows ok grows h₁
    refine Yields.bind ok (rebuildM_yields P f ok (P.pre_part pre (by simp [parts]))) ?_
    intro f' s ok grows hf
    have pre := P.pre_grows ok grows pre
    have h₁ := P.kindPost_grows ok grows h₁
    have h₂ := P.kindPost_grows ok grows h₂
    refine Yields.bind ok (rebuildM_yields P r ok (P.pre_part pre (by simp [parts]))) ?_
    intro r' s ok grows hr
    exact Yields.pure ok ⟨rfl, .cons (P.kindPost_grows ok grows h₁)
      (.cons (P.kindPost_grows ok grows h₂) .nil), .cons (P.post_grows ok grows hf) (.cons hr .nil)⟩
theorem rebuildListM_yields (P : Pass D S node kind) (cs : List Con) {s : σ} {d : Depth}
    (ok : D.Ok s) (pre : ∀ c ∈ cs, S.Pre s d c) :
    Yields D s (rebuildListM node kind d cs) fun cs' s' => List.Forall₂ (S.Post s' d) cs cs' := by
  cases cs with
  | nil => exact Yields.pure ok .nil
  | cons c cs =>
    refine Yields.bind ok (rebuildM_yields P c ok (pre c (by simp))) ?_
    intro c' s ok grows hc
    refine Yields.bind ok (rebuildListM_yields P cs ok fun p hp =>
      P.pre_grows ok grows (pre p (by simp [hp]))) ?_
    intro cs' s ok grows hcs
    exact Yields.pure ok (.cons (P.post_grows ok grows hc) hcs)
theorem rebuildFieldsM_yields (P : Pass D S node kind) (fields : List (Con × Con)) {s : σ}
    {d : Depth} (ok : D.Ok s)
    (pre : ∀ c ∈ fields.flatMap fun field => [field.1, field.2], S.Pre s d c) :
    Yields D s (rebuildFieldsM node kind d fields) fun fields' s' =>
      fields.length = fields'.length ∧
        List.Forall₂ (S.Post s' d) (fields.flatMap fun field => [field.1, field.2])
          (fields'.flatMap fun field => [field.1, field.2]) := by
  cases fields with
  | nil => exact Yields.pure ok ⟨rfl, .nil⟩
  | cons field fields =>
    obtain ⟨name, value⟩ := field
    refine Yields.bind ok (rebuildM_yields P name ok (pre name (by simp))) ?_
    intro name' s ok grows hname
    have pre := fun c hc => P.pre_grows ok grows (pre c hc)
    refine Yields.bind ok (rebuildM_yields P value ok (pre value (by simp))) ?_
    intro value' s ok grows hvalue
    have hname := P.post_grows ok grows hname
    refine Yields.bind ok (rebuildFieldsM_yields P fields ok fun p hp =>
      P.pre_grows ok grows (pre p (by
        simp only [List.flatMap_cons, List.mem_append]
        exact .inr hp))) ?_
    intro fields' s ok grows h
    exact Yields.pure ok ⟨by simp [h.1], .cons (P.post_grows ok grows hname)
      (.cons (P.post_grows ok grows hvalue) h.2)⟩
end

end Pass

end Pass

end Con

end RowML
