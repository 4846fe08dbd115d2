import RowML.Proofs.Constructor.Mention
import RowML.Row.Summary
import Mathlib.Data.Set.Finite.Basic
import Mathlib.Data.List.Perm.Basic

/-!
# First-order constructors as finite maps

A ground constructor is built from primitives, variables, applications, abstractions, functions,
polymorphic types, tuples, records, variants and rows, where a row is a finite map from labels to
ground constructors.  Given what the metavariables stand for, a first-order constructor denotes at
most one ground constructor: none if two parts of a row share a label.
-/

namespace RowML

inductive Ground where
  | prim (type : Prim)
  | bvar (index : Nat)
  | skolem (id : SkolemId)
  | app (function argument : Ground)
  | abs (body : Ground)
  | arrow (domain codomain : Ground)
  | poly (implicit : Bool) (body : Ground)
  | tuple (components : List Ground)
  | record (row : Ground)
  | variant (row : Ground)
  | row (fields : String → Option Ground)

namespace Ground

/-- A row as a map from labels. -/
abbrev Fields := String → Option Ground

/-! ## Parts -/

/-- The first constructor stands directly inside the second one. -/
inductive Inside : Ground → Ground → Prop where
  | function (a b : Ground) : Inside a (.app a b)
  | argument (a b : Ground) : Inside b (.app a b)
  | inner (a : Ground) : Inside a (.abs a)
  | domain (a b : Ground) : Inside a (.arrow a b)
  | codomain (a b : Ground) : Inside b (.arrow a b)
  | body (implicit : Bool) (a : Ground) : Inside a (.poly implicit a)
  | component {c : Ground} {cs : List Ground} (h : c ∈ cs) : Inside c (.tuple cs)
  | record (r : Ground) : Inside r (.record r)
  | variant (r : Ground) : Inside r (.variant r)
  | field {f : Fields} {x : String} {c : Ground} (h : f x = some c) : Inside c (.row f)

mutual
private theorem acc_inside : (t : Ground) → Acc Inside t
  | .prim _ | .bvar _ | .skolem _ => ⟨_, fun _ h => nomatch h⟩
  | .app a b => ⟨_, fun _ h => by
      cases h with
      | function => exact acc_inside a
      | argument => exact acc_inside b⟩
  | .abs a => ⟨_, fun _ h => by
      cases h with
      | inner => exact acc_inside a⟩
  | .arrow a b => ⟨_, fun _ h => by
      cases h with
      | domain => exact acc_inside a
      | codomain => exact acc_inside b⟩
  | .poly _ a => ⟨_, fun _ h => by
      cases h with
      | body => exact acc_inside a⟩
  | .tuple cs => ⟨_, fun c h => by
      cases h with
      | component hc => exact acc_inside_list cs c hc⟩
  | .record r => ⟨_, fun _ h => by
      cases h with
      | record => exact acc_inside r⟩
  | .variant r => ⟨_, fun _ h => by
      cases h with
      | variant => exact acc_inside r⟩
  | .row f => ⟨_, fun c h => by
      cases h with
      | @field _ x _ hc => exact acc_inside_option (f x) c hc⟩
private theorem acc_inside_list : (cs : List Ground) → ∀ c ∈ cs, Acc Inside c
  | [], _, h => nomatch h
  | c :: cs, c', h => by
    rcases List.mem_cons.mp h with h | h
    · exact h ▸ acc_inside c
    · exact acc_inside_list cs c' h
private theorem acc_inside_option : (o : Option Ground) → ∀ c, o = some c → Acc Inside c
  | none, _, h => nomatch h
  | some c, c', h => by
    have h : c = c' := Option.some.inj h
    exact h ▸ acc_inside c
end

/-- No constructor is a proper part of itself. -/
theorem not_inside_self (t : Ground) : ¬ Relation.TransGen Inside t t := by
  have hwf : WellFounded (Relation.TransGen Inside) := WellFounded.transGen ⟨acc_inside⟩
  intro h
  exact WellFounded.asymmetric hwf t t h h

/-! ## Joining rows -/

/-- The third map is the union of the first two, which have no label in common. -/
def Joins (f g h : Fields) : Prop := ∀ x, f x = none ∧ h x = g x ∨ g x = none ∧ h x = f x

/-- The row with one field. -/
def single (x : String) (t : Ground) : Fields := fun y => if y = x then some t else none

/-- The row without fields. -/
def empty : Fields := fun _ => none

namespace Joins

variable {f g g' h h' a b c : Fields}

theorem symm (hj : Joins f g h) : Joins g f h := fun x => (hj x).symm

theorem empty_left (f : Fields) : Joins empty f f := fun _ => .inl ⟨rfl, rfl⟩

theorem eq_of_empty (hj : Joins empty f g) : f = g := by
  funext x
  rcases hj x with ⟨-, h⟩ | ⟨h, h'⟩
  · exact h.symm
  · exact h.trans h'.symm

theorem unique (hj : Joins f g h) (hj' : Joins f g h') : h = h' := by
  funext x
  rcases hj x with ⟨h₁, h₂⟩ | ⟨h₁, h₂⟩ <;> rcases hj' x with ⟨h₃, h₄⟩ | ⟨h₃, h₄⟩ <;> simp_all

theorem cancel (hj : Joins f g h) (hj' : Joins f g' h) : g = g' := by
  funext x
  rcases hj x with ⟨h₁, h₂⟩ | ⟨h₁, h₂⟩ <;> rcases hj' x with ⟨h₃, h₄⟩ | ⟨h₃, h₄⟩ <;> simp_all

theorem subset_left (hj : Joins f g h) {x : String} {t : Ground} (hx : f x = some t) :
    h x = some t := by
  rcases hj x with ⟨hnone, -⟩ | ⟨-, heq⟩
  · rw [hx] at hnone
    cases hnone
  · rw [heq, hx]

theorem subset_right (hj : Joins f g h) {x : String} {t : Ground} (hx : g x = some t) :
    h x = some t :=
  hj.symm.subset_left hx

theorem assoc (hfg : Joins f g a) (hac : Joins a c h) : ∃ b, Joins g c b ∧ Joins f b h := by
  refine ⟨fun x => (g x).or (c x), fun x => ?_, fun x => ?_⟩
  · have hf := hfg x
    have hc := hac x
    grind
  · have hf := hfg x
    have hc := hac x
    grind

theorem assoc_right (hgc : Joins g c b) (hfb : Joins f b h) : ∃ a, Joins f g a ∧ Joins a c h := by
  obtain ⟨a, hgf, hca⟩ := hgc.symm.assoc hfb.symm
  exact ⟨a, hgf.symm, hca.symm⟩

/-- What is joined with the same row on both sides. -/
theorem swap (hgh : Joins g b a) (hfa : Joins f a h) : ∃ c, Joins f b c ∧ Joins g c h := by
  obtain ⟨c, hc, hgc⟩ := hgh.assoc hfa.symm
  exact ⟨c, hc.symm, hgc⟩

/-- Where the fields of two parts of a row have no label in common, what remains of the row is the
same for both. -/
theorem exists_remainder {k tail tail' : Fields} (hl : Joins f tail k) (hr : Joins h tail' k)
    (hapart : ∀ x, f x = none ∨ h x = none) :
    ∃ rest, Joins h rest tail ∧ Joins f rest tail' ∧ ∀ x t, rest x = some t → tail x = some t := by
  refine ⟨fun x => if h x = none then tail x else none, fun x => ?_, fun x => ?_, fun x t hx => ?_⟩
  · have hlx := hl x
    have hrx := hr x
    have := hapart x
    grind
  · have hlx := hl x
    have hrx := hr x
    have := hapart x
    grind
  · grind

end Joins

/-! ## Closed constructors -/

/-- Every row has finitely many fields, and no variable is free but the first `n`. -/
inductive Closed : Nat → Ground → Prop where
  | prim {n : Nat} (p : Prim) : Closed n (.prim p)
  | bvar {n i : Nat} (hi : i < n) : Closed n (.bvar i)
  | skolem {n : Nat} (s : SkolemId) : Closed n (.skolem s)
  | app {n : Nat} {a b : Ground} (ha : Closed n a) (hb : Closed n b) : Closed n (.app a b)
  | abs {n : Nat} {a : Ground} (ha : Closed (n + 1) a) : Closed n (.abs a)
  | arrow {n : Nat} {a b : Ground} (ha : Closed n a) (hb : Closed n b) : Closed n (.arrow a b)
  | poly {n : Nat} {implicit : Bool} {a : Ground} (ha : Closed (n + 1) a) :
      Closed n (.poly implicit a)
  | tuple {n : Nat} {cs : List Ground} (h : ∀ c ∈ cs, Closed n c) : Closed n (.tuple cs)
  | record {n : Nat} {r : Ground} (h : Closed n r) : Closed n (.record r)
  | variant {n : Nat} {r : Ground} (h : Closed n r) : Closed n (.variant r)
  | row {n : Nat} {f : Fields} (hlabels : {x | f x ≠ none}.Finite)
      (h : ∀ x t, f x = some t → Closed n t) : Closed n (.row f)

section Closed

variable {n m : Nat} {t : Ground} {f g h : Fields}

theorem Closed.mono (ht : t.Closed n) (hnm : n ≤ m) : t.Closed m := by
  induction ht generalizing m with
  | prim p => exact .prim p
  | bvar hi => exact .bvar (Nat.lt_of_lt_of_le hi hnm)
  | skolem s => exact .skolem s
  | app _ _ iha ihb => exact .app (iha hnm) (ihb hnm)
  | arrow _ _ iha ihb => exact .arrow (iha hnm) (ihb hnm)
  | abs _ ih => exact .abs (ih (Nat.succ_le_succ hnm))
  | poly _ ih => exact .poly (ih (Nat.succ_le_succ hnm))
  | tuple _ ih => exact .tuple fun c hc => ih c hc hnm
  | record _ ih => exact .record (ih hnm)
  | variant _ ih => exact .variant (ih hnm)
  | row hlabels _ ih => exact .row hlabels fun x t hx => ih x t hx hnm

theorem Closed.of_subset (hf : (Ground.row f).Closed n)
    (h : ∀ x t, g x = some t → f x = some t) : (Ground.row g).Closed n := by
  cases hf with
  | row hlabels hvalues =>
    refine .row (hlabels.subset fun x hx => ?_) fun x t hx => hvalues x t (h x t hx)
    obtain ⟨t, ht⟩ := Option.ne_none_iff_exists'.mp hx
    change f x ≠ none
    rw [h x t ht]
    simp

theorem closed_join (hj : Joins f g h) (hf : (Ground.row f).Closed n)
    (hg : (Ground.row g).Closed n) : (Ground.row h).Closed n := by
  cases hf with
  | row hlabels hvalues =>
    cases hg with
    | row hlabels' hvalues' =>
      refine .row ((hlabels.union hlabels').subset fun x hx => ?_) fun x t hx => ?_
      · change h x ≠ none at hx
        rcases hj x with ⟨-, heq⟩ | ⟨-, heq⟩
        · exact .inr (show g x ≠ none from heq ▸ hx)
        · exact .inl (show f x ≠ none from heq ▸ hx)
      · rcases hj x with ⟨-, heq⟩ | ⟨-, heq⟩
        · exact hvalues' x t (heq ▸ hx)
        · exact hvalues x t (heq ▸ hx)

theorem closed_empty : (Ground.row empty).Closed n :=
  .row (Set.finite_empty.subset fun _ hx => absurd rfl hx) (by simp [empty])

theorem closed_single {x : String} (ht : t.Closed n) : (Ground.row (single x t)).Closed n := by
  refine .row ((Set.finite_singleton x).subset fun y hy => ?_) fun y s hy => ?_
  · by_contra hne
    exact hy (if_neg hne)
  · unfold single at hy
    split at hy
    · cases hy
      exact ht
    · cases hy

end Closed

end Ground

/-! ## Denotations -/

open Ground

/-- The constructor stands for a ground constructor if the metavariables stand for `θ`. -/
inductive Con.Denotes (θ : MetaId → Ground) : Con → Ground → Prop where
  | prim (p : Prim) : Denotes θ (.prim p) (.prim p)
  | bvar (i : Nat) : Denotes θ (.bvar i) (.bvar i)
  | skolem (s : SkolemId) : Denotes θ (.skolem s) (.skolem s)
  | app {a b : Con} {s t : Ground} (ha : Denotes θ a s) (hb : Denotes θ b t) :
      Denotes θ (.app a b) (.app s t)
  | abs {x : String} {k : Kind} {a : Con} {t : Ground} (ha : Denotes θ a t) :
      Denotes θ (.abs x k a) (.abs t)
  | arrow {a b : Con} {s t : Ground} (ha : Denotes θ a s) (hb : Denotes θ b t) :
      Denotes θ (.arrow a b) (.arrow s t)
  | poly {x : String} {implicit : Bool} {k : Kind} {a : Con} {t : Ground} (ha : Denotes θ a t) :
      Denotes θ (.poly x implicit k a) (.poly implicit t)
  | tupleNil : Denotes θ (.tuple []) (.tuple [])
  | tupleCons {c : Con} {cs : List Con} {t : Ground} {ts : List Ground} (hc : Denotes θ c t)
      (hcs : Denotes θ (.tuple cs) (.tuple ts)) : Denotes θ (.tuple (c :: cs)) (.tuple (t :: ts))
  | record {r : Con} {t : Ground} (h : Denotes θ r t) : Denotes θ (.record r) (.record t)
  | variant {r : Con} {t : Ground} (h : Denotes θ r t) : Denotes θ (.variant r) (.variant t)
  | mvar (v : MetaId) : Denotes θ (.mvar v []) (θ v)
  | rowNil (k : Kind) : Denotes θ (.row k []) (.row empty)
  | rowCons {k : Kind} {x : String} {value : Con} {fields : List (Con × Con)} {t : Ground}
      {f g : Fields} (hvalue : Denotes θ value t) (hfields : Denotes θ (.row k fields) (.row f))
      (hjoin : Joins (single x t) f g) : Denotes θ (.row k ((.label x, value) :: fields)) (.row g)
  | concat {l r : Con} {f g h : Fields} (hl : Denotes θ l (.row f)) (hr : Denotes θ r (.row g))
      (hjoin : Joins f g h) : Denotes θ (.concat l r) (.row h)

namespace Con

variable {c c' : Con}

/-- What is mentioned in a rest of a list is mentioned in the list. -/
theorem mentions_of_subset (hmvar : ∀ v spine, c' ≠ .mvar v spine) (hsub : c'.parts ⊆ c.parts)
    {v : MetaId} (hv : c'.Mentions v) : c.Mentions v := by
  obtain ⟨spine, hspine⟩ | ⟨p, hp, hv⟩ := mentions_iff.mp hv
  · exact absurd hspine (hmvar v spine)
  · exact .part (hsub hp) hv

theorem bound_le_of_subset {n : Nat} (hbvar : ∀ i, c' ≠ .bvar i) (hbinders : c'.binders = c.binders)
    (hsub : c'.parts ⊆ c.parts) (h : c.bound ≤ n) : c'.bound ≤ n := by
  refine bound_le_iff_parts.mpr ⟨fun i hi => absurd hi (hbvar i), fun p hp => ?_⟩
  rw [hbinders]
  exact (bound_le_iff_parts.mp h).2 p (hsub hp)

end Con

namespace Con.Denotes

variable {θ θ' : MetaId → Ground} {c c' : Con} {t t' : Ground}

theorem unique (h : c.Denotes θ t) (h' : c.Denotes θ t') : t = t' := by
  induction h generalizing t' with
  | prim | bvar | skolem | tupleNil | mvar | rowNil =>
    cases h'
    rfl
  | app _ _ iha ihb | arrow _ _ iha ihb =>
    cases h'
    next ha hb => rw [iha ha, ihb hb]
  | abs _ ih | poly _ ih =>
    cases h'
    next ha => rw [ih ha]
  | tupleCons _ _ ihc ihcs =>
    cases h' with
    | tupleCons hc hcs =>
      cases ihcs hcs
      rw [ihc hc]
  | record _ ih | variant _ ih =>
    cases h'
    next h => rw [ih h]
  | rowCons _ _ hjoin ihvalue ihfields =>
    cases h' with
    | rowCons hvalue hfields hjoin' =>
      cases ihvalue hvalue
      cases ihfields hfields
      rw [hjoin.unique hjoin']
  | concat _ _ hjoin ihl ihr =>
    cases h' with
    | concat hl hr hjoin' =>
      cases ihl hl
      cases ihr hr
      rw [hjoin.unique hjoin']

/-- Only the metavariables that are written matter. -/
theorem congr (h : c.Denotes θ t) (hθ : ∀ v, c.Mentions v → θ v = θ' v) : c.Denotes θ' t := by
  induction h with
  | prim p => exact .prim p
  | bvar i => exact .bvar i
  | skolem s => exact .skolem s
  | tupleNil => exact .tupleNil
  | rowNil k => exact .rowNil k
  | mvar v =>
    rw [hθ v (.here [])]
    exact .mvar v
  | app _ _ iha ihb =>
    exact .app (iha fun v hv => hθ v (.part (by simp [parts]) hv))
      (ihb fun v hv => hθ v (.part (by simp [parts]) hv))
  | arrow _ _ iha ihb =>
    exact .arrow (iha fun v hv => hθ v (.part (by simp [parts]) hv))
      (ihb fun v hv => hθ v (.part (by simp [parts]) hv))
  | abs _ ih => exact .abs (ih fun v hv => hθ v (.part (by simp [parts]) hv))
  | poly _ ih => exact .poly (ih fun v hv => hθ v (.part (by simp [parts]) hv))
  | tupleCons _ _ ihc ihcs =>
    exact .tupleCons (ihc fun v hv => hθ v (.part (by simp [parts]) hv))
      (ihcs fun v hv => hθ v (mentions_of_subset (by simp) (by simp [parts]) hv))
  | record _ ih => exact .record (ih fun v hv => hθ v (.part (by simp [parts]) hv))
  | variant _ ih => exact .variant (ih fun v hv => hθ v (.part (by simp [parts]) hv))
  | rowCons _ _ hjoin ihvalue ihfields =>
    exact .rowCons (ihvalue fun v hv => hθ v (.part (by simp [parts]) hv))
      (ihfields fun v hv => hθ v (mentions_of_subset (by simp) (by simp [parts]) hv)) hjoin
  | concat _ _ hjoin ihl ihr =>
    exact .concat (ihl fun v hv => hθ v (.part (by simp [parts]) hv))
      (ihr fun v hv => hθ v (.part (by simp [parts]) hv)) hjoin

/-- If the metavariables stand for closed constructors, no variable is free but those that are
written. -/
theorem closed {n : Nat} (h : c.Denotes θ t) (hθ : ∀ v, c.Mentions v → (θ v).Closed 0)
    (hbound : c.bound ≤ n) : t.Closed n := by
  have part : ∀ {c p : Con}, (∀ v, c.Mentions v → (θ v).Closed 0) → p ∈ c.parts →
      ∀ v, p.Mentions v → (θ v).Closed 0 := fun hθ hp v hv => hθ v (.part hp hv)
  have parts_bound : ∀ {c : Con} {n : Nat}, c.bound ≤ n → ∀ p ∈ c.parts,
      p.bound ≤ n + c.binders.con := fun h => (bound_le_iff_parts.mp h).2
  induction h generalizing n with
  | prim p => exact .prim p
  | bvar i => exact .bvar ((bound_le_iff_parts.mp hbound).1 i rfl)
  | skolem s => exact .skolem s
  | tupleNil => exact .tuple (by simp)
  | rowNil k => exact closed_empty
  | mvar v => exact (hθ v (.here [])).mono (Nat.zero_le n)
  | @app a b _ _ _ _ iha ihb =>
    have ha : a ∈ (Con.app a b).parts := by simp [parts]
    have hb : b ∈ (Con.app a b).parts := by simp [parts]
    exact .app (iha (part hθ ha) (parts_bound hbound a ha))
      (ihb (part hθ hb) (parts_bound hbound b hb))
  | @arrow a b _ _ _ _ iha ihb =>
    have ha : a ∈ (Con.arrow a b).parts := by simp [parts]
    have hb : b ∈ (Con.arrow a b).parts := by simp [parts]
    exact .arrow (iha (part hθ ha) (parts_bound hbound a ha))
      (ihb (part hθ hb) (parts_bound hbound b hb))
  | @abs x k a _ _ ih =>
    have ha : a ∈ (Con.abs x k a).parts := by simp [parts]
    exact .abs (ih (part hθ ha) (parts_bound hbound a ha))
  | @poly x implicit k a _ _ ih =>
    have ha : a ∈ (Con.poly x implicit k a).parts := by simp [parts]
    exact .poly (ih (part hθ ha) (parts_bound hbound a ha))
  | @tupleCons c cs _ _ _ _ ihc ihcs =>
    have hc : c ∈ (Con.tuple (c :: cs)).parts := by simp [parts]
    have hsub : (Con.tuple cs).parts ⊆ (Con.tuple (c :: cs)).parts := by simp [parts]
    have hcs := ihcs (fun v hv => hθ v (mentions_of_subset (by simp) hsub hv))
      (bound_le_of_subset (c := .tuple (c :: cs)) (by simp) rfl hsub hbound)
    cases hcs with
    | tuple hcs =>
      exact .tuple (List.forall_mem_cons.mpr ⟨ihc (part hθ hc) (parts_bound hbound c hc), hcs⟩)
  | @record r _ _ ih =>
    have hr : r ∈ (Con.record r).parts := by simp [parts]
    exact .record (ih (part hθ hr) (parts_bound hbound r hr))
  | @variant r _ _ ih =>
    have hr : r ∈ (Con.variant r).parts := by simp [parts]
    exact .variant (ih (part hθ hr) (parts_bound hbound r hr))
  | @rowCons k x value fields _ _ _ _ _ hjoin ihvalue ihfields =>
    have hvalue : value ∈ (Con.row k ((.label x, value) :: fields)).parts := by simp [parts]
    have hsub : (Con.row k fields).parts ⊆ (Con.row k ((.label x, value) :: fields)).parts := by
      simp [parts]
    refine closed_join hjoin (closed_single (ihvalue (part hθ hvalue)
      (parts_bound hbound value hvalue))) (ihfields (fun v hv => ?_) ?_)
    · exact hθ v (mentions_of_subset (by simp) hsub hv)
    · exact bound_le_of_subset (c := .row k ((.label x, value) :: fields)) (by simp) rfl hsub hbound
  | @concat l r _ _ _ _ _ hjoin ihl ihr =>
    have hl : l ∈ (Con.concat l r).parts := by simp [parts]
    have hr : r ∈ (Con.concat l r).parts := by simp [parts]
    exact closed_join hjoin (ihl (part hθ hl) (parts_bound hbound l hl))
      (ihr (part hθ hr) (parts_bound hbound r hr))

/-- A free variable that is written is a free variable of what the constructor stands for. -/
theorem bound_le {n : Nat} (h : c.Denotes θ t) (ht : t.Closed n) : c.bound ≤ n := by
  induction h generalizing n with
  | prim | skolem | tupleNil | rowNil | mvar =>
    exact bound_le_iff_parts.mpr ⟨by simp, by simp [parts]⟩
  | bvar i =>
    cases ht with
    | bvar hi => exact (bound_bvar i).trans_le hi
  | app _ _ iha ihb | arrow _ _ iha ihb =>
    cases ht
    next ha hb =>
      exact bound_le_iff_parts.mpr ⟨by simp, by simp [parts, binders, iha ha, ihb hb]⟩
  | abs _ ih | poly _ ih =>
    cases ht
    next ha => exact bound_le_iff_parts.mpr ⟨by simp, by simpa [parts, binders] using ih ha⟩
  | tupleCons _ _ ihc ihcs =>
    cases ht with
    | tuple hcs =>
      obtain ⟨hc, hcs⟩ := List.forall_mem_cons.mp hcs
      refine bound_le_iff_parts.mpr ⟨by simp, List.forall_mem_cons.mpr ⟨ihc hc, ?_⟩⟩
      exact (bound_le_iff_parts.mp (ihcs (.tuple hcs))).2
  | record _ ih | variant _ ih =>
    cases ht
    next hr => exact bound_le_iff_parts.mpr ⟨by simp, by simpa [parts, binders] using ih hr⟩
  | @rowCons k x value fields t f _ _ _ hjoin ihvalue ihfields =>
    have hfields : (Ground.row f).Closed n := ht.of_subset fun _ _ => hjoin.subset_right
    have hvalue : t.Closed n := by
      cases ht with
      | row _ hvalues => exact hvalues x t (hjoin.subset_left (if_pos rfl))
    have hlabel : (Con.label x).bound ≤ n := bound_le_iff_parts.mpr ⟨by simp, by simp [parts]⟩
    refine bound_le_iff_parts.mpr ⟨by simp, fun p hp => ?_⟩
    rcases List.mem_append.mp hp with hp | hp
    · rcases List.mem_pair.mp hp with rfl | rfl
      · exact hlabel
      · exact ihvalue hvalue
    · exact (bound_le_iff_parts.mp (ihfields hfields)).2 p hp
  | concat _ _ hjoin ihl ihr =>
    have hl := ihl (ht.of_subset fun _ _ => hjoin.subset_left)
    have hr := ihr (ht.of_subset fun _ _ => hjoin.subset_right)
    exact bound_le_iff_parts.mpr ⟨by simp, by simp [parts, binders, hl, hr]⟩

end Con.Denotes

/-- The two constructors denote the same, if anything. -/
def Con.Coincides (θ : MetaId → Ground) (a b : Con) : Prop := ∀ t, a.Denotes θ t ↔ b.Denotes θ t

namespace Con.Coincides

variable {θ : MetaId → Ground} {a a' b b' : Con}

theorem refl (a : Con) : a.Coincides θ a := fun _ => Iff.rfl

theorem symm (h : a.Coincides θ b) : b.Coincides θ a := fun t => (h t).symm

theorem trans {c : Con} (h : a.Coincides θ b) (h' : b.Coincides θ c) : a.Coincides θ c :=
  fun t => (h t).trans (h' t)

theorem app (ha : a.Coincides θ a') (hb : b.Coincides θ b') :
    (Con.app a b).Coincides θ (.app a' b') := by
  refine fun t => ⟨fun h => ?_, fun h => ?_⟩ <;> cases h with
  | app h₁ h₂ => exact .app (by simpa only [ha _] using h₁) (by simpa only [hb _] using h₂)

theorem arrow (ha : a.Coincides θ a') (hb : b.Coincides θ b') :
    (Con.arrow a b).Coincides θ (.arrow a' b') := by
  refine fun t => ⟨fun h => ?_, fun h => ?_⟩ <;> cases h with
  | arrow h₁ h₂ => exact .arrow (by simpa only [ha _] using h₁) (by simpa only [hb _] using h₂)

theorem abs {x x' : String} {k k' : Kind} (h : a.Coincides θ a') :
    (Con.abs x k a).Coincides θ (.abs x' k' a') := by
  refine fun t => ⟨fun h => ?_, fun h => ?_⟩ <;> cases h with
  | abs h₁ => exact .abs (by simpa only [h _] using h₁)

theorem poly {x x' : String} {implicit : Bool} {k k' : Kind} (h : a.Coincides θ a') :
    (Con.poly x implicit k a).Coincides θ (.poly x' implicit k' a') := by
  refine fun t => ⟨fun h => ?_, fun h => ?_⟩ <;> cases h with
  | poly h₁ => exact .poly (by simpa only [h _] using h₁)

theorem record (h : a.Coincides θ a') : (Con.record a).Coincides θ (.record a') := by
  refine fun t => ⟨fun h => ?_, fun h => ?_⟩ <;> cases h with
  | record h₁ => exact .record (by simpa only [h _] using h₁)

theorem variant (h : a.Coincides θ a') : (Con.variant a).Coincides θ (.variant a') := by
  refine fun t => ⟨fun h => ?_, fun h => ?_⟩ <;> cases h with
  | variant h₁ => exact .variant (by simpa only [h _] using h₁)

theorem tupleCons {cs cs' : List Con} (ha : a.Coincides θ a')
    (hcs : (Con.tuple cs).Coincides θ (.tuple cs')) :
    (Con.tuple (a :: cs)).Coincides θ (.tuple (a' :: cs')) := by
  refine fun t => ⟨fun h => ?_, fun h => ?_⟩ <;> cases h with
  | tupleCons h₁ h₂ =>
    exact .tupleCons (by simpa only [ha _] using h₁) (by simpa only [hcs _] using h₂)

theorem rowNil (k k' : Kind) : (Con.row k []).Coincides θ (.row k' []) := by
  refine fun t => ⟨fun h => ?_, fun h => ?_⟩ <;> cases h <;> exact .rowNil _

theorem rowCons {k k' : Kind} {x : String} {fields fields' : List (Con × Con)}
    (ha : a.Coincides θ a') (hfields : (Con.row k fields).Coincides θ (.row k' fields')) :
    (Con.row k ((.label x, a) :: fields)).Coincides θ (.row k' ((.label x, a') :: fields')) := by
  refine fun t => ⟨fun h => ?_, fun h => ?_⟩ <;> cases h with
  | rowCons h₁ h₂ hjoin =>
    exact .rowCons (by simpa only [ha _] using h₁) (by simpa only [hfields _] using h₂) hjoin

theorem concat (ha : a.Coincides θ a') (hb : b.Coincides θ b') :
    (Con.concat a b).Coincides θ (.concat a' b') := by
  refine fun t => ⟨fun h => ?_, fun h => ?_⟩ <;> cases h with
  | concat h₁ h₂ hjoin =>
    exact .concat (by simpa only [ha _] using h₁) (by simpa only [hb _] using h₂) hjoin

end Con.Coincides

/-- The two constructors denote the same. -/
def Con.Agree (θ : MetaId → Ground) (a b : Con) : Prop := ∃ t, a.Denotes θ t ∧ b.Denotes θ t

namespace Con.Agree

variable {θ : MetaId → Ground} {a a' b b' : Con}

theorem symm (h : a.Agree θ b) : b.Agree θ a := by
  obtain ⟨t, ha, hb⟩ := h
  exact ⟨t, hb, ha⟩

/-! Constructors that denote the same have parts that do. -/

theorem of_app (h : (Con.app a b).Agree θ (.app a' b')) : a.Agree θ a' ∧ b.Agree θ b' := by
  obtain ⟨_, hleft, hright⟩ := h
  cases hleft with
  | app ha hb =>
    cases hright with
    | app ha' hb' => exact ⟨⟨_, ha, ha'⟩, _, hb, hb'⟩

theorem of_arrow (h : (Con.arrow a b).Agree θ (.arrow a' b')) : a.Agree θ a' ∧ b.Agree θ b' := by
  obtain ⟨_, hleft, hright⟩ := h
  cases hleft with
  | arrow ha hb =>
    cases hright with
    | arrow ha' hb' => exact ⟨⟨_, ha, ha'⟩, _, hb, hb'⟩

theorem of_abs {x x' : String} {k k' : Kind} (h : (Con.abs x k a).Agree θ (.abs x' k' a')) :
    a.Agree θ a' := by
  obtain ⟨_, hleft, hright⟩ := h
  cases hleft with
  | abs ha =>
    cases hright with
    | abs ha' => exact ⟨_, ha, ha'⟩

theorem of_poly {x x' : String} {implicit implicit' : Bool} {k k' : Kind}
    (h : (Con.poly x implicit k a).Agree θ (.poly x' implicit' k' a')) :
    implicit = implicit' ∧ a.Agree θ a' := by
  obtain ⟨_, hleft, hright⟩ := h
  cases hleft with
  | poly ha =>
    cases hright with
    | poly ha' => exact ⟨rfl, _, ha, ha'⟩

theorem of_tupleCons {cs cs' : List Con} (h : (Con.tuple (a :: cs)).Agree θ (.tuple (a' :: cs'))) :
    a.Agree θ a' ∧ (Con.tuple cs).Agree θ (.tuple cs') := by
  obtain ⟨_, hleft, hright⟩ := h
  cases hleft with
  | tupleCons ha hcs =>
    cases hright with
    | tupleCons ha' hcs' => exact ⟨⟨_, ha, ha'⟩, _, hcs, hcs'⟩

theorem of_record (h : (Con.record a).Agree θ (.record a')) : a.Agree θ a' := by
  obtain ⟨_, hleft, hright⟩ := h
  cases hleft with
  | record ha =>
    cases hright with
    | record ha' => exact ⟨_, ha, ha'⟩

theorem of_variant (h : (Con.variant a).Agree θ (.variant a')) : a.Agree θ a' := by
  obtain ⟨_, hleft, hright⟩ := h
  cases hleft with
  | variant ha =>
    cases hright with
    | variant ha' => exact ⟨_, ha, ha'⟩

end Con.Agree

/-! ## Constructors without metavariables -/

/-- The constructor mentions no metavariable and stands for `t`. -/
def Con.Spells (c : Con) (t : Ground) : Prop := (∀ v, ¬ c.Mentions v) ∧ ∀ θ, c.Denotes θ t

private theorem spells_tuple {ts : List Ground} (h : ∀ t ∈ ts, ∃ c : Con, c.Spells t) :
    ∃ cs, (Con.tuple cs).Spells (.tuple ts) := by
  induction ts with
  | nil => exact ⟨[], fun v => Con.not_mentions_of_parts nofun nofun, fun _ => .tupleNil⟩
  | cons t ts ih =>
    obtain ⟨⟨c, hc⟩, hts⟩ := List.forall_mem_cons.mp h
    obtain ⟨cs, hcs⟩ := ih hts
    refine ⟨c :: cs, fun v => Con.not_mentions_of_parts nofun ?_,
      fun θ => .tupleCons (hc.2 θ) (hcs.2 θ)⟩
    exact List.forall_mem_cons.mpr ⟨hc.1 v, fun p hp hv => hcs.1 v (.part hp hv)⟩

/-- The part of a row at the labels of a list. -/
private def restrict (f : Fields) (labels : List String) : Fields := fun x =>
  if x ∈ labels then f x else none

private theorem spells_row {f : Fields} {labels : List String} (hnodup : labels.Nodup)
    (h : ∀ x ∈ labels, ∃ t c, f x = some t ∧ Con.Spells c t) :
    ∃ fields, (Con.row .type fields).Spells (.row (restrict f labels)) := by
  induction labels with
  | nil =>
    have hempty : restrict f [] = empty := by
      funext x
      simp [restrict, empty]
    rw [hempty]
    exact ⟨[], fun v => Con.not_mentions_of_parts nofun nofun, fun _ => .rowNil _⟩
  | cons x labels ih =>
    obtain ⟨⟨t, c, hx, hc⟩, hlabels⟩ := List.forall_mem_cons.mp h
    obtain ⟨hnot, hnodup⟩ := List.nodup_cons.mp hnodup
    obtain ⟨fields, hfields⟩ := ih hnodup hlabels
    have hjoin : Joins (single x t) (restrict f labels) (restrict f (x :: labels)) := by
      intro y
      by_cases hy : y = x
      · subst hy
        exact .inr ⟨if_neg hnot, by simp [restrict, single, hx]⟩
      · exact .inl ⟨if_neg hy, by simp [restrict, hy]⟩
    refine ⟨(.label x, c) :: fields, fun v => Con.not_mentions_of_parts nofun ?_,
      fun θ => .rowCons (hc.2 θ) (hfields.2 θ) hjoin⟩
    intro p hp hv
    rcases List.mem_append.mp hp with hp | hp
    · rcases List.mem_pair.mp hp with rfl | rfl
      · exact Con.not_mentions_of_parts (by simp) (by simp [Con.parts]) hv
      · exact hc.1 v hv
    · exact hfields.1 v (.part hp hv)

/-- The closed ground constructors are what closed constructors stand for. -/
theorem Ground.closed_iff {n : Nat} {t : Ground} :
    t.Closed n ↔ ∃ c : Con, c.Spells t ∧ c.bound ≤ n := by
  constructor
  · intro h
    suffices hspells : ∃ c : Con, c.Spells t by
      obtain ⟨c, hc⟩ := hspells
      exact ⟨c, hc, (hc.2 fun _ => .prim .int).bound_le h⟩
    induction h with
    | prim p =>
      exact ⟨.prim p, fun v => Con.not_mentions_of_parts nofun nofun, fun _ => .prim p⟩
    | @bvar _ i _ =>
      exact ⟨.bvar i, fun v => Con.not_mentions_of_parts nofun nofun, fun _ => .bvar i⟩
    | skolem s =>
      exact ⟨.skolem s, fun v => Con.not_mentions_of_parts nofun nofun, fun _ => .skolem s⟩
    | app _ _ iha ihb =>
      obtain ⟨a, ha⟩ := iha
      obtain ⟨b, hb⟩ := ihb
      exact ⟨.app a b, fun v => Con.not_mentions_of_parts nofun (by simp [Con.parts, ha.1, hb.1]),
        fun θ => .app (ha.2 θ) (hb.2 θ)⟩
    | arrow _ _ iha ihb =>
      obtain ⟨a, ha⟩ := iha
      obtain ⟨b, hb⟩ := ihb
      exact ⟨.arrow a b, fun v => Con.not_mentions_of_parts nofun (by simp [Con.parts, ha.1, hb.1]),
        fun θ => .arrow (ha.2 θ) (hb.2 θ)⟩
    | abs _ ih =>
      obtain ⟨a, ha⟩ := ih
      exact ⟨.abs "" .type a, fun v => Con.not_mentions_of_parts nofun (by simp [Con.parts, ha.1]),
        fun θ => .abs (ha.2 θ)⟩
    | @poly _ implicit _ _ ih =>
      obtain ⟨a, ha⟩ := ih
      exact ⟨.poly "" implicit .type a,
        fun v => Con.not_mentions_of_parts nofun (by simp [Con.parts, ha.1]),
        fun θ => .poly (ha.2 θ)⟩
    | tuple _ ih =>
      obtain ⟨cs, hcs⟩ := spells_tuple ih
      exact ⟨.tuple cs, hcs⟩
    | record _ ih =>
      obtain ⟨r, hr⟩ := ih
      exact ⟨.record r, fun v => Con.not_mentions_of_parts nofun (by simp [Con.parts, hr.1]),
        fun θ => .record (hr.2 θ)⟩
    | variant _ ih =>
      obtain ⟨r, hr⟩ := ih
      exact ⟨.variant r, fun v => Con.not_mentions_of_parts nofun (by simp [Con.parts, hr.1]),
        fun θ => .variant (hr.2 θ)⟩
    | @row _ f hlabels _ ih =>
      have hmem : ∀ x, x ∈ hlabels.toFinset.toList ↔ f x ≠ none := by
        intro x
        rw [Finset.mem_toList, Set.Finite.mem_toFinset]
        exact Iff.rfl
      obtain ⟨fields, hfields⟩ := spells_row (f := f) hlabels.toFinset.nodup_toList fun x hx => by
        obtain ⟨t, ht⟩ := Option.ne_none_iff_exists'.mp ((hmem x).mp hx)
        obtain ⟨c, hc⟩ := ih x t ht
        exact ⟨t, c, ht, hc⟩
      have hall : restrict f hlabels.toFinset.toList = f := by
        funext x
        unfold restrict
        split
        · rfl
        next hx => exact (not_not.mp (mt (hmem x).mpr hx)).symm
      exact ⟨.row .type fields, hall ▸ hfields⟩
  · rintro ⟨c, ⟨hclosed, hc⟩, hbound⟩
    exact (hc fun _ => .prim .int).closed (fun v hv => absurd hv (hclosed v)) hbound

end RowML
