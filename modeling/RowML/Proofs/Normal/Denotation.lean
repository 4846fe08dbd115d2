import RowML.Normal.Head
import RowML.Proofs.Constructor.Congruence
import RowML.Proofs.Normal.Observation
import RowML.Proofs.Store.Substitution

/-!
# The meaning of a constructor

A constructor means something in an environment for its variables.  Variables and functions have
the meaning that every domain gives them; an algebra says what the other nodes make of the meanings
of their parts.  Substitution is then a change of the environment.
-/

namespace RowML

namespace Con

open Observed

variable {T : Type} [Tokens T]

/-- What the nodes other than variables and functions make of the meanings of their parts. -/
structure Algebra (T : Type) [Tokens T] where
  op : Con → List ((Nat → LowerSet T) → LowerSet T) → (Nat → LowerSet T) → LowerSet T
  finitary : ∀ (c : Con) {parts : List ((Nat → LowerSet T) → LowerSet T)},
    (∀ part ∈ parts, Finitary part) → Finitary (op c parts)
  /-- Only the values of the parts matter. -/
  congr : ∀ (c : Con) {parts parts' : List ((Nat → LowerSet T) → LowerSet T)}
    {env env' : Nat → LowerSet T},
    List.Forall₂ (fun part part' => part env = part' env') parts parts' →
      op c parts env = op c parts' env'

/-- The meaning of a node, given those of its parts.  What a quantified type says about its variable
is not observed. -/
def nodeMeaning (A : Algebra T) : Con → List ((Nat → LowerSet T) → LowerSet T) →
    (Nat → LowerSet T) → LowerSet T
  | .bvar i, _ => fun env => env i
  | .abs _ _ _, [body] => fun env => lambda fun X => body (push X env)
  | .poly x implicit k body, _ => A.op (frame (.poly x implicit k body)) []
  | c, parts => A.op c.frame parts

mutual
/-- The meaning of a constructor in an environment for its variables. -/
def meaning (A : Algebra T) : Con → (Nat → LowerSet T) → LowerSet T
  | .mvar v spine => nodeMeaning A (.mvar v spine) (meanings A spine)
  | .app f a => nodeMeaning A (.app f a) [meaning A f, meaning A a]
  | .abs x k body => nodeMeaning A (.abs x k body) [meaning A body]
  | .kabs x body => nodeMeaning A (.kabs x body) [meaning A body]
  | .kapp f k => nodeMeaning A (.kapp f k) [meaning A f]
  | .arrow a b => nodeMeaning A (.arrow a b) [meaning A a, meaning A b]
  | .poly x implicit k body => nodeMeaning A (.poly x implicit k body) [meaning A body]
  | .kpoly x body => nodeMeaning A (.kpoly x body) [meaning A body]
  | .disjoint l r body => nodeMeaning A (.disjoint l r body)
      [meaning A l, meaning A r, meaning A body]
  | .record r => nodeMeaning A (.record r) [meaning A r]
  | .variant r => nodeMeaning A (.variant r) [meaning A r]
  | .row k fields => nodeMeaning A (.row k fields) (fieldMeanings A fields)
  | .concat l r => nodeMeaning A (.concat l r) [meaning A l, meaning A r]
  | .map d c f r => nodeMeaning A (.map d c f r) [meaning A f, meaning A r]
  | .proj r f => nodeMeaning A (.proj r f) [meaning A r, meaning A f]
  | .tuple cs => nodeMeaning A (.tuple cs) (meanings A cs)
  | .component t i => nodeMeaning A (.component t i) [meaning A t]
  | c => nodeMeaning A c []
def meanings (A : Algebra T) : List Con → List ((Nat → LowerSet T) → LowerSet T)
  | [] => []
  | c :: cs => meaning A c :: meanings A cs
def fieldMeanings (A : Algebra T) : List (Con × Con) → List ((Nat → LowerSet T) → LowerSet T)
  | [] => []
  | (name, value) :: fields => meaning A name :: meaning A value :: fieldMeanings A fields
end

variable {A : Algebra T}

theorem meanings_eq (cs : List Con) : meanings A cs = cs.map (meaning A) := by
  induction cs with
  | nil => rfl
  | cons c cs ih => rw [meanings, ih, List.map_cons]

theorem fieldMeanings_eq (fields : List (Con × Con)) :
    fieldMeanings A fields =
      (fields.flatMap fun field => [field.1, field.2]).map (meaning A) := by
  induction fields with
  | nil => rfl
  | cons field fields ih =>
    rw [fieldMeanings, ih]
    rfl

theorem nodeMeaning_frame (c : Con) (parts : List ((Nat → LowerSet T) → LowerSet T)) :
    nodeMeaning A c.frame parts = nodeMeaning A c parts := by
  cases c with
  | abs x k body => rcases parts with _ | ⟨p, _ | ⟨q, rest⟩⟩ <;> rfl
  | mvar | tuple | row => simp [frame, nodeMeaning]
  | _ => rfl

/-- The meaning of a constructor depends on its frame and on the meanings of its parts. -/
theorem meaning_eq (c : Con) :
    meaning A c = nodeMeaning A c.frame (c.parts.map (meaning A)) := by
  rw [nodeMeaning_frame]
  cases c with
  | mvar v spine =>
    rw [meaning, meanings_eq]
    rfl
  | row k fields =>
    rw [meaning, fieldMeanings_eq]
    rfl
  | tuple cs =>
    rw [meaning, meanings_eq]
    rfl
  | _ =>
    rw [meaning]
    · rfl
    all_goals simp

/-! ## Continuity -/

theorem nodeMeaning_finitary (c : Con) {parts : List ((Nat → LowerSet T) → LowerSet T)}
    (h : ∀ part ∈ parts, Finitary part) : Finitary (nodeMeaning A c parts) := by
  unfold nodeMeaning
  split
  · exact .var _
  · exact Finitary.lambda (h _ (by simp))
  · exact A.finitary _ (by simp)
  · exact A.finitary _ h

theorem meaning_finitary (c : Con) : Finitary (meaning A c) := by
  induction c using inductionOnParts with
  | step c ih =>
    rw [meaning_eq]
    exact nodeMeaning_finitary c.frame (List.forall_mem_map.mpr ih)

/-! ## Variables -/

/-- A traversal that puts constructors for variables changes the environment accordingly. -/
theorem meaning_traverse {vars : Depth → Nat → Con} {kinds : Depth → Kind → Kind}
    (Fits : Depth → (Nat → LowerSet T) → (Nat → LowerSet T) → Prop)
    (hvars : ∀ {d env env'}, Fits d env env' → ∀ i, meaning A (vars d i) env = env' i)
    (hcon : ∀ {d env env'}, Fits d env env' → ∀ X, Fits (d + ⟨1, 0⟩) (push X env) (push X env'))
    (hkind : ∀ {d env env'}, Fits d env env' → Fits (d + ⟨0, 1⟩) env env') {c : Con} {d : Depth}
    {env env' : Nat → LowerSet T} (h : Fits d env env') :
    meaning A (c.traverse vars kinds d) env = meaning A c env' := by
  induction c using inductionOnParts generalizing d env env' with
  | step c ih =>
    by_cases hc : ∃ i, c = .bvar i
    · obtain ⟨i, rfl⟩ := hc
      exact hvars h i
    · have hc : ∀ i, c ≠ .bvar i := fun i hi => hc ⟨i, hi⟩
      rw [meaning_eq, meaning_eq c, frame_traverse hc, parts_traverse hc, List.map_map]
      have hparts : c.binders.con = 0 → List.Forall₂ (fun part part' => part env = part' env')
          (c.parts.map (meaning A ∘ traverse vars kinds (d + c.binders)))
          (c.parts.map (meaning A)) := by
        intro hbinders
        rw [List.forall₂_map_left_iff, List.forall₂_map_right_iff]
        refine List.forall₂_same.mpr fun p hp => ih p hp ?_
        cases c with
        | abs | poly => cases hbinders
        | kabs | kpoly => exact hkind h
        | _ => exact h
      cases c with
      | abs x k body =>
        simp only [frame, parts, List.map_cons, List.map_nil, nodeMeaning, Function.comp]
        congr 1
        funext X
        exact ih body (by simp [parts]) (hcon h X)
      | bvar i => exact absurd rfl (hc i)
      | poly x implicit k body => exact A.congr _ .nil
      | _ => exact A.congr _ (hparts rfl)

/-- A constructor means the same under binders that it does not look at. -/
theorem meaning_weaken {kinds : Depth → Kind → Kind} (c : Con) (amount : Depth)
    (env : Nat → LowerSet T) :
    meaning A (c.traverse (weakenVar amount) kinds Depth.zero) env =
      meaning A c fun i => env (i + amount.con) := by
  refine meaning_traverse (fun d env env' => ∀ i,
    env' i = env (if i < d.con then i else i + amount.con)) ?_ ?_ ?_ ?_
  · exact fun h i => (h i).symm
  · intro d env env' h X i
    cases i with
    | zero => rfl
    | succ i =>
      have hi : (if i + 1 < d.con + 1 then i + 1 else i + 1 + amount.con) =
          (if i < d.con then i else i + amount.con) + 1 := by
        split_ifs <;> omega
      simp only [Depth.add_con, hi]
      exact h i
  · exact fun h => h
  · exact fun i => rfl

theorem meaning_lift (c : Con) (X : LowerSet T) (env : Nat → LowerSet T) :
    meaning A (c.lift 1) (push X env) = meaning A c env := by
  rw [lift_eq_traverse]
  exact meaning_weaken c ⟨1, 0⟩ (push X env)

/-- The entries of an environment with several binders put in. -/
theorem pushAll_apply (Xs : List (LowerSet T)) (env : Nat → LowerSet T) (i : Nat) :
    pushAll Xs env i = (Xs.reverse[i]?).getD (env (i - Xs.length)) := by
  induction Xs using List.reverseRecOn generalizing i with
  | nil => simp
  | append_singleton Xs X ih =>
    rw [pushAll_concat]
    cases i with
    | zero => simp [push]
    | succ i =>
      simp only [push, ih, List.reverse_append, List.reverse_singleton, List.singleton_append,
        List.getElem?_cons_succ, List.length_append, List.length_singleton, Nat.add_sub_add_right]

theorem meaning_spineVar (spine : List Con) (d : Depth) (i : Nat) (env : Nat → LowerSet T) :
    meaning A (spineVar spine d i) env =
      if i < d.con then env i
      else pushAll (spine.map fun a => meaning A a fun j => env (j + d.con))
        (fun j => env (j + d.con)) (i - d.con) := by
  split_ifs with hlt
  · rw [spineVar_of_lt hlt]
    rfl
  · rw [pushAll_apply, ← List.map_reverse, List.getElem?_map, List.length_map]
    cases hget : spine.reverse[i - d.con]? with
    | some argument =>
      rw [spineVar_of_some (Nat.not_lt.mp hlt) hget]
      exact meaning_weaken argument d env
    | none =>
      rw [spineVar_of_none (Nat.not_lt.mp hlt) hget]
      have hlength := List.getElem?_eq_none_iff.mp hget
      rw [List.length_reverse] at hlength
      change env (i - spine.length) = env (i - d.con - spine.length + d.con)
      congr 1
      omega

/-- A solution with a spine for the variables around it. -/
theorem meaning_instantiated (c : Con) (spine : List Con) (env : Nat → LowerSet T) :
    meaning A (c.instantiated spine) env =
      meaning A c (pushAll (spine.map fun a => meaning A a env) env) := by
  refine meaning_traverse (fun d env env' => ∀ i,
    env' i = meaning A (spineVar spine d i) env) ?_ ?_ ?_ ?_
  · exact fun h i => (h i).symm
  · intro d env env' h X i
    rw [meaning_spineVar]
    cases i with
    | zero => rfl
    | succ i =>
      change env' i = _
      rw [h i, meaning_spineVar]
      simp only [Depth.add_con, Nat.add_lt_add_iff_right, Nat.add_sub_add_right]
      rfl
  · intro d env env' h i
    rw [h i, meaning_spineVar, meaning_spineVar]
    rfl
  · intro i
    rw [meaning_spineVar]
    rfl

theorem meaning_kindSubstituted (body : Con) (argument : Kind) (env : Nat → LowerSet T) :
    meaning A (body.kindSubstituted argument) env = meaning A body env := by
  refine meaning_traverse (fun _ env env' => env = env') ?_ ?_ ?_ rfl
  · rintro d env _ rfl i
    rfl
  · rintro d env _ rfl X
    rfl
  · exact fun h => h

/-- Constructors that are congruent up to steps with the same meaning have the same meaning; kind
annotations mean nothing. -/
theorem meaning_congr {base : Con → Con → Prop} {kinds : Kind → Kind → Prop}
    (hbase : ∀ {a b}, base a b → meaning A a = meaning A b) {a b : Con}
    (h : Congr base kinds a b) : meaning A a = meaning A b := by
  induction h with
  | refl => rfl
  | symm _ ih => exact ih.symm
  | trans _ _ ih ih' => exact ih.trans ih'
  | step h => exact hbase h
  | @node c c' hframe _ _ ih =>
    rw [meaning_eq c, meaning_eq c', hframe]
    congr 1
    refine List.ext_getElem (by simpa using length_parts_eq hframe) fun i hi hi' => ?_
    rw [List.length_map] at hi hi'
    simp only [List.getElem_map]
    exact ih i _ _ (List.getElem?_eq_getElem hi) (List.getElem?_eq_getElem hi')

theorem meaning_alike {kinds : Kind → Kind → Prop} {a b : Con} (h : Alike kinds a b) :
    meaning A a = meaning A b :=
  @meaning_congr _ _ A (fun _ _ => False) kinds False.elim _ _ (.of_alike h)

/-! ## The nodes that every domain reads alike -/

theorem meaning_app_abs (x : String) (k : Kind) (body argument : Con) (env : Nat → LowerSet T) :
    apply (meaning A (.abs x k body) env) (meaning A argument env) =
      meaning A (body.instantiated [argument]) env := by
  rw [meaning_instantiated]
  exact (meaning_finitary body).apply_lambda env _

/-- The composition of two functions, given that applications mean applications. -/
theorem apply_compose (happ : ∀ (f a : Con) (env : Nat → LowerSet T),
      meaning A (.app f a) env = apply (meaning A f env) (meaning A a env))
    (d : Kind) (f g : Con) (env : Nat → LowerSet T) (X : LowerSet T) :
    apply (meaning A (compose d f g) env) X =
      apply (meaning A f env) (apply (meaning A g env) X) := by
  refine ((meaning_finitary _).apply_lambda env X).trans ?_
  rw [happ, happ, meaning_lift, meaning_lift]
  rfl

end Con

end RowML
