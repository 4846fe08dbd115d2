import RowML.Proofs.Row.Laws
import RowML.Proofs.Store.Meaning

/-!
# What rows stand for

An instantiation says what the metavariables, the skolems and the names of a program stand for; an
environment does so for the bound variables.  Together they give every constructor a meaning in the
domain for label sets.  Reduction keeps the meaning if it is proper: neither undefined, as that of a
projection at a label that is not there, nor poison.
-/

namespace RowML

open RowML.Con Observed Traits

/-- What everything that has no parts to look into stands for.  A metavariable stands for a
constructor in an environment of its own, which the spine provides. -/
structure Instantiation where
  metavar : MetaId → (Nat → Traits) → Traits
  skolem : SkolemId → Traits
  global : DefId → Traits
  member : ModuleId → List String → String → Traits
  relative : Nat → List String → String → Traits
  finitary : ∀ v, Finitary (metavar v)

namespace Instantiation

/-- What a node makes of the meanings of its parts. -/
def op (I : Instantiation) : Con → List ((Nat → Traits) → Traits) → (Nat → Traits) → Traits
  | .error, _ => fun _ => ⊤
  | .label x, _ => fun _ => approx [.label x]
  | .global id, _ => fun _ => I.global id
  | .member module path item, _ => fun _ => I.member module path item
  | .relative level path item, _ => fun _ => I.relative level path item
  | .skolem id, _ => fun _ => I.skolem id
  | .mvar v _, parts => fun env =>
    I.metavar v (pushAll (parts.map fun part => part env) fun _ => ⊥)
  | .app _ _, [f, a] => fun env => apply (f env) (a env)
  | .kabs _ _, [body] => body
  | .kapp _ _, [f] => f
  | .row _ _, parts => fun env => literal (pairUp (parts.map fun part => part env))
  | .concat _ _, [l, r] => fun env => concat (l env) (r env)
  | .map _ _ _ _, [f, r] => fun env => mapped (f env) (r env)
  | .proj _ _, [r, f] => fun env => project (r env) (f env)
  | .tuple _, parts => fun env => Traits.tuple (parts.map fun part => part env)
  | .component _ i, [t] => fun env => select i (t env)
  | _, _ => fun _ => approx [.inert]

section Operations

variable {parts parts' : List ((Nat → Traits) → Traits)} {env env' : Nat → Traits}

private theorem literal_finitary (h : ∀ part ∈ parts, Finitary part) :
    Finitary fun env => literal (pairUp (parts.map fun part => part env)) := by
  fun_induction pairUp parts with
  | case1 name value rest ih =>
    have hfield := Finitary.comp₂ Traits.finitary_fieldOf (h name (by simp)) (h value (by simp))
    exact Finitary.comp₂ finitary_concat hfield (ih fun part hpart => h part (by simp [hpart]))
  | case2 parts hparts =>
    rcases parts with _ | ⟨part, _ | ⟨part', rest⟩⟩
    · exact .const _
    · exact .const _
    · exact absurd rfl (hparts _ _ _)

private theorem components_finitary (h : ∀ part ∈ parts, Finitary part) (i : Nat) :
    Finitary fun env => components i (parts.map fun part => part env) := by
  induction parts generalizing i with
  | nil => exact .const ⊥
  | cons part rest ih =>
    have hplace := Finitary.comp₂ (Traits.finitary_place i) (h part (by simp)) (.const ⊥)
    exact Finitary.comp₂ finitary_join hplace
      (ih (fun p hp => h p (List.mem_cons_of_mem _ hp)) (i + 1))

private theorem tuple_finitary (h : ∀ part ∈ parts, Finitary part) :
    Finitary fun env => Traits.tuple (parts.map fun part => part env) := by
  simp only [Traits.tuple, List.length_map]
  exact Finitary.comp₂ finitary_join (.const _) (components_finitary h 0)

private theorem op_finitary (I : Instantiation) (c : Con) (h : ∀ part ∈ parts, Finitary part) :
    Finitary (I.op c parts) := by
  unfold op
  split
  · exact .const _
  · exact .const _
  · exact .const _
  · exact .const _
  · exact .const _
  · exact .const _
  · exact (I.finitary _).comp_pushAll h _
  · exact Finitary.comp₂ finitary_apply (h _ (by simp)) (h _ (by simp))
  · exact h _ (by simp)
  · exact h _ (by simp)
  · exact literal_finitary h
  · exact Finitary.comp₂ finitary_concat (h _ (by simp)) (h _ (by simp))
  · exact Finitary.comp₂ finitary_mapped (h _ (by simp)) (h _ (by simp))
  · exact Finitary.comp₂ finitary_project (h _ (by simp)) (h _ (by simp))
  · exact tuple_finitary h
  · exact Finitary.comp₂ (Traits.finitary_select _) (h _ (by simp)) (.const ⊥)
  · exact .const _

private theorem op_congr (I : Instantiation) (c : Con)
    (h : List.Forall₂ (fun part part' => part env = part' env') parts parts') :
    I.op c parts env = I.op c parts' env' := by
  have hmap : parts.map (fun part => part env) = parts'.map fun part => part env' :=
    List.forall₂_eq_eq_eq ▸ List.forall₂_map_left_iff.mpr (List.forall₂_map_right_iff.mpr h)
  cases c with
  | row | tuple | mvar => simp only [op, hmap]
  | _ =>
    obtain _ | ⟨hp, _ | ⟨hq, _ | ⟨hr, hrest⟩⟩⟩ := h <;> simp_all only [op]

end Operations

/-- The domain for label sets as an algebra. -/
def algebra (I : Instantiation) : Algebra Trait where
  op := I.op
  finitary c _ h := I.op_finitary c h
  congr c _ _ _ _ h := I.op_congr c h

/-- What a constructor stands for. -/
def value (I : Instantiation) (c : Con) (env : Nat → Traits) : Traits := meaning I.algebra c env

variable {I : Instantiation} {env : Nat → Traits}

theorem value_app (f a : Con) :
    I.value (.app f a) env = apply (I.value f env) (I.value a env) := rfl

theorem value_concat (l r : Con) :
    I.value (.concat l r) env = Traits.concat (I.value l env) (I.value r env) := rfl

theorem value_map (d e : Kind) (f r : Con) :
    I.value (.map d e f r) env = mapped (I.value f env) (I.value r env) := rfl

theorem value_proj (r f : Con) :
    I.value (.proj r f) env = project (I.value r env) (I.value f env) := rfl

theorem value_component (t : Con) (i : Nat) :
    I.value (.component t i) env = select i (I.value t env) := rfl

theorem value_row (k : Kind) (fields : List (Con × Con)) :
    I.value (.row k fields) env =
      literal (fields.map fun field => (I.value field.1 env, I.value field.2 env)) := by
  have hpairs : pairUp ((fields.flatMap fun field => [field.1, field.2]).map
      fun c => I.value c env) =
      fields.map fun field => (I.value field.1 env, I.value field.2 env) := by
    induction fields with
    | nil => rfl
    | cons field fields ih => simp [pairUp, ← ih]
  rw [value, meaning_eq, ← hpairs]
  change literal (pairUp (((fields.flatMap fun field => [field.1, field.2]).map _).map _)) = _
  rw [List.map_map]
  rfl

theorem value_tuple (cs : List Con) :
    I.value (.tuple cs) env = Traits.tuple (cs.map fun c => I.value c env) := by
  rw [value, meaning_eq]
  change Traits.tuple ((cs.map _).map _) = _
  rw [List.map_map]
  rfl

theorem labels_label (x : String) : labels (I.value (.label x) env) = {x} := labels_approx_label x

theorem not_proper_error : ¬ (I.value .error env).Proper := fun h => h.clean trivial

/-! ## Definitions -/

/-- The names that the table defines stand for their definitions, and the names of one item for the
same. -/
structure Knows (I : Instantiation) (globals : Globals) : Prop where
  definition : ∀ {id k body}, globals.definition? id = some (.con k body) →
    I.value (.global id) = I.value body
  classDefinition : ∀ {id k body}, globals.definition? id = some (.class k (some body)) →
    I.value (.global id) = I.value body
  item : ∀ {module path item k body}, globals.moduleItem? (globals.canonical ⟨module, path⟩) item
    .con = some (.con k (some body)) → I.value (.member module path item) = I.value body
  classItem : ∀ {module path item k body}, globals.moduleItem? (globals.canonical ⟨module, path⟩)
    item .con = some (.class k (some body)) → I.value (.member module path item) = I.value body
  canonical : ∀ module path item, I.value (.member module path item) =
    I.value (.member (globals.canonical ⟨module, path⟩).module
      (globals.canonical ⟨module, path⟩).path item)

/-- The instantiation agrees with everything that is known of the metavariables and names. -/
structure Respects (I : Instantiation) (globals : Globals) (store : Store) : Prop
    extends Knows I globals where
  solves : I.algebra.Solves store

/-! ## Steps of a reduction -/

/-- Every proper meaning of the first constructor is one of the second. -/
def Keeps (I : Instantiation) (c r : Con) : Prop :=
  ∀ env, (I.value c env).Proper → I.value r env = I.value c env

namespace Keeps

variable {a b c : Con}

theorem refl (c : Con) : I.Keeps c c := fun _ _ => rfl

theorem of_eq (h : I.value b = I.value a) : I.Keeps a b := fun env _ => congrFun h env

theorem of_improper (h : ∀ env, ¬ (I.value a env).Proper) : I.Keeps a b := fun env hproper =>
  absurd hproper (h env)

theorem trans (h : I.Keeps a b) (h' : I.Keeps b c) : I.Keeps a c := by
  intro env hproper
  have hab := h env hproper
  exact (h' env (hab ▸ hproper)).trans hab

theorem app {f f' : Con} (h : I.Keeps f f') (a : Con) : I.Keeps (.app f a) (.app f' a) := by
  intro env hproper
  rw [value_app] at hproper ⊢
  rw [h env (Proper.apply hproper), value_app]

theorem kapp {f f' : Con} (h : I.Keeps f f') (k : Kind) : I.Keeps (.kapp f k) (.kapp f' k) := h

theorem concat {l l' r r' : Con} (hl : I.Keeps l l') (hr : I.Keeps r r') :
    I.Keeps (.concat l r) (.concat l' r') := by
  intro env hproper
  rw [value_concat] at hproper ⊢
  obtain ⟨hL, hR⟩ := hproper.concat
  rw [hl env hL.proper, hr env hR.proper, value_concat]

theorem map {f f' r r' : Con} (hf : I.Keeps f f') (hr : I.Keeps r r') (d e : Kind) :
    I.Keeps (.map d e f r) (.map d e f' r') := by
  intro env hproper
  rw [value_map] at hproper ⊢
  obtain ⟨hF, hR⟩ := hproper.mapped
  rw [hf env hF.proper, hr env hR, value_map]

theorem proj {r r' f f' : Con} (hr : I.Keeps r r') (hf : I.Keeps f f') :
    I.Keeps (.proj r f) (.proj r' f') := by
  intro env hproper
  rw [value_proj] at hproper ⊢
  obtain ⟨hR, x, hN, -⟩ := hproper.project
  rw [hr env hR, hf env (proper_of_labels hN), value_proj]

theorem component {t t' : Con} (h : I.Keeps t t') (i : Nat) :
    I.Keeps (.component t i) (.component t' i) := by
  intro env hproper
  rw [value_component] at hproper ⊢
  rw [h env hproper.select, value_component]

end Keeps

/-! ## The row operators -/

theorem concatHeads_keeps (l r : Con) : I.Keeps (.concat l r) (concatHeads l r) := by
  intro env hproper
  rw [value_concat] at hproper ⊢
  obtain ⟨hL, hR⟩ := hproper.concat
  unfold concatHeads
  split
  · exact absurd hL.proper not_proper_error
  · exact absurd hR.proper not_proper_error
  · rw [value_row]
    exact (empty_concat fun _ _ => hR.row).symm
  · rw [value_row, concat_comm]
    exact (empty_concat fun _ _ => hL.row).symm
  · rw [value_row, value_row, value_row, List.map_append, literal_append]
  · rfl

theorem isFunction_abs (x : String) (k : Kind) (body : Con) :
    IsFunction (I.value (.abs x k body) env) := by
  refine ⟨function_mem_lambda _, ?_⟩
  rintro (h | ⟨_, _, h, -⟩) <;> cases h

theorem isRow_literal {k : Kind} {fields : List (Con × Con)}
    (h : (I.value (.row k fields) env).Proper) :
    IsRow (literal (fields.map fun field => (I.value field.1 env, I.value field.2 env))) := by
  rw [value_row] at h
  obtain ⟨t, ht⟩ := h.defined
  exact ⟨row_mem_literal ht, h.clean⟩

/-- A literal with constant labels is a row with those labels. -/
theorem isRow_of_constant {k : Kind} {fields : List (Con × Con)}
    (h : ∀ field ∈ fields, ∃ x, field.1 = .label x) :
    IsRow (I.value (.row k fields) env) ∧
      labels (I.value (.row k fields) env) = {x | ∃ value, (.label x, value) ∈ fields} := by
  rw [value_row]
  have hnames : ∀ field ∈ fields.map fun field => (I.value field.1 env, I.value field.2 env),
      ∃ x, labels field.1 = {x} := by
    refine List.forall_mem_map.mpr fun field hfield => ?_
    obtain ⟨x, hx⟩ := h field hfield
    have hlabels : labels (I.value (.label x) env) = {x} := labels_label x
    exact ⟨x, hx ▸ hlabels⟩
  have hrow := isRow_literal_of_names hnames
  refine ⟨hrow, hrow.literal.2.trans (Set.ext fun x => ?_)⟩
  constructor
  · rintro ⟨_, hmem, hx⟩
    obtain ⟨⟨name, value⟩, hfield, rfl⟩ := List.mem_map.mp hmem
    obtain ⟨y, rfl⟩ : ∃ y, name = .label y := h (name, value) hfield
    have hxy : x ∈ labels (I.value (.label y) env) := hx
    rw [labels_label, Set.mem_singleton_iff] at hxy
    exact ⟨value, hxy ▸ hfield⟩
  · rintro ⟨value, hfield⟩
    refine ⟨_, List.mem_map_of_mem hfield, mem_labels.mp ?_⟩
    rw [labels_label]
    rfl

theorem mapRow_keeps (d e : Kind) (f row : Con) :
    I.Keeps (.map d e f row) (mapRow d e f row) := by
  induction row using inductionOnParts with
  | step row ih =>
    intro env hproper
    obtain ⟨hF, hR⟩ := Proper.mapped (value_map d e f row ▸ hproper)
    cases row with
    | error => exact absurd hR not_proper_error
    | row k fields =>
      rw [value_map, value_row, mapped_literal hF (isRow_literal hR), mapRow, value_row,
        List.map_map, List.map_map]
      rfl
    | concat l r =>
      have hstep : I.value (.concat (.map d e f l) (.map d e f r)) env =
          I.value (.map d e f (.concat l r)) env := (mapped_concat hF).symm
      have hheads := ((ih l (by simp [parts])).concat (ih r (by simp [parts]))).trans
        (concatHeads_keeps _ _)
      exact (hheads env (hstep ▸ hproper)).trans hstep
    | map d' e' g base =>
      exact (mapped_mapped hF (Proper.mapped hR).1 (isFunction_abs _ _ _)
        (apply_compose (fun _ _ _ => rfl) d' f g env)).symm
    | _ => rfl

theorem mapHead_keeps (d e : Kind) (f row : Con) :
    I.Keeps (.map d e f row) (mapHead d e f row) := by
  intro env hproper
  obtain ⟨hF, hR⟩ := Proper.mapped (value_map d e f row ▸ hproper)
  unfold mapHead
  split
  next h =>
    rcases h with rfl | rfl
    · exact absurd hR not_proper_error
    · exact absurd hF.proper not_proper_error
  next =>
    split
    next h =>
      unfold isIdentity at h
      split at h
      · exact (mapped_identity hF fun X => (meaning_finitary (.bvar 0)).apply_lambda env X).symm
      · cases h
    next => exact mapRow_keeps d e f row env hproper

/-! ## Projections -/

/-- Where the row is proper and does not repeat the label, the value found is the one there. -/
def Finds (I : Instantiation) (row field value : Con) : Prop :=
  ∀ env x, (I.value row env).Proper → labels (I.value field env) = {x} →
    .clash x ∉ I.value row env →
      .label x ∈ I.value row env ∧ I.value value env = valueAt x (I.value row env)

namespace Finds

variable {l r l' r' field value : Con}

theorem literal {k : Kind} {fields : List (Con × Con)} {entry : Con × Con}
    (h : entry ∈ fields) : I.Finds (.row k fields) entry.1 entry.2 := by
  intro env x hproper hx hclash
  have hliteral := isRow_literal hproper
  have hlabel : .label x ∈ I.value entry.1 env := by
    rw [← mem_labels, hx]
    exact rfl
  have hentry := List.mem_map_of_mem
    (f := fun field : Con × Con => (I.value field.1 env, I.value field.2 env)) h
  rw [value_row] at hclash ⊢
  rw [← mem_labels, hliteral.literal.2, valueAt_literal hliteral hclash hentry hlabel]
  exact ⟨⟨_, hentry, hlabel⟩, rfl⟩

theorem left (hkeeps : I.Keeps l l') (h : I.Finds l' field value) :
    I.Finds (.concat l r) field value := by
  intro env x hproper hx hclash
  rw [value_concat] at hproper hclash ⊢
  obtain ⟨hL, hR⟩ := hproper.concat
  rw [clash_mem_concat hL.row hR.row] at hclash
  push Not at hclash
  have heq := hkeeps env hL.proper
  obtain ⟨hlabel, hvalue⟩ := heq ▸ h env x (heq ▸ hL.proper) hx (heq ▸ hclash.1)
  exact ⟨(label_mem_concat hL.row hR.row).mpr (.inl hlabel),
    hvalue.trans (valueAt_concat_left hL.row hR.row (hclash.2.2 hlabel)).symm⟩

theorem right (hkeeps : I.Keeps r r') (h : I.Finds r' field value) :
    I.Finds (.concat l r) field value := by
  intro env x hproper hx hclash
  rw [value_concat, concat_comm, ← value_concat] at hproper hclash ⊢
  exact left hkeeps h env x hproper hx hclash

theorem keeps {row : Con} (h : I.Finds row field value) : I.Keeps (.proj row field) value := by
  intro env hproper
  rw [value_proj] at hproper ⊢
  obtain ⟨hR, x, hN, hvalue⟩ := hproper.project
  rw [hvalue] at hproper
  have hclash : .clash x ∉ I.value row env := fun hclash =>
    hproper.clean (field_mem_of_clash hclash _)
  exact (h env x hR hN hclash).2.trans hvalue.symm

end Finds

end Instantiation

end RowML
