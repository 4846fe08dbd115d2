import RowML.Proofs.Module.Contents
import RowML.Proofs.Normal.Conversion
import RowML.Proofs.Normal.Denotation
import RowML.Proofs.Normal.Domain

/-!
# Convertibility is not trivial

Every constructor has a meaning in the domain for convertibility, and convertible constructors have
the same meaning.  Different built-in types have different meanings, so they are not convertible.
-/

namespace RowML

namespace Con

open Observed

/-! ## The meaning of a constructor -/

/-- The meaning of a literal, given those of its names and values in turn. -/
def literalMeaning : List ((Nat → Observed) → Observed) → (Nat → Observed) → Observed
  | name :: value :: rest => fun env => fieldOf (name env) (value env) ⊔ literalMeaning rest env
  | _ => fun _ => ⊥

/-- The meaning of a tuple whose first component is number `i`. -/
def tupleMeaning (i : Nat) : List ((Nat → Observed) → Observed) → (Nat → Observed) → Observed
  | c :: rest => fun env => place i (c env) ⊔ tupleMeaning (i + 1) rest env
  | [] => fun _ => ⊥

/-- What a node makes of the meanings of its parts.  Nodes that no law looks at mean nothing. -/
def plainOp (metas : MetaId → Observed) :
    Con → List ((Nat → Observed) → Observed) → (Nat → Observed) → Observed
  | .prim p, _ => fun _ => approx [.prim p]
  | .label x, _ => fun _ => approx [.label x]
  | .mvar v _, _ => fun _ => metas v
  | .app _ _, [f, a] => fun env => apply (f env) (a env)
  | .kabs _ _, [body] => body
  | .kapp _ _, [f] => f
  | .row _ _, parts => literalMeaning parts
  | .concat _ _, [l, r] => fun env => l env ⊔ r env
  | .map _ _ _ _, [f, r] => fun env => mapped (f env) (r env)
  | .proj _ _, [r, f] => fun env => project (r env) (f env)
  | .tuple _, parts => tupleMeaning 0 parts
  | .component _ i, [t] => fun env => select i (t env)
  | _, _ => fun _ => ⊥

section Operations

variable {metas : MetaId → Observed} {parts parts' : List ((Nat → Observed) → Observed)}
  {env env' : Nat → Observed}

theorem literalMeaning_finitary (h : ∀ part ∈ parts, Finitary part) :
    Finitary (literalMeaning parts) := by
  fun_induction literalMeaning parts with
  | case1 name value rest ih =>
    have hfield := Finitary.comp₂ finitary_fieldOf (h name (by simp)) (h value (by simp))
    exact Finitary.comp₂ finitary_join hfield (ih fun part hpart => h part (by simp [hpart]))
  | case2 => exact .const ⊥

theorem tupleMeaning_finitary (h : ∀ part ∈ parts, Finitary part) (i : Nat) :
    Finitary (tupleMeaning i parts) := by
  induction parts generalizing i with
  | nil => exact .const ⊥
  | cons c rest ih =>
    have hplace := Finitary.comp₂ (finitary_place i) (h c (by simp)) (.const ⊥)
    exact Finitary.comp₂ finitary_join hplace
      (ih (fun part hpart => h part (List.mem_cons_of_mem _ hpart)) (i + 1))

theorem plainOp_finitary (c : Con) (h : ∀ part ∈ parts, Finitary part) :
    Finitary (plainOp metas c parts) := by
  unfold plainOp
  split
  · exact .const _
  · exact .const _
  · exact .const _
  · exact Finitary.comp₂ finitary_apply (h _ (by simp)) (h _ (by simp))
  · exact h _ (by simp)
  · exact h _ (by simp)
  · exact literalMeaning_finitary h
  · exact Finitary.comp₂ finitary_join (h _ (by simp)) (h _ (by simp))
  · exact Finitary.comp₂ finitary_mapped (h _ (by simp)) (h _ (by simp))
  · exact Finitary.comp₂ finitary_project (h _ (by simp)) (h _ (by simp))
  · exact tupleMeaning_finitary h 0
  · exact Finitary.comp₂ (finitary_select _) (h _ (by simp)) (.const ⊥)
  · exact .const ⊥

theorem literalMeaning_congr
    (h : List.Forall₂ (fun part part' => part env = part' env') parts parts') :
    literalMeaning parts env = literalMeaning parts' env' := by
  fun_induction literalMeaning parts generalizing parts' with
  | case1 name value rest ih =>
    obtain _ | ⟨hname, _ | ⟨hvalue, hrest⟩⟩ := h
    simp only [literalMeaning, hname, hvalue, ih hrest]
  | case2 parts hparts =>
    obtain _ | ⟨_, _ | ⟨_, _⟩⟩ := h
    · rfl
    · rfl
    · exact absurd rfl (hparts _ _ _)

theorem tupleMeaning_congr
    (h : List.Forall₂ (fun part part' => part env = part' env') parts parts') (i : Nat) :
    tupleMeaning i parts env = tupleMeaning i parts' env' := by
  induction h generalizing i with
  | nil => rfl
  | cons hpart _ ih => simp only [tupleMeaning, hpart, ih]

theorem plainOp_congr (c : Con)
    (h : List.Forall₂ (fun part part' => part env = part' env') parts parts') :
    plainOp metas c parts env = plainOp metas c parts' env' := by
  cases c with
  | row => exact literalMeaning_congr h
  | tuple => exact tupleMeaning_congr h 0
  | _ =>
    obtain _ | ⟨hp, _ | ⟨hq, _ | ⟨hr, hrest⟩⟩⟩ := h <;> simp_all only [plainOp]

end Operations

/-- The domain for convertibility as an algebra. -/
def plain (metas : MetaId → Observed) : Algebra Token where
  op := plainOp metas
  finitary c _ h := plainOp_finitary c h
  congr c _ _ _ _ h := plainOp_congr c h

/-- The same domain with meanings for the items of modules. -/
def tabled (metas : MetaId → Observed) (members : ModuleId → List String → String → Observed) :
    Algebra Token where
  op
    | .member module path item, _ => fun _ => members module path item
    | c, parts => plainOp metas c parts
  finitary c _ h := by
    cases c with
    | member => exact .const _
    | _ => exact plainOp_finitary _ h
  congr c _ _ _ _ h := by
    cases c with
    | member => rfl
    | _ => exact plainOp_congr _ h

/-- Unless they are given one, items have no meaning. -/
theorem plain_eq (metas : MetaId → Observed) : plain metas = tabled metas fun _ _ _ => ⊥ := by
  have hop : (plain metas).op = (tabled metas fun _ _ _ => ⊥).op := by
    funext c parts
    cases c <;> rfl
  exact (Algebra.mk.injEq ..).mpr hop

variable {metas : MetaId → Observed} {members : ModuleId → List String → String → Observed}

/-! ## Laws -/

theorem literalMeaning_append (fields fields' : List (Con × Con)) (env : Nat → Observed) :
    literalMeaning (fieldMeanings (tabled metas members) (fields ++ fields')) env =
      literalMeaning (fieldMeanings (tabled metas members) fields) env ⊔
        literalMeaning (fieldMeanings (tabled metas members) fields') env := by
  induction fields with
  | nil => simp [fieldMeanings, literalMeaning]
  | cons field fields ih =>
    simp only [List.cons_append, fieldMeanings, literalMeaning, ih, sup_assoc]

/-- Mapping a function over a literal maps it over the fields. -/
theorem mapped_literal (f : Con) (fields : List (Con × Con)) (env : Nat → Observed) :
    mapped (meaning (tabled metas members) f env)
        (literalMeaning (fieldMeanings (tabled metas members) fields) env) =
      literalMeaning (fieldMeanings (tabled metas members)
        (fields.map fun field => (field.1, .app f field.2))) env := by
  induction fields with
  | nil => exact mapped_bot
  | cons field fields ih =>
    simp only [List.map_cons, fieldMeanings, literalMeaning, mapped_join, mapped_fieldOf, ih]
    rfl

theorem meaning_label (x : String) (env : Nat → Observed) :
    meaning (tabled metas members) (.label x) env = approx [.label x] := by
  rw [meaning]
  · rfl
  all_goals simp

theorem label_mem_approx {x y : String} : Token.label x ∈ approx [.label y] ↔ x = y := by
  rw [mem_approx_singleton fun h => by
    cases h
    rfl]
  exact Token.label.injEq x y ▸ Iff.rfl

/-- The observations of a literal at a label. -/
theorem field_mem_literal {x : String} {values : List Token} {fields : List (Con × Con)}
    {env : Nat → Observed} :
    Token.field x values ∈ literalMeaning (fieldMeanings (tabled metas members) fields) env ↔
      ∃ field ∈ fields, Token.label x ∈ meaning (tabled metas members) field.1 env ∧
        ∀ s ∈ values, s ∈ meaning (tabled metas members) field.2 env := by
  induction fields with
  | nil => simp [fieldMeanings, literalMeaning, LowerSet.notMem_bot]
  | cons field fields ih =>
    simp only [fieldMeanings, literalMeaning, LowerSet.mem_sup_iff, ih, mem_fieldOf,
      List.exists_mem_cons_iff]
    refine or_congr ⟨?_, ?_⟩ Iff.rfl
    · rintro ⟨_, _, ⟨⟩, h⟩
      exact h
    · exact fun h => ⟨x, values, rfl, h⟩

theorem project_literal {fields : List (Con × Con)} {x : String} {value : Con}
    (hdistinct : DistinctLabels fields) (h : (.label x, value) ∈ fields) (env : Nat → Observed) :
    project (literalMeaning (fieldMeanings (tabled metas members) fields) env) (approx [.label x]) =
      meaning (tabled metas members) value env := by
  obtain ⟨names, hnames, hnodup⟩ := hdistinct
  have hunique : ∀ field ∈ fields, Token.label x ∈ meaning (tabled metas members) field.1 env →
      field = (.label x, value) := by
    intro field hfield hmem
    have hlabel : field.1 ∈ names.map Con.label := hnames ▸ List.mem_map_of_mem hfield
    obtain ⟨y, -, hy⟩ := List.mem_map.mp hlabel
    rw [← hy, meaning_label, label_mem_approx] at hmem
    have hnodup' : (fields.map (·.1)).Nodup := hnames ▸ hnodup.map fun _ _ h => by cases h; rfl
    exact List.inj_on_of_nodup_map hnodup' hfield h (by rw [← hy, hmem])
  refine SetLike.ext fun t => ?_
  simp only [mem_project, field_mem_literal, label_mem_approx]
  constructor
  · rintro ⟨y, v, rfl, ⟨field, hfield, hname, hvalue⟩, hle⟩
    rw [hunique field hfield hname] at hvalue
    exact (meaning (tabled metas members) value env).lower hle (hvalue v (by simp))
  · intro ht
    refine ⟨x, t, rfl, ⟨_, h, ?_, by simpa using ht⟩, le_rfl⟩
    rw [meaning_label, label_mem_approx]

theorem select_tuple {cs : List Con} {i : Nat} {c : Con} (h : cs[i]? = some c) (j : Nat)
    (env : Nat → Observed) :
    select (j + i) (tupleMeaning j (meanings (tabled metas members) cs) env) =
      meaning (tabled metas members) c env := by
  have hlater : ∀ (cs : List Con) {i j : Nat}, i < j →
      select i (tupleMeaning j (meanings (tabled metas members) cs) env) = ⊥ := by
    intro cs
    induction cs with
    | nil => exact fun _ => select_bot _
    | cons c cs ih =>
      intro i j hij
      rw [meanings, tupleMeaning, select_join, select_place_of_ne (by omega), ih (by omega),
        bot_sup_eq]
  induction cs generalizing i j with
  | nil => cases h
  | cons d cs ih =>
    rw [meanings, tupleMeaning, select_join]
    cases i with
    | zero =>
      cases h
      rw [Nat.add_zero, select_place, hlater cs (by omega), sup_bot_eq]
    | succ i =>
      have hi : j + (i + 1) = j + 1 + i := by omega
      rw [select_place_of_ne (by omega), hi, ih h, bot_sup_eq]

/-- Items mean what the table says about them; it says nothing about global constructors. -/
structure Describes (globals : Globals) (metas : MetaId → Observed)
    (members : ModuleId → List String → String → Observed) : Prop where
  definition : ∀ {id kind body}, globals.definition? id = some (.con kind body) ∨
      globals.definition? id = some (.class kind (some body)) →
    meaning (tabled metas members) body = fun _ => ⊥
  canonical : ∀ ref item, members (globals.canonical ref).module (globals.canonical ref).path item =
    members ref.module ref.path item
  item : ∀ {ref item kind body}, globals.moduleItem? (globals.canonical ref) item .con =
        some (.con kind (some body)) ∨
      globals.moduleItem? (globals.canonical ref) item .con = some (.class kind (some body)) →
    meaning (tabled metas members) body = fun _ => members ref.module ref.path item

theorem describes_empty : Describes Globals.empty metas fun _ _ _ => ⊥ where
  definition := by rintro _ _ _ (h | h) <;> cases h
  canonical _ _ := rfl
  item := by
    rintro ref item kind body (h | h) <;> cases Globals.eq_error_of_item_empty h
    rfl

theorem meaning_law {globals : Globals} (htable : Describes globals metas members) {a b : Con}
    (h : Law globals a b) :
    meaning (tabled metas members) a = meaning (tabled metas members) b := by
  cases h with
  | definition h => exact (htable.definition (.inl h)).symm
  | classDefinition h => exact (htable.definition (.inr h)).symm
  | item h => exact (htable.item (.inl h)).symm
  | classItem h => exact (htable.item (.inr h)).symm
  | canonical module path item =>
    exact funext fun _ => (htable.canonical ⟨module, path⟩ item).symm
  | renameAbs | renameKabs | renamePoly | renameKpoly | rowKind => rfl
  | beta x k body argument => exact funext fun env => meaning_app_abs x k body argument env
  | kindBeta x body argument =>
    exact funext fun env => (meaning_kindSubstituted body argument env).symm
  | concatEmpty k r => exact funext fun _ => bot_sup_eq _
  | concatComm l r => exact funext fun _ => sup_comm _ _
  | concatAssoc a b c => exact funext fun _ => sup_assoc _ _ _
  | concatRow k k' fields fields' =>
    exact funext fun env => (literalMeaning_append fields fields' env).symm
  | mapRow d c k f fields => exact funext fun env => mapped_literal f fields env
  | mapConcat d c f l r => exact funext fun _ => mapped_join
  | mapMap d c d' c' f g r =>
    exact funext fun env => mapped_mapped (apply_compose (fun _ _ _ => rfl) d' f g env)
  | mapIdentity d c x k r =>
    exact funext fun env => mapped_identity fun X => (meaning_finitary (.bvar 0)).apply_lambda env X
  | projRow hdistinct h => exact funext fun env => project_literal hdistinct h env
  | component h =>
    funext env
    refine Eq.trans ?_ (select_tuple h 0 env)
    rw [Nat.zero_add]
    rfl

/-- Convertible constructors have the same meaning, if solved metavariables mean what their
solutions mean. -/
theorem meaning_convertible {globals : Globals} {store : Store}
    (htable : Describes globals metas members)
    (hmetas : ∀ {a b}, store.Unfolds a b →
      meaning (tabled metas members) a = meaning (tabled metas members) b)
    {a b : Con} (h : Convertible globals store a b) :
    meaning (tabled metas members) a = meaning (tabled metas members) b := by
  refine meaning_congr (fun hstep => ?_) h
  rcases hstep with hstep | hlaw
  · exact hmetas hstep
  · exact meaning_law htable hlaw

theorem prim_mem_approx {p q : Prim} : Token.prim p ∈ approx [.prim q] ↔ p = q := by
  rw [mem_approx_singleton fun h => by
    cases h
    rfl]
  exact Token.prim.injEq p q ▸ Iff.rfl

/-- Constructors that an observation tells apart are not convertible. -/
theorem not_convertible_of_mem (metas : MetaId → Observed) (t : Token) {store : Store}
    (hmetas : ∀ {a b}, store.Unfolds a b → meaning (plain metas) a = meaning (plain metas) b)
    {a b : Con} (ha : t ∈ meaning (plain metas) a fun _ => ⊥)
    (hb : t ∉ meaning (plain metas) b fun _ => ⊥) :
    ¬ Convertible Globals.empty store a b := by
  rw [plain_eq] at ha hb hmetas
  exact fun h => hb (meaning_convertible describes_empty hmetas h ▸ ha)

/-- Different built-in types are not convertible. -/
theorem not_convertible_prim {p q : Prim} (hpq : p ≠ q) :
    ¬ Convertible Globals.empty Store.empty (.prim p) (.prim q) := by
  have hp : Token.prim p ∈ meaning (plain fun _ => ⊥) (.prim p) fun _ => ⊥ :=
    prim_mem_approx.mpr rfl
  have hq : Token.prim p ∉ meaning (plain fun _ => ⊥) (.prim q) fun _ => ⊥ := fun h =>
    hpq (prim_mem_approx.mp h)
  exact not_convertible_of_mem (fun _ => ⊥) _ (fun {a b} hab => by rcases hab with ⟨⟨⟩, -⟩) hp hq

end Con

end RowML
