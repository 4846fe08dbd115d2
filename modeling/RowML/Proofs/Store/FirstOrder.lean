import RowML.Proofs.Kind.Known
import RowML.Proofs.Row.Ground
import RowML.Proofs.Store.Imitation

/-!
# First-order stores

A constructor is first order if it is built from primitives, variables and skolems that are no rows,
applications of these, abstractions, functions, polymorphic types over types, tuples, records,
variants, metavariables without a spine, and rows that are made of literals with constant labels and
at most one metavariable.  It has a kind in a context that tells the kinds of its free variables,
and the kinds that are written in it are known.

A solution of a store assigns a closed ground constructor to every metavariable, a row to every row
metavariable, such that each solved metavariable is what its solution denotes.  Reading solutions
changes neither what a constructor denotes nor which assignments are solutions.
-/

namespace RowML

open Ground

/-- Whether a kind is the kind of a row. -/
def Kind.isRow : Kind → Bool
  | .record _ => true
  | _ => false

namespace Con

/-- Whether a constructor is a variable or a skolem that is applied to any number of arguments. -/
def isRigid : Con → Bool
  | .bvar _ => true
  | .skolem _ => true
  | .app f _ => f.isRigid
  | _ => false

/-- The number of metavariables that a row is concatenated from. -/
def tails : Con → Nat
  | .mvar _ _ => 1
  | .concat l r => l.tails + r.tails
  | _ => 0

/-- Whether a field is written in one of the literals that a row is concatenated from. -/
def hasField : Con → Bool
  | .row _ fields => !fields.isEmpty
  | .concat l r => l.hasField || r.hasField
  | _ => false

/-- A first-order constructor and its kind in a context, the kind of the variable that is bound last
first. -/
inductive FirstOrder (store : Store) : List Kind → Con → Kind → Prop where
  | prim {Γ : List Kind} (p : Prim) : FirstOrder store Γ (.prim p) .type
  | bvar {Γ : List Kind} {i : Nat} {g : Kind} (hi : Γ[i]? = some g) (hrow : g.isRow = false) :
      FirstOrder store Γ (.bvar i) g
  | skolem {Γ : List Kind} {s : SkolemId} {g : Kind}
      (hkind : (store.skolem s).kind.Known store.kinds g) (hrow : g.isRow = false) :
      FirstOrder store Γ (.skolem s) g
  | app {Γ : List Kind} {f a : Con} {g g' : Kind} (hf : FirstOrder store Γ f (.arrow g g'))
      (hrigid : f.isRigid = true) (ha : FirstOrder store Γ a g) (hrow : g'.isRow = false) :
      FirstOrder store Γ (.app f a) g'
  | abs {Γ : List Kind} {x : String} {k : Kind} {a : Con} {g g' : Kind}
      (hk : k.Known store.kinds g) (ha : FirstOrder store (g :: Γ) a g') :
      FirstOrder store Γ (.abs x k a) (.arrow g g')
  | arrow {Γ : List Kind} {a b : Con} (ha : FirstOrder store Γ a .type)
      (hb : FirstOrder store Γ b .type) : FirstOrder store Γ (.arrow a b) .type
  | poly {Γ : List Kind} {x : String} {implicit : Bool} {k : Kind} {a : Con}
      (hk : k.Known store.kinds .type) (ha : FirstOrder store (.type :: Γ) a .type) :
      FirstOrder store Γ (.poly x implicit k a) .type
  | tupleNil {Γ : List Kind} : FirstOrder store Γ (.tuple []) (.tuple [])
  | tupleCons {Γ : List Kind} {c : Con} {cs : List Con} {g : Kind} {gs : List Kind}
      (hc : FirstOrder store Γ c g) (hcs : FirstOrder store Γ (.tuple cs) (.tuple gs)) :
      FirstOrder store Γ (.tuple (c :: cs)) (.tuple (g :: gs))
  | record {Γ : List Kind} {r : Con} (hr : FirstOrder store Γ r .typeRow) :
      FirstOrder store Γ (.record r) .type
  | variant {Γ : List Kind} {r : Con} (hr : FirstOrder store Γ r .typeRow) :
      FirstOrder store Γ (.variant r) .type
  | mvar {Γ : List Kind} {v : MetaId} {g : Kind} (hv : v < store.cells.size)
      (harity : (store.cell v).arity = 0) (hkind : (store.cell v).kind.Known store.kinds g) :
      FirstOrder store Γ (.mvar v []) g
  | rowNil {Γ : List Kind} {k g : Kind} (hk : k.Known store.kinds g) :
      FirstOrder store Γ (.row k []) (.record g)
  | rowCons {Γ : List Kind} {k g : Kind} {x : String} {value : Con} {fields : List (Con × Con)}
      (hvalue : FirstOrder store Γ value g)
      (hfields : FirstOrder store Γ (.row k fields) (.record g)) :
      FirstOrder store Γ (.row k ((.label x, value) :: fields)) (.record g)
  | concat {Γ : List Kind} {l r : Con} {g : Kind} (hl : FirstOrder store Γ l (.record g))
      (hr : FirstOrder store Γ r (.record g)) (htails : l.tails + r.tails ≤ 1) :
      FirstOrder store Γ (.concat l r) (.record g)

/-- A label or a first-order constructor. -/
def Plain (store : Store) (c : Con) : Prop :=
  (∃ x, c = .label x) ∨ ∃ Γ g, c.FirstOrder store Γ g

end Con

namespace Store

/-- The second store has all the cells of the first one, and kinds stand for what they stood for. -/
structure Extends (store store' : Store) : Prop where
  size : store.cells.size ≤ store'.cells.size
  arity : ∀ i < store.cells.size, (store'.cell i).arity = (store.cell i).arity
  kind : ∀ i < store.cells.size, (store'.cell i).kind = (store.cell i).kind
  skolems : store'.skolems = store.skolems
  known : store.kinds.KeepsKnown store'.kinds

theorem Extends.refl (store : Store) : Extends store store :=
  ⟨Nat.le_refl _, fun _ _ => rfl, fun _ _ => rfl, rfl, .refl _⟩

theorem Extends.trans {store store' store'' : Store} (h : Extends store store')
    (h' : Extends store' store'') : Extends store store'' where
  size := Nat.le_trans h.size h'.size
  arity i hi := (h'.arity i (Nat.lt_of_lt_of_le hi h.size)).trans (h.arity i hi)
  kind i hi := (h'.kind i (Nat.lt_of_lt_of_le hi h.size)).trans (h.kind i hi)
  skolems := h'.skolems.trans h.skolems
  known := h.known.trans h'.known

end Store

namespace Con

variable {store store' : Store} {c : Con} {Γ : List Kind} {g : Kind}

theorem Fits.lt_of_mentions (h : c.Fits store) {v : MetaId} (hv : c.Mentions v) :
    v < store.cells.size := by
  induction c using inductionOnParts with
  | step c ih =>
    rcases mentions_iff.mp hv with ⟨spine, rfl⟩ | ⟨p, hp, hv⟩
    · exact (h.top v spine rfl).1
    · exact ih p hp (h.part hp) hv

namespace FirstOrder

theorem mono (h : c.FirstOrder store Γ g) (grows : store.Extends store') :
    c.FirstOrder store' Γ g := by
  induction h with
  | prim p => exact .prim p
  | bvar hi hrow => exact .bvar hi hrow
  | skolem hkind hrow =>
    refine .skolem ?_ hrow
    rw [Store.skolem, grows.skolems]
    exact (grows.known _ _).mpr hkind
  | app _ hrigid _ hrow ihf iha => exact .app ihf hrigid iha hrow
  | arrow _ _ iha ihb => exact .arrow iha ihb
  | abs hk _ ih => exact .abs ((grows.known _ _).mpr hk) ih
  | poly hk _ ih => exact .poly ((grows.known _ _).mpr hk) ih
  | tupleNil => exact .tupleNil
  | tupleCons _ _ ihc ihcs => exact .tupleCons ihc ihcs
  | record _ ih => exact .record ih
  | variant _ ih => exact .variant ih
  | @mvar _ v g hv hzero hk =>
    refine .mvar (Nat.lt_of_lt_of_le hv grows.size) ((grows.arity v hv).trans hzero) ?_
    rw [grows.kind v hv]
    exact (grows.known _ g).mpr hk
  | rowNil hk => exact .rowNil ((grows.known _ _).mpr hk)
  | rowCons _ _ ihvalue ihfields => exact .rowCons ihvalue ihfields
  | concat _ _ htails ihl ihr => exact .concat ihl ihr htails

theorem tails_le (h : c.FirstOrder store Γ g) : c.tails ≤ 1 := by
  cases h with
  | mvar => exact Nat.le_refl 1
  | concat _ _ htails => exact htails
  | _ => exact Nat.zero_le 1

theorem part (h : c.FirstOrder store Γ g) {p : Con} (hp : p ∈ c.parts) : p.Plain store := by
  induction h with
  | prim | bvar | skolem | tupleNil | rowNil | mvar => cases hp
  | app ha _ hb | arrow ha hb =>
    rcases List.mem_pair.mp hp with rfl | rfl
    · exact .inr ⟨_, _, ha⟩
    · exact .inr ⟨_, _, hb⟩
  | abs _ ha | poly _ ha =>
    cases List.mem_singleton.mp hp
    exact .inr ⟨_, _, ha⟩
  | tupleCons hc _ _ ihcs =>
    rcases List.mem_cons.mp hp with rfl | hp
    · exact .inr ⟨_, _, hc⟩
    · exact ihcs hp
  | record hr | variant hr =>
    cases List.mem_singleton.mp hp
    exact .inr ⟨_, _, hr⟩
  | rowCons hvalue _ _ ihfields =>
    rcases List.mem_append.mp hp with hp | hp
    · rcases List.mem_pair.mp hp with rfl | rfl
      · exact .inl ⟨_, rfl⟩
      · exact .inr ⟨_, _, hvalue⟩
    · exact ihfields hp
  | concat hl hr =>
    rcases List.mem_pair.mp hp with rfl | rfl
    · exact .inr ⟨_, _, hl⟩
    · exact .inr ⟨_, _, hr⟩

theorem spine_eq {v : MetaId} {spine : List Con} (h : (Con.mvar v spine).FirstOrder store Γ g) :
    spine = [] := by
  cases h with
  | mvar => rfl

end FirstOrder

namespace Plain

theorem part (h : c.Plain store) {p : Con} (hp : p ∈ c.parts) : p.Plain store := by
  rcases h with ⟨x, rfl⟩ | ⟨Γ, g, h⟩
  · cases hp
  · exact h.part hp

theorem mono (h : c.Plain store) (grows : store.Extends store') : c.Plain store' :=
  h.imp id fun ⟨Γ, g, h⟩ => ⟨Γ, g, h.mono grows⟩

theorem fits (h : c.Plain store) : c.Fits store := by
  induction c using inductionOnParts with
  | step c ih =>
    refine .intro (fun id spine hmvar => ?_) fun p hp => ih p hp (h.part hp)
    subst hmvar
    rcases h with ⟨x, hx⟩ | ⟨Γ, g, h⟩
    · cases hx
    · cases h with
      | mvar hv harity _ => exact ⟨hv, harity.symm⟩

end Plain

namespace FirstOrder

theorem fits (h : c.FirstOrder store Γ g) : c.Fits store := Plain.fits (.inr ⟨Γ, g, h⟩)

/-- What the metavariables of the store stand for decides what a constructor denotes. -/
theorem denotes_congr (h : c.FirstOrder store Γ g) {θ θ' : MetaId → Ground}
    (hθ : ∀ i < store.cells.size, θ i = θ' i) {t : Ground} :
    c.Denotes θ t ↔ c.Denotes θ' t := by
  have hlt : ∀ v, c.Mentions v → v < store.cells.size := fun v hv => Fits.lt_of_mentions h.fits hv
  exact ⟨fun hc => hc.congr fun v hv => hθ v (hlt v hv),
    fun hc => hc.congr fun v hv => (hθ v (hlt v hv)).symm⟩

/-! ### Contexts -/

/-- More variables may be bound further out. -/
theorem weaken (h : c.FirstOrder store Γ g) (Δ : List Kind) : c.FirstOrder store (Γ ++ Δ) g := by
  induction h with
  | prim p => exact .prim p
  | bvar hi hrow =>
    refine .bvar ?_ hrow
    rw [List.getElem?_append_left (List.getElem?_eq_some_iff.mp hi).1, hi]
  | skolem hkind hrow => exact .skolem hkind hrow
  | app _ hrigid _ hrow ihf iha => exact .app ihf hrigid iha hrow
  | arrow _ _ iha ihb => exact .arrow iha ihb
  | abs hk _ ih => exact .abs hk ih
  | poly hk _ ih => exact .poly hk ih
  | tupleNil => exact .tupleNil
  | tupleCons _ _ ihc ihcs => exact .tupleCons ihc ihcs
  | record _ ih => exact .record ih
  | variant _ ih => exact .variant ih
  | mvar hv harity hkind => exact .mvar hv harity hkind
  | rowNil hk => exact .rowNil hk
  | rowCons _ _ ihvalue ihfields => exact .rowCons ihvalue ihfields
  | concat _ _ htails ihl ihr => exact .concat ihl ihr htails

/-- The context counts as far as there are free variables. -/
theorem strengthen {n : Nat} (h : c.FirstOrder store Γ g) (hbound : c.bound ≤ n) :
    c.FirstOrder store (Γ.take n) g := by
  have part : ∀ {c p : Con} {n : Nat}, c.bound ≤ n → p ∈ c.parts → p.bound ≤ n + c.binders.con :=
    fun h => (bound_le_iff_parts.mp h).2 _
  induction h generalizing n with
  | prim p => exact .prim p
  | bvar hi hrow =>
    refine .bvar ?_ hrow
    rw [List.getElem?_take_of_lt ((bound_le_iff_parts.mp hbound).1 _ rfl), hi]
  | skolem hkind hrow => exact .skolem hkind hrow
  | app _ hrigid _ hrow ihf iha =>
    exact .app (ihf (part hbound (by simp [parts]))) hrigid
      (iha (part hbound (by simp [parts]))) hrow
  | arrow _ _ iha ihb =>
    exact .arrow (iha (part hbound (by simp [parts]))) (ihb (part hbound (by simp [parts])))
  | abs hk _ ih => exact .abs hk (ih (part hbound (by simp [parts])))
  | poly hk _ ih => exact .poly hk (ih (part hbound (by simp [parts])))
  | tupleNil => exact .tupleNil
  | @tupleCons _ c cs _ _ _ _ ihc ihcs =>
    exact .tupleCons (ihc (part hbound (by simp [parts])))
      (ihcs (bound_le_of_subset (c := .tuple (c :: cs)) (by simp) rfl (by simp [parts]) hbound))
  | record _ ih => exact .record (ih (part hbound (by simp [parts])))
  | variant _ ih => exact .variant (ih (part hbound (by simp [parts])))
  | mvar hv harity hkind => exact .mvar hv harity hkind
  | rowNil hk => exact .rowNil hk
  | @rowCons _ k _ x value fields _ _ ihvalue ihfields =>
    refine .rowCons (ihvalue (part hbound (by simp [parts]))) (ihfields ?_)
    exact bound_le_of_subset (c := .row k ((.label x, value) :: fields)) (by simp) rfl
      (by simp [parts]) hbound
  | concat _ _ htails ihl ihr =>
    exact .concat (ihl (part hbound (by simp [parts]))) (ihr (part hbound (by simp [parts]))) htails

end FirstOrder

end Con

namespace Store

/-- Every solution is closed and first order, at the kind of its cell. -/
structure FirstOrder (store : Store) : Prop where
  steady : store.Steady
  solutions : ∀ {i x}, store.solution? i = some x →
    ∃ g, (store.cell i).kind.Known store.kinds g ∧ x.FirstOrder store [] g

theorem FirstOrder.imitates {store : Store} (ok : store.FirstOrder) : store.Imitates := by
  rintro i _ hi v rfl
  obtain ⟨g, -, hx⟩ := ok.solutions hi
  cases hx with
  | bvar hv => cases hv

/-- The assignment makes every solved metavariable what its solution denotes. -/
structure SolvedBy (store : Store) (θ : MetaId → Ground) : Prop where
  closed : ∀ v, (θ v).Closed 0
  rows : ∀ {v g}, (store.cell v).kind.Known store.kinds (.record g) → ∃ f, θ v = .row f
  solutions : ∀ {i x}, store.solution? i = some x → x.Denotes θ (θ i)

variable {store store' store'' : Store} {c r : Con} {Γ : List Kind} {g : Kind}
  {θ : MetaId → Ground}

/-- A constructor of row kind denotes a row. -/
theorem SolvedBy.denotes_row (hθ : store.SolvedBy θ) (hc : c.FirstOrder store Γ (.record g))
    {t : Ground} (ht : c.Denotes θ t) : ∃ f, t = .row f := by
  cases hc with
  | mvar _ _ hkind =>
    cases ht
    exact hθ.rows hkind
  | rowNil | rowCons | concat =>
    cases ht
    exact ⟨_, rfl⟩
  | bvar _ hrow => cases hrow
  | skolem _ hrow => cases hrow
  | app _ _ _ hrow => cases hrow

/-- No row metavariable is outside of the store. -/
theorem lt_of_row {v : MetaId} (h : (store.cell v).kind.Known store.kinds (.record g)) :
    v < store.cells.size := by
  by_contra hv
  rw [cell, Array.getElem?_eq_none (Nat.le_of_not_lt hv)] at h
  cases h

/-- What the metavariables outside of the store stand for does not matter. -/
theorem SolvedBy.congr {θ' : MetaId → Ground} (hθ : store.SolvedBy θ) (ok : store.FirstOrder)
    (hagree : ∀ i < store.cells.size, θ i = θ' i) (hclosed : ∀ i, (θ' i).Closed 0) :
    store.SolvedBy θ' := by
  refine ⟨hclosed, fun {v g} hv => ?_, fun {i x} hi => ?_⟩
  · rw [← hagree v (lt_of_row hv)]
    exact hθ.rows hv
  · obtain ⟨g, -, hx⟩ := ok.solutions hi
    rw [← hagree i (lt_of_solution hi)]
    exact (hx.denotes_congr hagree).mp (hθ.solutions hi)

/-! ## Reading solutions -/

/-- The second store differs from the first one in how its solutions and kinds are written. -/
structure Respells (store store' : Store) : Prop extends store.Extends store' where
  cells : store'.cells.size = store.cells.size
  solved : ∀ i, store'.isSolved i = store.isSolved i
  solvedBy : ∀ θ, store'.SolvedBy θ ↔ store.SolvedBy θ

namespace Respells

theorem refl (store : Store) : Respells store store :=
  ⟨.refl store, rfl, fun _ => rfl, fun _ => Iff.rfl⟩

theorem trans (h : Respells store store') (h' : Respells store' store'') :
    Respells store store'' :=
  ⟨h.toExtends.trans h'.toExtends, h'.cells.trans h.cells,
    fun i => (h'.solved i).trans (h.solved i), fun θ => (h'.solvedBy θ).trans (h.solvedBy θ)⟩

theorem back (h : Respells store store') : store'.Extends store where
  size := Nat.le_of_eq h.cells
  arity i hi := (h.arity i (h.cells ▸ hi)).symm
  kind i hi := (h.kind i (h.cells ▸ hi)).symm
  skolems := h.skolems.symm
  known k g := (h.known k g).symm

end Respells

/-- The discipline of reading first-order solutions. -/
def respelling : Discipline Store where
  Ok := FirstOrder
  Grows := Respells
  refl store _ := Respells.refl store
  trans _ _ _ := Respells.trans

/-- The answer `r` says what `c` says. -/
structure Restates (store : Store) (Γ : List Kind) (g : Kind) (c r : Con) : Prop where
  firstOrder : r.FirstOrder store Γ g
  denotes : ∀ θ, store.SolvedBy θ → r.Coincides θ c
  tails : r.tails ≤ c.tails
  fields : c.hasField = true → r.hasField = true
  rigid : c.isRigid = true → r.isRigid = true

namespace Restates

theorem refl (hc : c.FirstOrder store Γ g) : Restates store Γ g c c :=
  ⟨hc, fun _ _ => .refl c, Nat.le_refl _, id, id⟩

theorem trans {r' : Con} (h : Restates store Γ g c r) (h' : Restates store Γ g r r') :
    Restates store Γ g c r' :=
  ⟨h'.firstOrder, fun θ hθ => (h'.denotes θ hθ).trans (h.denotes θ hθ),
    Nat.le_trans h'.tails h.tails, fun hc => h'.fields (h.fields hc),
    fun hc => h'.rigid (h.rigid hc)⟩

theorem weaken (h : Restates store [] g c r) (Γ : List Kind) : Restates store Γ g c r :=
  ⟨h.firstOrder.weaken Γ, h.denotes, h.tails, h.fields, h.rigid⟩

theorem respells (h : Restates store Γ g c r) (grows : Respells store store') :
    Restates store' Γ g c r :=
  ⟨h.firstOrder.mono grows.toExtends, fun θ hθ => h.denotes θ ((grows.solvedBy θ).mp hθ), h.tails,
    h.fields, h.rigid⟩

end Restates

/-- Kinds may be written differently. -/
theorem respells_withKinds (ok : store.FirstOrder) {kinds : KindStore}
    (keeps : store.kinds.KeepsKnown kinds) :
    (store.withKinds kinds).FirstOrder ∧ Respells store (store.withKinds kinds) := by
  have same := sameCells_withKinds store kinds
  have grows : store.Extends (store.withKinds kinds) :=
    ⟨Nat.le_refl _, fun _ _ => rfl, fun _ _ => rfl, rfl, keeps⟩
  refine ⟨⟨same.steady ok.steady, fun {i x} hi => ?_⟩, grows, rfl, fun _ => rfl, fun θ => ?_⟩
  · obtain ⟨g, hkind, hx⟩ := ok.solutions hi
    exact ⟨g, (keeps _ g).mpr hkind, hx.mono grows⟩
  · exact ⟨fun hθ => ⟨hθ.closed, fun hv => hθ.rows ((keeps _ _).mpr hv), hθ.solutions⟩,
      fun hθ => ⟨hθ.closed, fun hv => hθ.rows ((keeps _ _).mp hv), hθ.solutions⟩⟩

/-- Linking a cell to the solution of the metavariable that is its own solution. -/
private theorem respells_put (ok : store.FirstOrder) {i j : MetaId} {x : Con}
    (hi : store.solution? i = some (.mvar j [])) (hj : store.solution? j = some x) (hne : j ≠ i)
    (steady : (store.put i x).Steady) :
    (store.put i x).FirstOrder ∧ Respells store (store.put i x) := by
  have hlt := lt_of_solution hi
  have hkind : ∀ u, ((store.put i x).cell u).kind = (store.cell u).kind := kind_put hlt x
  have grows : store.Extends (store.put i x) :=
    ⟨by simp, fun u _ => arity_put hlt x u, fun u _ => hkind u, rfl, .refl _⟩
  have hx : ∃ g, (store.cell i).kind.Known store.kinds g ∧ x.FirstOrder store [] g := by
    obtain ⟨g, hg, hmvar⟩ := ok.solutions hi
    obtain ⟨g', hg', hx⟩ := ok.solutions hj
    cases hmvar with
    | mvar _ _ hkind => exact ⟨g, hg, hkind.unique hg' ▸ hx⟩
  refine ⟨⟨steady, fun {u y} hu => ?_⟩, grows, by simp, fun u => ?_, fun θ => ?_⟩
  · rw [solution?_put hlt] at hu
    rw [hkind]
    split at hu
    next h =>
      cases hu
      obtain ⟨g, hg, hx⟩ := hx
      exact ⟨g, h ▸ hg, hx.mono grows⟩
    next =>
      obtain ⟨g, hg, hy⟩ := ok.solutions hu
      exact ⟨g, hg, hy.mono grows⟩
  · simp only [isSolved, solution?_put hlt]
    split
    next h => simp [h, hi]
    next => rfl
  · constructor
    · refine fun hθ => ⟨hθ.closed, fun {v g} hv => hθ.rows (hkind v ▸ hv), fun {u y} hu => ?_⟩
      by_cases h : u = i
      · -- `i` and `j` have the same solution now
        subst h
        rw [hi] at hu
        cases hu
        have hu' := hθ.solutions (i := u) (by rw [solution?_put hlt, if_pos rfl])
        have hj' := hθ.solutions (i := j) (by rw [solution?_put hlt, if_neg hne, hj])
        rw [hu'.unique hj']
        exact .mvar j
      · exact hθ.solutions (by rw [solution?_put hlt, if_neg h, hu])
    · refine fun hθ => ⟨hθ.closed, fun {v g} hv => hθ.rows (hkind v ▸ hv), fun {u y} hu => ?_⟩
      rw [solution?_put hlt] at hu
      split at hu
      next h =>
        cases hu
        subst h
        rw [(hθ.solutions hi).unique (.mvar j)]
        exact hθ.solutions hj
      next => exact hθ.solutions hu

theorem instantiate_nil (c : Con) : c.instantiate [] = pure c := rfl

/-- Following a chain: the answer is the constructor itself or, by now, the solution of the
metavariable. -/
private theorem resolveWithin_respells (n : Nat) (ok : store.FirstOrder)
    (hc : c.FirstOrder store Γ g) :
    ((resolveWithin n c).run store).2.FirstOrder ∧
      Respells store ((resolveWithin n c).run store).2 ∧
      (((resolveWithin n c).run store).1 = c ∨ ∃ i, c = .mvar i [] ∧
        ((resolveWithin n c).run store).2.solution? i =
          some ((resolveWithin n c).run store).1) := by
  induction n generalizing c Γ g with
  | zero =>
    have hrun : resolveWithin 0 c = pure c := by cases c <;> rfl
    rw [hrun]
    exact ⟨ok, .refl store, .inl rfl⟩
  | succ n ih =>
    by_cases hunsolved : ∀ i spine, c = .mvar i spine → store.isSolved i = false
    · rw [resolveWithin_unsolved hunsolved]
      exact ⟨ok, .refl store, .inl rfl⟩
    push Not at hunsolved
    obtain ⟨i, spine, rfl, hsolved⟩ := hunsolved
    have hsolved : store.isSolved i = true := by simpa using hsolved
    obtain ⟨target, hi⟩ := Option.isSome_iff_exists.mp hsolved
    cases hc.spine_eq
    obtain ⟨g', -, htarget⟩ := ok.solutions hi
    obtain ⟨ok', respells, hanswer⟩ := ih htarget
    have chased := chased_resolveWithin n ok.steady (ok.steady.fits hi)
    have chased' := chased_resolveWithin (n + 1) ok.steady hc.fits
    obtain ⟨rank, hrank⟩ := ok.steady.acyclic
    have hbelow : ∀ j, target.Mentions j → rank j < rank i := fun j hj =>
      hrank i j ⟨target, hi, hj⟩
    have hi' : ((resolveWithin n target).run store).2.solution? i = some target :=
      (chased.above hrank i fun j spine hj => hbelow j (hj ▸ .here spine)).trans hi
    rw [resolveWithin_solved n [] hi] at chased' ⊢
    simp only [instantiate_nil] at chased' ⊢
    generalize (resolveWithin n target).run store = next at *
    obtain ⟨final, next⟩ := next
    simp only at *
    by_cases hfinal : final = target
    · subst hfinal
      rw [if_neg (by simp)]
      exact ⟨ok', respells, .inr ⟨i, rfl, hi'⟩⟩
    · rw [if_pos hfinal] at chased' ⊢
      obtain ⟨j, rfl, hj⟩ := hanswer.resolve_left hfinal
      have hne : j ≠ i := by
        rintro rfl
        exact Nat.lt_irrefl _ (hbelow j (.here []))
      obtain ⟨ok'', respells'⟩ := respells_put ok' hi' hj hne chased'.ok
      refine ⟨ok'', respells.trans respells', .inr ⟨i, rfl, ?_⟩⟩
      change (next.put i final).solution? i = some final
      rw [solution?_put (lt_of_solution hi'), if_pos rfl]

theorem HeadUnsolved.respells (h : store.HeadUnsolved c) (grows : Respells store store') :
    store'.HeadUnsolved c :=
  fun i spine hc => (grows.solved i).trans (h i spine hc)

private theorem restates_of_answer (ok : store'.FirstOrder) (grows : store.Extends store')
    (hc : c.FirstOrder store Γ g)
    (hanswer : r = c ∨ ∃ i, c = .mvar i [] ∧ store'.solution? i = some r) :
    store'.Restates Γ g c r := by
  rcases hanswer with rfl | ⟨i, rfl, hi⟩
  · exact .refl (hc.mono grows)
  · obtain ⟨g', hg', hr⟩ := ok.solutions hi
    have hg : g' = g := by
      cases hc.mono grows with
      | mvar _ _ hkind => exact hg'.unique hkind
    subst hg
    refine ⟨hr.weaken Γ, fun θ hθ t => ⟨fun ht => ?_, fun ht => ?_⟩,
      hr.tails_le, by simp [Con.hasField],
      by simp [Con.isRigid]⟩
    · rw [ht.unique (hθ.solutions hi)]
      exact .mvar i
    · cases ht
      exact hθ.solutions hi

theorem resolve_restates (ok : store.FirstOrder) (hc : c.FirstOrder store Γ g) :
    Yields respelling store (resolve c) fun r store' =>
      store'.Restates Γ g c r ∧ store'.HeadUnsolved r := by
  obtain ⟨rank, hrank, hpositive, hle⟩ := ok.steady.acyclic.exists_bounded_rank
  obtain ⟨ok', respells, hanswer⟩ := resolveWithin_respells store.cells.size ok hc
  refine Yields.of_exec rfl ok' respells ⟨?_, fun j spine hj => ?_⟩
  · exact restates_of_answer ok' respells.toExtends hc hanswer
  · refine (respells.solved j).trans ?_
    exact resolveWithin_head hrank hpositive ok.imitates _ (fun i _ _ => hle i) hj

/-! ## Reading all metavariables -/

namespace Restates

variable {a a' b b' : Con}

theorem record (h : store.Restates Γ .typeRow a a') :
    store.Restates Γ .type (.record a) (.record a') :=
  ⟨.record h.firstOrder, fun θ hθ => (h.denotes θ hθ).record, Nat.le_refl _, id, id⟩

theorem variant (h : store.Restates Γ .typeRow a a') :
    store.Restates Γ .type (.variant a) (.variant a') :=
  ⟨.variant h.firstOrder, fun θ hθ => (h.denotes θ hθ).variant, Nat.le_refl _, id, id⟩

theorem app {g' : Kind} (ha : store.Restates Γ (.arrow g g') a a') (hrigid : a.isRigid = true)
    (hb : store.Restates Γ g b b') (hrow : g'.isRow = false) :
    store.Restates Γ g' (.app a b) (.app a' b') :=
  ⟨.app ha.firstOrder (ha.rigid hrigid) hb.firstOrder hrow,
    fun θ hθ => (ha.denotes θ hθ).app (hb.denotes θ hθ), Nat.le_refl _, id, ha.rigid⟩

theorem abs {g' : Kind} {x : String} {k k' : Kind} (hk : k'.Known store.kinds g)
    (ha : store.Restates (g :: Γ) g' a a') :
    store.Restates Γ (.arrow g g') (.abs x k a) (.abs x k' a') :=
  ⟨.abs hk ha.firstOrder, fun θ hθ => (ha.denotes θ hθ).abs, Nat.le_refl _, id, id⟩

theorem arrow (ha : store.Restates Γ .type a a') (hb : store.Restates Γ .type b b') :
    store.Restates Γ .type (.arrow a b) (.arrow a' b') :=
  ⟨.arrow ha.firstOrder hb.firstOrder, fun θ hθ => (ha.denotes θ hθ).arrow (hb.denotes θ hθ),
    Nat.le_refl _, id, id⟩

theorem poly {x : String} {implicit : Bool} {k k' : Kind} (hk : k'.Known store.kinds .type)
    (ha : store.Restates (.type :: Γ) .type a a') :
    store.Restates Γ .type (.poly x implicit k a) (.poly x implicit k' a') :=
  ⟨.poly hk ha.firstOrder, fun θ hθ => (ha.denotes θ hθ).poly, Nat.le_refl _, id, id⟩

theorem tupleCons {cs cs' : List Con} {gs : List Kind} (ha : store.Restates Γ g a a')
    (hcs : store.Restates Γ (.tuple gs) (.tuple cs) (.tuple cs')) :
    store.Restates Γ (.tuple (g :: gs)) (.tuple (a :: cs)) (.tuple (a' :: cs')) :=
  ⟨.tupleCons ha.firstOrder hcs.firstOrder,
    fun θ hθ => (ha.denotes θ hθ).tupleCons (hcs.denotes θ hθ), Nat.le_refl _, id, id⟩

theorem rowCons {k k' : Kind} {x : String} {fields fields' : List (Con × Con)}
    (ha : store.Restates Γ g a a')
    (hfields : store.Restates Γ (.record g) (.row k fields) (.row k' fields')) :
    store.Restates Γ (.record g) (.row k ((.label x, a) :: fields))
      (.row k' ((.label x, a') :: fields')) :=
  ⟨.rowCons ha.firstOrder hfields.firstOrder,
    fun θ hθ => (ha.denotes θ hθ).rowCons (hfields.denotes θ hθ), Nat.le_refl _, id, id⟩

theorem concat (ha : store.Restates Γ (.record g) a a') (hb : store.Restates Γ (.record g) b b')
    (htails : a.tails + b.tails ≤ 1) :
    store.Restates Γ (.record g) (.concat a b) (.concat a' b') := by
  have htails' : a'.tails + b'.tails ≤ a.tails + b.tails := Nat.add_le_add ha.tails hb.tails
  refine ⟨.concat ha.firstOrder hb.firstOrder (Nat.le_trans htails' htails),
    fun θ hθ => (ha.denotes θ hθ).concat (hb.denotes θ hθ), htails', ?_, id⟩
  simp only [Con.hasField, Bool.or_eq_true]
  exact Or.imp ha.fields hb.fields

end Restates

/-- What replacing solutions inside a constructor does to it. -/
private structure Reworded (store : Store) (c c' : Con) : Prop where
  label : c.KeepsLabel c'
  restates : ∀ Γ g, c.FirstOrder store Γ g → store.Restates Γ g c c'

private theorem restates_of_parts {c' : Con} (hc : c.FirstOrder store Γ g)
    (hframe : c.frame = c'.frame)
    (hkinds : List.Forall₂ (fun k k' => ∀ g : Kind, k.Known store.kinds g → k'.Known store.kinds g)
      c.annotations c'.annotations)
    (hparts : List.Forall₂ store.Reworded c.parts c'.parts) : store.Restates Γ g c c' := by
  induction hc generalizing c' with
  | prim p =>
    rw [← Con.eq_of_frame_leaf hframe rfl rfl]
    exact .refl (.prim p)
  | bvar hi hrow =>
    rw [← Con.eq_of_frame_leaf hframe rfl rfl]
    exact .refl (.bvar hi hrow)
  | skolem hkind hrow =>
    rw [← Con.eq_of_frame_leaf hframe rfl rfl]
    exact .refl (.skolem hkind hrow)
  | tupleNil =>
    rw [← Con.eq_of_frame_leaf hframe rfl rfl]
    exact .refl .tupleNil
  | mvar hv harity hkind =>
    rw [← Con.eq_of_frame_leaf hframe rfl rfl]
    exact .refl (.mvar hv harity hkind)
  | app ha hrigid hb hrow =>
    obtain ⟨a', b', rfl⟩ : ∃ a' b', c' = .app a' b' := by
      cases c' <;> simp [Con.frame] at hframe ⊢
    obtain _ | ⟨ha', _ | ⟨hb', -⟩⟩ := hparts
    exact (ha'.restates _ _ ha).app hrigid (hb'.restates _ _ hb) hrow
  | abs hk ha =>
    obtain ⟨x', k', a', rfl⟩ : ∃ x' k' a', c' = .abs x' k' a' := by
      cases c' <;> simp [Con.frame] at hframe ⊢
    simp only [Con.frame, Con.abs.injEq, and_true] at hframe
    subst hframe
    obtain _ | ⟨hk', -⟩ := hkinds
    obtain _ | ⟨ha', -⟩ := hparts
    exact (ha'.restates _ _ ha).abs (hk' _ hk)
  | arrow ha hb =>
    obtain ⟨a', b', rfl⟩ : ∃ a' b', c' = .arrow a' b' := by
      cases c' <;> simp [Con.frame] at hframe ⊢
    obtain _ | ⟨ha', _ | ⟨hb', -⟩⟩ := hparts
    exact (ha'.restates _ _ ha).arrow (hb'.restates _ _ hb)
  | poly hk ha =>
    obtain ⟨x', implicit', k', a', rfl⟩ : ∃ x' implicit' k' a', c' = .poly x' implicit' k' a' := by
      cases c' <;> simp [Con.frame] at hframe ⊢
    simp only [Con.frame, Con.poly.injEq, and_true] at hframe
    obtain ⟨rfl, rfl⟩ := hframe
    obtain _ | ⟨hk', -⟩ := hkinds
    obtain _ | ⟨ha', -⟩ := hparts
    exact (ha'.restates _ _ ha).poly (hk' _ hk)
  | record hr =>
    obtain ⟨r', rfl⟩ : ∃ r', c' = .record r' := by
      cases c' <;> simp [Con.frame] at hframe ⊢
    obtain _ | ⟨hr', -⟩ := hparts
    exact (hr'.restates _ _ hr).record
  | variant hr =>
    obtain ⟨r', rfl⟩ : ∃ r', c' = .variant r' := by
      cases c' <;> simp [Con.frame] at hframe ⊢
    obtain _ | ⟨hr', -⟩ := hparts
    exact (hr'.restates _ _ hr).variant
  | tupleCons hc _ _ ih =>
    obtain ⟨cs', rfl⟩ : ∃ cs', c' = .tuple cs' := by
      cases c' <;> simp [Con.frame] at hframe ⊢
    obtain _ | ⟨hc', hcs'⟩ := hparts
    simp only [Con.frame, List.map_cons, Con.tuple.injEq, List.cons.injEq, true_and] at hframe
    exact (hc'.restates _ _ hc).tupleCons (ih (by simp only [Con.frame, hframe]) .nil hcs')
  | rowNil hk =>
    obtain ⟨k', fields', rfl⟩ := Con.eq_row_of_frame hframe
    simp only [Con.frame, List.map_nil, Con.row.injEq, true_and, List.nil_eq, List.map_eq_nil_iff]
      at hframe
    subst hframe
    obtain _ | ⟨hk', -⟩ := hkinds
    exact ⟨.rowNil (hk' _ hk), fun θ _ => .rowNil _ _, Nat.le_refl _, id, id⟩
  | rowCons hvalue _ _ ih =>
    obtain ⟨k', fields', rfl⟩ := Con.eq_row_of_frame hframe
    obtain _ | ⟨⟨name', value'⟩, fields'⟩ := fields'
    · simp [Con.frame] at hframe
    simp only [Con.frame, List.map_cons, Con.row.injEq, List.cons.injEq, true_and] at hframe
    obtain _ | ⟨hname', _ | ⟨hvalue', hfields'⟩⟩ := hparts
    cases hname'.label _ rfl
    refine (hvalue'.restates _ _ hvalue).rowCons (ih ?_ hkinds hfields')
    simp only [Con.frame, hframe]
  | concat hl hr htails =>
    obtain ⟨l', r', rfl⟩ : ∃ l' r', c' = .concat l' r' := by
      cases c' <;> simp [Con.frame] at hframe ⊢
    obtain _ | ⟨hl', _ | ⟨hr', -⟩⟩ := hparts
    exact (hl'.restates _ _ hl).concat (hr'.restates _ _ hr) htails

/-- The specification of zonking, node by node. -/
private def rewording : Con.PassSpec Store where
  Pre s _ c := c.Plain s
  KindPre _ _ _ := True
  Enters _ _ _ := True
  Post s _ c c' := s.Reworded c c'
  KindPost s _ k k' := ∀ g : Kind, k.Known s.kinds g → k'.Known s.kinds g

private theorem Reworded.refl (c : Con) : store.Reworded c c := ⟨fun _ => id, fun _ _ => .refl⟩

private theorem Reworded.respells (h : store.Reworded c r) (grows : Respells store store') :
    store'.Reworded c r :=
  ⟨h.label, fun Γ g hc => (h.restates Γ g (hc.mono grows.back)).respells grows⟩

private theorem Reworded.of_restates (hc : c.FirstOrder store Γ g) (hmvar : c.isMVar = true)
    (h : store.Restates [] g c r) : store.Reworded c r := by
  cases hc with
  | mvar _ _ hkind =>
    refine ⟨by simp [Con.KeepsLabel], fun Γ' g' hc' => ?_⟩
    cases hc' with
    | mvar _ _ hkind' => exact hkind'.unique hkind ▸ h.weaken Γ'
  | _ => cases hmvar

private theorem zonkNode_restates {node : Con} {zonk : Con → FuelM Con} (ok : store.FirstOrder)
    (hzonk : ∀ {c store}, FirstOrder store → c.Plain store →
      Yields respelling store (zonk c) fun c' store' => store'.Reworded c c')
    (hnode : node.Plain store) {v : MetaId} {spine : List Con} (hmvar : node = .mvar v spine) :
    Yields respelling store
      (do
        let resolved ← resolve node
        if resolved ≠ node then some <$> zonk resolved else pure none : FuelM (Option Con))
      fun answer store' => ∀ c', answer = some c' → store'.Reworded node c' := by
  subst hmvar
  obtain ⟨x, hx⟩ | ⟨_, g, hc⟩ := hnode
  · cases hx
  -- a metavariable has its kind in every context
  replace hc : (Con.mvar v spine).FirstOrder store [] g := by
    cases hc with
    | mvar hv harity hkind => exact .mvar hv harity hkind
  refine Yields.bind ok (.of_exec_eq rfl (resolve_restates ok hc)) ?_
  rintro r store' ok' grows ⟨restates, -⟩
  split
  next =>
    refine Yields.map ok' ((hzonk ok' (.inr ⟨_, g, restates.firstOrder⟩)).mono ?_)
    rintro c' store'' - grows' reworded _ ⟨⟩
    have hc'' := (hc.mono grows.toExtends).mono grows'.toExtends
    have restates := restates.respells grows'
    exact .of_restates hc'' rfl (restates.trans (reworded.restates _ g restates.firstOrder))
  next => exact Yields.pure ok' (by simp)

private theorem zonk_reworded (fuel : Nat) (ok : store.FirstOrder) (hc : c.Plain store) :
    Yields respelling store (zonk fuel c) fun c' store' => store'.Reworded c c' := by
  induction fuel generalizing c store with
  | zero => exact Yields.of_none rfl
  | succ fuel ih =>
    refine Con.Pass.rebuildM_yields (S := rewording) ?_ c ok hc
    exact
    { pre_grows := fun _ grows h => h.mono grows.toExtends
      kindPre_grows := fun _ _ h => h
      enters_grows := fun _ _ h => h
      post_grows := fun _ grows h => h.respells grows
      kindPost_grows := fun _ grows h g hk =>
        (grows.known _ g).mpr (h g ((grows.known _ g).mp hk))
      pre_part := fun h hp => h.part hp
      pre_kind := fun _ _ => trivial
      node_yields := by
        intro store d c ok hc
        split
        next => exact Yields.pure ok (.refl c)
        next =>
          split
          next v spine =>
            refine (zonkNode_restates ok ih hc rfl).mono fun answer store' _ _ h => ?_
            cases answer with
            | none => trivial
            | some c' => exact h c' rfl
          next => exact Yields.pure ok trivial
      kind_yields := by
        intro store d k ok _
        obtain ⟨keeps, known⟩ := KindStore.zonk_known k store.kinds
        obtain ⟨ok', respells⟩ := respells_withKinds ok keeps
        exact Yields.of_exec rfl ok' respells fun g hk =>
          (keeps _ g).mpr (known g ((keeps _ g).mp hk))
      close := by
        intro store d c c' _ hc _ related
        refine ⟨.of_frame related.frame, fun Γ g hc => ?_⟩
        exact restates_of_parts hc related.frame related.annotations related.parts }

theorem zonk_restates (fuel : Nat) (ok : store.FirstOrder) (hc : c.FirstOrder store Γ g) :
    Yields respelling store (zonk fuel c) fun c' store' => store'.Restates Γ g c c' :=
  (zonk_reworded fuel ok (.inr ⟨Γ, g, hc⟩)).mono fun _ _ _ grows reworded =>
    reworded.restates Γ g (hc.mono grows.toExtends)

end Store

end RowML
