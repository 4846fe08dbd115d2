import RowML.Kind.Unify
import RowML.Proofs.Kind.Rebuild
import RowML.Proofs.Kind.Conversion
import Mathlib.Order.Lattice.Nat

/-!
# Known kinds

A kind is known if the metavariables in it are solved, and those in the solutions likewise; it
stands for one kind without metavariables.  Reading a kind only shortens chains of links, so every
kind stands for what it stood for.  Unification of two known kinds that stand for the same kind
succeeds and solves nothing.
-/

namespace RowML

/-- The kind stands for a kind without metavariables. -/
inductive Kind.Known (store : KindStore) : Kind → Kind → Prop where
  | type : Known store .type .type
  | unit : Known store .unit .unit
  | name : Known store .name .name
  | error : Known store .error .error
  | bvar (i : Nat) : Known store (.bvar i) (.bvar i)
  | arrow {a b g h : Kind} (ha : Known store a g) (hb : Known store b h) :
      Known store (.arrow a b) (.arrow g h)
  | record {k g : Kind} (hk : Known store k g) : Known store (.record k) (.record g)
  | tupleNil : Known store (.tuple []) (.tuple [])
  | tupleCons {k g : Kind} {ks gs : List Kind} (hk : Known store k g)
      (hks : Known store (.tuple ks) (.tuple gs)) :
        Known store (.tuple (k :: ks)) (.tuple (g :: gs))
  | poly {x : String} {k g : Kind} (hk : Known store k g) : Known store (.poly x k) (.poly x g)
  | link {v : KindVar} {target g : Kind} (hv : store.stateOf v = .link target)
      (hg : Known store target g) : Known store (.mvar v) g

theorem Kind.Known.unique {store : KindStore} {k g g' : Kind} (h : k.Known store g)
    (h' : k.Known store g') : g = g' := by
  induction h generalizing g' with
  | type | unit | name | error | bvar | tupleNil =>
    cases h'
    rfl
  | arrow _ _ iha ihb =>
    cases h' with
    | arrow ha hb => rw [iha ha, ihb hb]
  | record _ ih =>
    cases h' with
    | record hk => rw [ih hk]
  | tupleCons _ _ ihk ihks =>
    cases h' with
    | tupleCons hk hks =>
      cases ihks hks
      rw [ihk hk]
  | poly _ ih =>
    cases h' with
    | poly hk => rw [ih hk]
  | link hv _ ih =>
    cases h' with
    | link hv' hg =>
      rw [hv] at hv'
      cases hv'
      exact ih hg

namespace KindStore

variable {store store' : KindStore} {k g : Kind}

open Kind (Known)

@[simp] theorem follow_zero (store : KindStore) (k : Kind) : store.follow 0 k = k := by
  cases k <;> rfl

theorem follow_of_ne (hk : ∀ v, k ≠ .mvar v) (n : Nat) : store.follow n k = k := by
  cases n <;> cases k <;> first | rfl | exact absurd rfl (hk _)

theorem follow_link {v : KindVar} {target : Kind} (hv : store.stateOf v = .link target) (n : Nat) :
    store.follow (n + 1) (.mvar v) = store.follow n target := by
  simp only [follow, hv]

theorem follow_unbound {v : KindVar} (hv : ∀ target, store.stateOf v ≠ .link target) (n : Nat) :
    store.follow n (.mvar v) = .mvar v := by
  cases n with
  | zero => rfl
  | succ n =>
    cases hstate : store.stateOf v with
    | link target => exact absurd hstate (hv target)
    | unbound => simp only [follow, hstate]

/-- Every link is the link that it was, or leads further along the same chain. -/
def Shortens (store store' : KindStore) : Prop :=
  ∀ v, store'.stateOf v = store.stateOf v ∨ ∃ target n, store.stateOf v = .link target ∧
    store'.stateOf v = .link (store.follow n target)

/-- Every kind stands for what it stood for. -/
def KeepsKnown (store store' : KindStore) : Prop :=
  ∀ k g : Kind, k.Known store' g ↔ k.Known store g

theorem KeepsKnown.refl (store : KindStore) : KeepsKnown store store := fun _ _ => Iff.rfl

theorem KeepsKnown.trans {store'' : KindStore} (h : KeepsKnown store store')
    (h' : KeepsKnown store' store'') : KeepsKnown store store'' :=
  fun k g => (h' k g).trans (h k g)

theorem known_of_follow {n : Nat} (h : (store.follow n k).Known store g) : k.Known store g := by
  induction n generalizing k with
  | zero => rwa [follow_zero] at h
  | succ n ih =>
    by_cases hk : ∃ v target, k = .mvar v ∧ store.stateOf v = .link target
    · obtain ⟨v, target, rfl, hv⟩ := hk
      rw [follow_link hv] at h
      exact .link hv (ih h)
    · have hself : store.follow (n + 1) k = k := by
        cases k with
        | mvar v => exact follow_unbound (fun target hv => hk ⟨v, target, rfl, hv⟩) _
        | _ => rfl
      rwa [hself] at h

theorem Shortens.keepsKnown (h : Shortens store store') : KeepsKnown store store' := by
  refine fun k g => ⟨fun hk => ?_, fun hk => ?_⟩
  · induction hk with
    | type => exact .type
    | unit => exact .unit
    | name => exact .name
    | error => exact .error
    | bvar i => exact .bvar i
    | arrow _ _ iha ihb => exact .arrow iha ihb
    | record _ ih => exact .record ih
    | tupleNil => exact .tupleNil
    | tupleCons _ _ ihk ihks => exact .tupleCons ihk ihks
    | poly _ ih => exact .poly ih
    | @link v target g hv _ ih =>
      rcases h v with hsame | ⟨first, n, hfirst, hfar⟩
      · exact .link (hsame ▸ hv) ih
      · rw [hv] at hfar
        cases hfar
        exact .link hfirst (known_of_follow ih)
  · -- a chain may be entered anywhere, so the induction is about all the ends of its starts
    suffices ∀ n, (store.follow n k).Known store' g from follow_zero store k ▸ this 0
    intro n
    induction hk generalizing n with
    | @link v target g hv _ ih =>
      cases n with
      | succ n =>
        rw [follow_link hv]
        exact ih n
      | zero =>
        rcases h v with hsame | ⟨first, n, hfirst, hfar⟩
        · exact .link (hsame.trans hv) (ih 0)
        · rw [hv] at hfirst
          cases hfirst
          exact .link hfar (ih n)
    | arrow _ _ iha ihb =>
      rw [follow_of_ne (by simp)]
      exact .arrow (iha 0) (ihb 0)
    | record _ ih =>
      rw [follow_of_ne (by simp)]
      exact .record (ih 0)
    | tupleCons _ _ ihk ihks =>
      rw [follow_of_ne (by simp)]
      exact .tupleCons (ihk 0) (ihks 0)
    | poly _ ih =>
      rw [follow_of_ne (by simp)]
      exact .poly (ih 0)
    | type | unit | name | error | bvar | tupleNil =>
      rw [follow_of_ne (by simp)]
      constructor

/-! ## Reading the head -/

/-- What following a link does: the variable is linked to the end of the chain. -/
theorem resolveWithin_link (n : Nat) {v : KindVar} {target : Kind}
    (h : store.stateOf v = .link target) :
    (resolveWithin (n + 1) (.mvar v)).run store =
      let next := (resolveWithin n target).run store
      (next.1, if next.1 ≠ target then next.2.put v (.link next.1) else next.2) := by
  rw [resolveWithin, StateT.run_bind, StateT.run_get, pure_bind, h]
  simp only
  have hbind : ∀ (f : Kind → KindM Kind), (resolveWithin n target >>= f).run store =
      (f ((resolveWithin n target).run store).1).run ((resolveWithin n target).run store).2 :=
    fun _ => rfl
  rw [hbind]
  split <;> rfl

theorem resolveWithin_unbound (n : Nat) {v : KindVar}
    (h : ∀ target, store.stateOf v ≠ .link target) :
    (resolveWithin n (.mvar v)).run store = (.mvar v, store) := by
  cases n with
  | zero => rfl
  | succ n =>
    rw [resolveWithin, StateT.run_bind, StateT.run_get, pure_bind]
    cases hv : store.stateOf v with
    | link target => exact absurd hv (h target)
    | unbound predicate components => rfl

theorem size_resolveWithin (n : Nat) (k : Kind) :
    ((resolveWithin n k).run store).2.vars.size = store.vars.size := by
  induction n generalizing k with
  | zero => cases k <;> rfl
  | succ n ih =>
    cases k with
    | mvar v =>
      by_cases hv : ∃ target, store.stateOf v = .link target
      · obtain ⟨target, hv⟩ := hv
        rw [resolveWithin_link n hv]
        simp only
        split <;> simp [ih target]
      · rw [resolveWithin_unbound (n + 1) fun target h => hv ⟨target, h⟩]
    | _ => rfl

/-- The answer is the end of the chain, and the chain is shorter than it was. -/
theorem resolveWithin_run (n : Nat) (k : Kind) (store : KindStore) :
    ((resolveWithin n k).run store).1 = store.follow n k ∧
      Shortens store ((resolveWithin n k).run store).2 := by
  induction n generalizing k with
  | zero => exact ⟨by cases k <;> rfl, fun _ => .inl (by cases k <;> rfl)⟩
  | succ n ih =>
    cases k with
    | mvar v =>
      cases hv : store.stateOf v with
      | unbound predicate components =>
        rw [resolveWithin_unbound (n + 1) (by simp [hv]), follow_unbound (by simp [hv])]
        exact ⟨rfl, fun _ => .inl rfl⟩
      | link target =>
        obtain ⟨hroot, hshort⟩ := ih target
        rw [resolveWithin_link n hv, follow_link hv]
        refine ⟨hroot, fun u => ?_⟩
        simp only
        split
        next =>
          have hlt : v < ((resolveWithin n target).run store).2.vars.size := by
            rw [size_resolveWithin]
            exact lt_of_link hv
          rw [stateOf_put hlt, hroot]
          split
          next h => exact .inr ⟨target, n, h ▸ hv, rfl⟩
          next => exact hshort u
        next => exact hshort u
    | _ => exact ⟨rfl, fun _ => .inl rfl⟩

theorem known_follow (h : k.Known store g) (n : Nat) : (store.follow n k).Known store g := by
  induction n generalizing k with
  | zero => rwa [follow_zero]
  | succ n ih =>
    cases h with
    | link hv hg =>
      rw [follow_link hv]
      exact ih hg
    | _ =>
      rw [follow_of_ne (by simp)]
      constructor <;> assumption

private theorem exists_end (h : k.Known store g) : ∃ n, ∀ v, store.follow n k ≠ .mvar v := by
  induction h with
  | link hv _ ih =>
    obtain ⟨n, hn⟩ := ih
    exact ⟨n + 1, follow_link hv n ▸ hn⟩
  | _ => exact ⟨0, by simp [follow_zero]⟩

/-- A chain passes each variable at most once, so `resolve` comes to the end of it. -/
theorem follow_ne_mvar (h : k.Known store g) (v : KindVar) :
    store.follow store.vars.size k ≠ .mvar v := by
  classical
  let next (v w : KindVar) : Prop := store.Leads v w ∧ ∃ g, Known store (.mvar v) g
  let distance (v : KindVar) : Nat := sInf {n | ∀ w, store.follow n (.mvar v) ≠ .mvar w}
  have hdistance : Ranks next distance := by
    rintro v w ⟨hvw, g, hg⟩
    have hmem : distance v ∈ {n | ∀ w, store.follow n (.mvar v) ≠ .mvar w} :=
      Nat.sInf_mem (exists_end hg)
    cases hv : distance v with
    | zero => exact absurd rfl (hv ▸ hmem v)
    | succ n =>
      simp only [hv, Set.mem_ofPred_eq, follow_link hvw] at hmem
      exact Nat.lt_succ_of_le (Nat.sInf_le hmem)
  have hlt : ∀ v, (∃ g, Known store (.mvar v) g) → v < store.vars.size := by
    rintro v ⟨g, hg⟩
    cases hg with
    | link hv => exact lt_of_link hv
  obtain ⟨rank, hrank, hpositive, hle⟩ := hdistance.exists_bounded (fun _ _ h => h.2) hlt
  suffices ∀ (n : Nat) (k : Kind), k.Known store g → (∀ w, k = .mvar w → rank w ≤ n) →
      store.follow n k ≠ .mvar v from this _ k h fun w _ => hle w
  intro n
  induction n with
  | zero =>
    rintro k h hk hend
    rw [follow_zero] at hend
    subst hend
    have := hpositive v ⟨g, h⟩
    have := hk v rfl
    omega
  | succ n ih =>
    intro k h hk
    cases h with
    | @link u target _ hu hg =>
      rw [follow_link hu]
      refine ih target hg fun w hw => ?_
      have hlead : rank w < rank u := hrank u w ⟨hu.trans (congrArg _ hw), g, .link hu hg⟩
      have := hk u rfl
      omega
    | _ => simp [follow_of_ne]

/-- What `resolve` does to a known kind: the answer shows its outermost constructor. -/
structure Revealed (store : KindStore) (k root : Kind) (store' : KindStore) : Prop where
  keeps : KeepsKnown store store'
  same : ∀ g, root.Known store g ↔ k.Known store g
  ne_mvar : ∀ g, k.Known store g → ∀ v, root ≠ .mvar v

theorem resolve_reveals (k : Kind) (store : KindStore) :
    Revealed store k ((resolve k).run store).1 ((resolve k).run store).2 := by
  have hresolve : (resolve k).run store = (resolveWithin store.vars.size k).run store := rfl
  obtain ⟨hroot, hshort⟩ := resolveWithin_run store.vars.size k store
  rw [hresolve, hroot]
  exact ⟨hshort.keepsKnown, fun g => ⟨known_of_follow, fun hk => known_follow hk _⟩,
    fun g hk => follow_ne_mvar hk⟩

/-! ## Zonking -/

/-- The discipline of computations that only read kinds. -/
def reading : Discipline KindStore where
  Ok _ := True
  Grows := KeepsKnown
  refl store _ := KeepsKnown.refl store
  trans _ _ _ := KeepsKnown.trans

/-- The output stands for whatever the input stands for. -/
private def Follows (store : KindStore) (k k' : Kind) : Prop :=
  ∀ g, k.Known store g → k'.Known store g

private theorem follows_tuple {ks ks' : List Kind} (h : List.Forall₂ (Follows store) ks ks') :
    Follows store (.tuple ks) (.tuple ks') := by
  intro g hk
  induction h generalizing g with
  | nil => exact hk
  | cons hhead _ ih =>
    cases hk with
    | tupleCons hk hks => exact .tupleCons (hhead _ hk) (ih _ hks)

private theorem rebuildWithin_follows (fuel : Nat) (d : Nat) (k : Kind) (store : KindStore) :
    Yields reading store
      (rebuildWithin (fun _ => false) (fun _ i => pure (.bvar i)) fuel d k)
      fun k' store' => Follows store' k k' := by
  induction fuel generalizing d k store with
  | zero => exact Yields.pure trivial fun _ hk => hk
  | succ fuel ih =>
    suffices hpass : Kind.Pass reading (fun _ _ => True)
        (fun store _ k k' => Follows store k k') _ _ _ from hpass.rebuildM_yields k trivial trivial
    refine ⟨fun _ _ h => h, fun _ keeps h g hk => (keeps _ g).mpr (h g ((keeps _ g).mp hk)),
      fun _ _ _ => trivial, fun _ _ => Yields.pure trivial fun _ hk => hk, ?_,
      fun _ _ _ _ hk => hk, fun _ _ _ _ _ hk => hk, ?_, ?_, follows_tuple, ?_⟩
    · intro store d v _ _
      have hresolve : Yields reading store (resolve (.mvar v)) (Revealed store (.mvar v)) :=
        Yields.of_exec rfl trivial (resolve_reveals (.mvar v) store).keeps
          (resolve_reveals (.mvar v) store)
      refine Yields.bind trivial hresolve fun root store' _ _ revealed => ?_
      have hroot : Follows store' (.mvar v) root := fun g hk =>
        (revealed.keeps root g).mpr ((revealed.same g).mpr ((revealed.keeps _ g).mp hk))
      have hrest := (ih d root store').mono fun k' store'' _ keeps h =>
        (fun g hk => h g ((keeps _ g).mpr (hroot g ((keeps _ g).mp hk))) :
          Follows store'' (.mvar v) k')
      cases root with
      | mvar w => exact Yields.pure (m := KindM) trivial hroot
      | _ => exact hrest
    · intro store d a a' b b' ha hb g hk
      cases hk with
      | arrow hga hgb => exact .arrow (ha _ hga) (hb _ hgb)
    · intro store d a a' ha g hk
      cases hk with
      | record hg => exact .record (ha _ hg)
    · intro store d x body body' hbody g hk
      cases hk with
      | poly hg => exact .poly (hbody _ hg)

theorem zonk_known (k : Kind) (store : KindStore) :
    KeepsKnown store ((zonk k).run store).2 ∧
      ∀ g, k.Known store g → ((zonk k).run store).1.Known store g := by
  have h : Yields reading store (zonk k) fun k' store' => Follows store' k k' :=
    Yields.read (rfl : exec get store = some (some store, store)) trivial
      (rebuildWithin_follows (store.vars.size + 1) 0 k store)
  obtain ⟨-, keeps, post⟩ := h _ _ rfl
  exact ⟨keeps, fun g hk => (keeps _ g).mp (post _ rfl g ((keeps k g).mpr hk))⟩

/-! ## Unification -/

/-- The computation succeeds and solves nothing. -/
def Succeeds (store : KindStore) (x : KindUnifyM Unit) : Prop :=
  ∀ r store', exec x store = some (r, store') → r = some () ∧ KeepsKnown store store'

namespace Succeeds

theorem pure (store : KindStore) : Succeeds store (Pure.pure ()) := by
  intro r store' hexec
  rw [exec_pure] at hexec
  cases hexec
  exact ⟨rfl, .refl store⟩

theorem bind {x : KindUnifyM Unit} {f : Unit → KindUnifyM Unit} (hx : Succeeds store x)
    (hf : ∀ store', KeepsKnown store store' → Succeeds store' (f ())) :
    Succeeds store (x >>= f) := by
  intro r store' hexec
  rw [exec_bind] at hexec
  rcases hrun : exec x store with _ | ⟨a, mid⟩
  · rw [hrun] at hexec
    cases hexec
  · obtain ⟨rfl, keeps⟩ := hx a mid hrun
    rw [hrun] at hexec
    obtain ⟨hr, keeps'⟩ := hf mid keeps r store' hexec
    exact ⟨hr, keeps.trans keeps'⟩

theorem resolve {f : Kind → KindUnifyM Unit}
    (hf : ∀ root store', Revealed store k root store' → Succeeds store' (f root)) :
    Succeeds store (liftM (KindStore.resolve k) >>= f) := by
  intro r store'' hexec
  have revealed := resolve_reveals k store
  have hrun : exec (liftM (KindStore.resolve k) : KindUnifyM Kind) store =
      some (some _, ((KindStore.resolve k).run store).2) := rfl
  rw [exec_bind, hrun] at hexec
  obtain ⟨hr, keeps⟩ := hf _ _ revealed r store'' hexec
  exact ⟨hr, revealed.keeps.trans keeps⟩

end Succeeds

private theorem forM_succeeds {unify : Kind → Kind → KindUnifyM Unit}
    (h : ∀ {a b g store}, Known store a g → Known store b g → Succeeds store (unify a b))
    {ks ks' : List Kind} (hks : Known store (.tuple ks) g) (hks' : Known store (.tuple ks') g) :
    ks.length = ks'.length ∧ Succeeds store ((ks.zip ks').forM fun (k, k') => unify k k') := by
  induction ks generalizing ks' g store with
  | nil =>
    cases hks
    cases hks'
    exact ⟨rfl, .pure store⟩
  | cons k ks ih =>
    cases hks with
    | tupleCons hk hks =>
      cases hks' with
      | tupleCons hk' hks' =>
        refine ⟨congrArg (· + 1) (ih hks hks').1, ?_⟩
        change Succeeds store (unify k _ >>= fun _ => (ks.zip _).forM _)
        refine .bind (h hk hk') fun store' keeps => ?_
        exact (ih ((keeps _ _).mpr hks) ((keeps _ _).mpr hks')).2

/-- Kinds that stand for the same kind are unified without solving anything. -/
theorem unify_succeeds (fuel : Nat) {a b : Kind} (ha : a.Known store g) (hb : b.Known store g) :
    Succeeds store (unify fuel a b) := by
  induction fuel generalizing a b g store with
  | zero =>
    intro r store' hexec
    cases hexec
  | succ fuel ih =>
    simp only [unify]
    split
    next => exact .pure store
    next =>
    refine .resolve fun a' store₁ revealed => ?_
    have hne := revealed.ne_mvar g ha
    replace ha := (revealed.keeps _ _).mpr ((revealed.same g).mpr ha)
    replace hb := (revealed.keeps _ _).mpr hb
    refine .resolve fun b' store₂ revealed' => ?_
    have hne' := revealed'.ne_mvar g hb
    replace hb := (revealed'.keeps _ _).mpr ((revealed'.same g).mpr hb)
    replace ha := (revealed'.keeps _ _).mpr ha
    split
    next => exact .pure store₂
    next heq =>
    have hlink : ∀ {v : KindVar} {P : Prop}, (∀ w, Kind.mvar v ≠ .mvar w) → P :=
      fun h => absurd rfl (h _)
    cases ha with
    | link => exact hlink hne
    | arrow ha₁ ha₂ =>
      cases hb with
      | link => exact hlink hne'
      | arrow hb₁ hb₂ =>
        refine .bind (ih ha₁ hb₁) fun store' keeps => ?_
        exact ih ((keeps _ _).mpr ha₂) ((keeps _ _).mpr hb₂)
    | record ha =>
      cases hb with
      | link => exact hlink hne'
      | record hb => exact ih ha hb
    | poly ha =>
      cases hb with
      | link => exact hlink hne'
      | poly hb => exact ih ha hb
    | tupleCons hk hks =>
      cases hb with
      | link => exact hlink hne'
      | tupleCons hk' hks' =>
        obtain ⟨hlength, hforM⟩ := forM_succeeds ih (.tupleCons hk hks) (.tupleCons hk' hks')
        simp only [if_pos hlength]
        exact hforM
    | type | unit | name | error | bvar | tupleNil =>
      cases hb with
      | link => exact hlink hne'
      | _ => exact absurd (.inl rfl) heq

end KindStore

end RowML
