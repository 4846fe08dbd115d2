import RowML.Proofs.Kind.Acyclic
import RowML.Proofs.Kind.Composition

/-!
# Reading comes to an end

What reads kinds follows links and may shorten chains, but learns nothing.  In an acyclic store
every reader comes to its end by itself: once the fuel exceeds the number of variables, more of it
changes nothing.

Reading shortens chains of links, so a store is another one afterwards, but every chain still has
the end that it had.  A computation that only reads finds the same in all stores with the same ends:
whatever has been read in between, it gives the same answer again.
-/

namespace RowML

namespace KindStore

variable {store store' : KindStore} {k : Kind} {rank : KindVar → Nat}

/-- The second store has the same variables linked, and every rank of the first one. -/
structure Condenses (store store' : KindStore) : Prop where
  size : store'.vars.size = store.vars.size
  linked : ∀ v, store'.Linked v ↔ store.Linked v
  ranks : ∀ {rank}, Ranks store.Mentions rank → Ranks store'.Mentions rank

theorem Condenses.acyclic (h : Condenses store store') (acyclic : store.Acyclic) :
    store'.Acyclic :=
  acyclic.imp fun _ => h.ranks

/-- Every run of the computation condenses the store. -/
def Condensing (α : Type) (x : Fuelled KindStore α) : Prop :=
  ∀ s a s', x s = some (a, s') → Condenses s s'

instance : Readable Condensing where
  pure a s b s' h := by
    cases h
    exact ⟨rfl, fun _ => Iff.rfl, fun h => h⟩
  bind {α β x f} hx hf s b s'' h := by
    obtain ⟨⟨a, s'⟩, hx', hf'⟩ := Option.bind_eq_some_iff.mp h
    have h := hx s a s' hx'
    have h' := hf a s' b s'' hf'
    exact ⟨h'.size.trans h.size, fun v => (h'.linked v).trans (h.linked v), fun hrank =>
      h'.ranks (h.ranks hrank)⟩
  read hf _ s a s' h := hf s s a s' h

theorem Condenses.of_run {α : Type} {x : KindM α} (h : Throughout Condensing x)
    (store : KindStore) : Condenses store (x.run store).2 :=
  h store (x.run store).1 (x.run store).2 rfl

/-! ## Chains -/

private theorem resolve_run (k : Kind) (store : KindStore) :
    (resolve k).run store = (resolveWithin store.vars.size k).run store :=
  rfl

theorem resolve_condensing (k : Kind) : Throughout Condensing (resolve k) := by
  intro s a s' h
  obtain ⟨-, hshort⟩ := resolveWithin_run s.vars.size k s
  obtain rfl : ((resolveWithin s.vars.size k).run s).2 = s' :=
    congrArg Prod.snd (Option.some.inj h)
  exact ⟨size_resolveWithin s.vars.size k, fun _ => hshort.linked_iff, hshort.ranks⟩

private theorem resolveWithin_ended (h : store.Ended k) (n : Nat) :
    (resolveWithin n k).run store = (k, store) := by
  cases k with
  | mvar v => exact resolveWithin_unbound n fun target hv => h v rfl ⟨target, hv⟩
  | _ => cases n <;> rfl

private theorem resolveWithin_eq (hrank : Ranks store.Mentions rank)
    (hpositive : ∀ v, store.Linked v → 0 < rank v) {m n : Nat}
    (hm : ∀ v, k = .mvar v → rank v ≤ m) (hn : ∀ v, k = .mvar v → rank v ≤ n) :
    (resolveWithin m k).run store = (resolveWithin n k).run store := by
  induction m generalizing k n with
  | zero =>
    have hend : store.Ended k := fun v hv hlinked => by
      have := hpositive v hlinked
      have := hm v hv
      omega
    rw [resolveWithin_ended hend, resolveWithin_ended hend]
  | succ m ih =>
    by_cases hend : store.Ended k
    · rw [resolveWithin_ended hend, resolveWithin_ended hend]
    · obtain ⟨v, target, rfl, hv⟩ := exists_link_of_not_ended hend
      have hle := hn v rfl
      obtain ⟨n, rfl⟩ : ∃ n', n = n' + 1 :=
        Nat.exists_eq_add_one_of_ne_zero (by have := hpositive v ⟨target, hv⟩; omega)
      have hbelow : ∀ w, target = .mvar w → rank w < rank v := fun w hw =>
        hrank v w ⟨target, hv, by simp [hw, Kind.mvars]⟩
      have htarget : (resolveWithin m target).run store = (resolveWithin n target).run store := by
        refine ih (fun w hw => ?_) fun w hw => ?_
        · exact Nat.le_of_lt_succ (Nat.lt_of_lt_of_le (hbelow w hw) (hm v rfl))
        · exact Nat.le_of_lt_succ (Nat.lt_of_lt_of_le (hbelow w hw) hle)
      rw [resolveWithin_link m hv, resolveWithin_link n hv, htarget]

/-- A chain ends after at most as many links as there are variables. -/
theorem Acyclic.resolveWithin_eq (acyclic : store.Acyclic) (k : Kind) {n : Nat}
    (hn : store.vars.size ≤ n) : (resolveWithin n k).run store = (resolve k).run store := by
  obtain ⟨rank, hrank, hpositive, hle⟩ := acyclic.exists_bounded_rank
  rw [resolve_run]
  exact KindStore.resolveWithin_eq hrank hpositive (fun v _ => Nat.le_trans (hle v) hn)
    fun v _ => hle v

/-! ## Passes -/

/-- The rank falls along every link and is positive at linked variables. -/
private def Measured (rank : KindVar → Nat) (store : KindStore) : Prop :=
  Ranks store.Mentions rank ∧ ∀ v, store.Linked v → 0 < rank v

private theorem Condenses.measured (h : Condenses store store') (hs : Measured rank store) :
    Measured rank store' :=
  ⟨h.ranks hs.1, fun v hv => hs.2 v ((h.linked v).mp hv)⟩

/-- The computations do the same in all stores with the rank, which they keep. -/
private def SameRuns (rank : KindVar → Nat) (α : Type) (x y : KindM α) : Prop :=
  ∀ s, Measured rank s → x.run s = y.run s ∧ Measured rank (x.run s).2

private theorem sameRuns_congruence : Congruence (SameRuns rank) where
  pure _ _ hs := ⟨rfl, hs⟩
  bind {_ _ x y f g} hx hf s hs := by
    obtain ⟨hsame, hs'⟩ := hx s hs
    have hrun : (x >>= f).run s = (f (x.run s).1).run (x.run s).2 := rfl
    have hrun' : (y >>= g).run s = (g (y.run s).1).run (y.run s).2 := rfl
    rw [hrun, hrun', ← hsame]
    exact hf _ _ hs'

variable {keep : Kind → Bool} {onBVar : Nat → Nat → KindM Kind}

private theorem rebuildWithin_same (hbvar : ∀ d i, Throughout Condensing (onBVar d i)) {m n d : Nat}
    (hm : ∀ v ∈ k.mvars, rank v ≤ m) (hn : ∀ v ∈ k.mvars, rank v ≤ n) :
    SameRuns rank _ (rebuildWithin keep onBVar (m + 1) d k)
      (rebuildWithin keep onBVar (n + 1) d k) := by
  induction m using Nat.strong_induction_on generalizing k n d with
  | h m ih =>
    refine Kind.rebuildM_related sameRuns_congruence
      (fun d i s hs => ⟨rfl, (Condenses.of_run (hbvar d i) s).measured hs⟩) k
      (fun d v hv s hs => ?_) d
    have hs' := (Condenses.of_run (resolve_condensing (.mvar v)) s).measured hs
    have hroot : ((resolve (.mvar v)).run s).1 = s.follow s.vars.size (.mvar v) :=
      (resolveWithin_run s.vars.size (.mvar v) s).1
    have hbind : ∀ f : Kind → KindM Kind, (resolve (.mvar v) >>= f).run s =
        (f ((resolve (.mvar v)).run s).1).run ((resolve (.mvar v)).run s).2 := fun _ => rfl
    rw [hbind, hbind, hroot]
    split
    next => exact ⟨rfl, hs'⟩
    next root hne =>
      have hbelow : ∀ w ∈ (s.follow s.vars.size (.mvar v)).mvars, rank w < rank v :=
        fun w hw => rank_root_lt hs.1 hne hw
      -- a variable with a solution is linked, so that there is fuel left for the solution
      have hpositive : 0 < rank v := hs.2 v <| by
        by_contra hv
        exact hne v (follow_eq_self (ended_mvar.mpr hv) _)
      obtain ⟨m, rfl⟩ := Nat.exists_eq_add_one_of_ne_zero
        (Nat.ne_zero_of_lt (Nat.lt_of_lt_of_le hpositive (hm v hv)))
      obtain ⟨n, rfl⟩ := Nat.exists_eq_add_one_of_ne_zero
        (Nat.ne_zero_of_lt (Nat.lt_of_lt_of_le hpositive (hn v hv)))
      refine ih m (Nat.lt_succ_self m) (fun w hw => ?_) (fun w hw => ?_) _ hs'
      · exact Nat.le_of_lt_succ (Nat.lt_of_lt_of_le (hbelow w hw) (hm v hv))
      · exact Nat.le_of_lt_succ (Nat.lt_of_lt_of_le (hbelow w hw) (hn v hv))

/-- A pass through the links goes no deeper than there are variables. -/
theorem Acyclic.rebuildWithin_eq (acyclic : store.Acyclic)
    (hbvar : ∀ d i, Throughout Condensing (onBVar d i)) (d : Nat) (k : Kind) {n : Nat}
    (hn : store.vars.size < n) :
    (rebuildWithin keep onBVar n d k).run store =
      (rebuildWithin keep onBVar (store.vars.size + 1) d k).run store := by
  obtain ⟨rank, hrank, hpositive, hle⟩ := acyclic.exists_bounded_rank
  obtain ⟨n, rfl⟩ := Nat.exists_eq_add_one_of_ne_zero (Nat.ne_zero_of_lt hn)
  exact (rebuildWithin_same hbvar (fun v _ => Nat.le_trans (hle v) (Nat.le_of_lt_succ hn))
    (fun v _ => hle v) store ⟨hrank, hpositive⟩).1

end KindStore

/-- From related states the computation gives the same answer, and the state that it leaves is
related to the one that it started from. -/
def Repeatable {σ : Type} (R : σ → σ → Prop) (α : Type) (x : Fuelled σ α) : Prop :=
  ∀ ⦃s t : σ⦄, R s t → ∀ ⦃a : α⦄ ⦃s' : σ⦄, x s = some (a, s') → R s s' ∧ ∃ t', x t = some (a, t')

section Repeatable

variable {σ α : Type} {R : σ → σ → Prop} [Std.Symm R] [IsTrans σ R]

theorem Repeatable.again {x : Fuelled σ α} (hx : Repeatable R α x) {s t s' : σ} {a : α}
    (h : R s t) (hrun : x s = some (a, s')) : ∃ t', x t = some (a, t') ∧ R s' t' := by
  obtain ⟨hs, t', hrun'⟩ := hx h hrun
  have ht : R t t := trans_of R (symm_of R h) h
  exact ⟨t', hrun', trans_of R (symm_of R hs) (trans_of R h (hx ht hrun').1)⟩

instance : Compositional (Repeatable R) where
  pure a s t h b s' hrun := by
    cases hrun
    exact ⟨trans_of R h (symm_of R h), t, rfl⟩
  bind {α β x f} hx hf s t h b s'' hrun := by
    obtain ⟨⟨a, s'⟩, hrun, hrest⟩ := Option.bind_eq_some_iff.mp hrun
    obtain ⟨t', hrun', h'⟩ := hx.again h hrun
    obtain ⟨hs', t'', hrest'⟩ := hf a h' hrest
    refine ⟨trans_of R (hx h hrun).1 hs', t'', ?_⟩
    exact Option.bind_eq_some_iff.mpr ⟨(a, t'), hrun', hrest'⟩

end Repeatable

namespace KindStore

variable {store store' : KindStore} {k : Kind}

/-! ## The ends of chains -/

theorem follow_follow (m n : Nat) (k : Kind) :
    store.follow m (store.follow n k) = store.follow (m + n) k := by
  induction n generalizing k with
  | zero => rw [follow_zero, Nat.add_zero]
  | succ n ih =>
    by_cases hend : store.Ended k
    · rw [follow_eq_self hend, follow_eq_self hend, follow_eq_self hend]
    · obtain ⟨v, target, rfl, hv⟩ := exists_link_of_not_ended hend
      rw [follow_link hv, ih, ← Nat.add_assoc, follow_link hv]

/-- Both stores are acyclic, and every chain has the same end in both. -/
structure SameChains (store store' : KindStore) : Prop where
  acyclic : store.Acyclic ∧ store'.Acyclic
  size : store'.vars.size = store.vars.size
  ends : ∀ k, store'.follow store'.vars.size k = store.follow store.vars.size k

namespace SameChains

theorem refl (acyclic : store.Acyclic) : SameChains store store :=
  ⟨⟨acyclic, acyclic⟩, rfl, fun _ => rfl⟩

theorem symm (h : SameChains store store') : SameChains store' store :=
  ⟨h.acyclic.symm, h.size.symm, fun k => (h.ends k).symm⟩

theorem trans {store'' : KindStore} (h : SameChains store store')
    (h' : SameChains store' store'') : SameChains store store'' :=
  ⟨⟨h.acyclic.1, h'.acyclic.2⟩, h'.size.trans h.size, fun k => (h'.ends k).trans (h.ends k)⟩

end SameChains

instance : Std.Symm SameChains := ⟨fun _ _ h => h.symm⟩

instance : IsTrans KindStore SameChains := ⟨fun _ _ _ h h' => h.trans h'⟩

theorem Acyclic.sameChains (acyclic : store.Acyclic) (hshort : Shortens store store')
    (hsize : store'.vars.size = store.vars.size) : SameChains store store' := by
  have acyclic' := acyclic.shortened hshort
  refine ⟨⟨acyclic, acyclic'⟩, hsize, fun k => ?_⟩
  obtain ⟨rank, hrank⟩ := acyclic
  -- the end of a chain is the end of every chain that starts on it
  have hstep : ∀ {v : KindVar} {target : Kind}, store.stateOf v = .link target → ∀ n,
      store.follow store.vars.size (.mvar v) =
        store.follow store.vars.size (store.follow n target) := by
    intro v target hv n
    have hlong := follow_eq_of_le (Acyclic.leads ⟨rank, hrank⟩) (.mvar v)
      (Nat.le_add_right store.vars.size (n + 1))
    rw [← hlong, ← Nat.add_assoc, follow_link hv, follow_follow]
  have hstep' : ∀ {v : KindVar} {target : Kind}, store'.stateOf v = .link target →
      store'.follow store'.vars.size (.mvar v) = store'.follow store'.vars.size target := by
    intro v target hv
    have hlong := follow_eq_of_le acyclic'.leads (.mvar v) (Nat.le_succ store'.vars.size)
    rw [← hlong, follow_link hv]
  suffices hmvar : ∀ v, store'.follow store'.vars.size (.mvar v) =
      store.follow store.vars.size (.mvar v) by
    cases k with
    | mvar v => exact hmvar v
    | _ => rw [follow_of_ne (by simp), follow_of_ne (by simp)]
  intro v
  induction hn : rank v using Nat.strong_induction_on generalizing v with
  | h n ih =>
    by_cases hlinked : store.Linked v
    swap
    · have hlinked' : ¬ store'.Linked v := hlinked ∘ hshort.linked_iff.mp
      rw [follow_eq_self (ended_mvar.mpr hlinked), follow_eq_self (ended_mvar.mpr hlinked')]
    obtain ⟨target, hv⟩ := hlinked
    obtain ⟨m, hv'⟩ : ∃ m, store'.stateOf v = .link (store.follow m target) := by
      rcases hshort v with hsame | ⟨first, m, hfirst, hfar⟩
      · exact ⟨0, by rw [hsame, hv, follow_zero]⟩
      · rw [hv] at hfirst
        cases hfirst
        exact ⟨m, hfar⟩
    rw [hstep' hv', hstep hv m]
    have hbelow := fun w => rank_follow_lt hrank hv m (w := w)
    generalize store.follow m target = far at hbelow
    cases far with
    | mvar w => exact ih _ (hn ▸ hbelow w (by simp [Kind.mvars])) w rfl
    | _ => rw [follow_of_ne (by simp), follow_of_ne (by simp)]

/-! ## Readers -/

theorem resolve_repeatable (k : Kind) : Throughout (Repeatable SameChains) (resolve k) := by
  intro s t h a s' hrun
  obtain ⟨rfl, rfl⟩ := Prod.mk.inj (Option.some.inj hrun)
  obtain ⟨hroot, hshort⟩ := resolveWithin_run s.vars.size k s
  refine ⟨h.acyclic.1.sameChains hshort (size_resolveWithin _ _), ((resolve k).run t).2, ?_⟩
  have hroot' := (resolveWithin_run t.vars.size k t).1
  have hsame : ((resolve k).run t).1 = ((resolve k).run s).1 :=
    hroot'.trans ((h.ends k).trans hroot.symm)
  exact congrArg some (Prod.ext hsame rfl)

instance : Sized (Repeatable SameChains) where
  size {α f} hf s t h a s' hrun := by
    obtain ⟨hs, t', hrun'⟩ := hf s.vars.size h hrun
    exact ⟨hs, t', by rw [← h.size] at hrun'; exact hrun'⟩

/-- A computation that follows links does so alike in all stores with the same ends. -/
theorem OnlyFollows.again {α : Type} {x : KindM α} (hx : OnlyFollows x)
    (h : SameChains store store') :
    (x.run store').1 = (x.run store).1 ∧ SameChains store (x.run store).2 := by
  have hx : Repeatable SameChains α (liftM x) := hx resolve_repeatable
  obtain ⟨hs, t', hrun⟩ := hx h rfl
  have hrun : some (x.run store') = some ((x.run store).1, t') := hrun
  exact ⟨by rw [Option.some.inj hrun], hs⟩

end KindStore

end RowML
