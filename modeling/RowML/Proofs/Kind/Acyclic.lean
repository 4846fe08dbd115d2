import RowML.Proofs.Kind.Assignment
import RowML.Proofs.Kind.Known

/-!
# Links without a cycle

In an acyclic store no variable is reached from its own link.  A chain of links then has an end, and
the replacement of all linked variables ends with a kind in which every variable is unbound.  The
number of variables bounds the number of links on the way, so that a larger bound changes nothing.
A variable that does not occur in the kind that is spelled out may be linked to it.
-/

namespace RowML

namespace KindStore

def Linked (store : KindStore) (v : KindVar) : Prop := ∃ target, store.stateOf v = .link target

instance (store : KindStore) : DecidablePred store.Linked := fun v =>
  match h : store.stateOf v with
  | .link target => .isTrue ⟨target, h⟩
  | .unbound _ _ => .isFalse fun ⟨_, h'⟩ => by simp [h] at h'

/-- A link from one variable to a kind in which the other one is written. -/
def Mentions (store : KindStore) (v w : KindVar) : Prop :=
  ∃ target, store.stateOf v = .link target ∧ w ∈ target.mvars

/-- No variable is reached from its own link. -/
def Acyclic (store : KindStore) : Prop := ∃ rank, Ranks store.Mentions rank

variable {store store' : KindStore} {k target : Kind} {v : KindVar} {predicate : KindPredicate}
  {components : List (Nat × Kind)}

theorem Leads.mentions {w : KindVar} (h : store.Leads v w) : store.Mentions v w :=
  ⟨_, h, by simp [Kind.mvars]⟩

theorem not_linked_iff :
    ¬ store.Linked v ↔ ∃ predicate components, store.stateOf v = .unbound predicate components := by
  cases h : store.stateOf v <;> simp [Linked, h]

namespace Acyclic

theorem leads (acyclic : store.Acyclic) : ∃ rank, Ranks store.Leads rank :=
  acyclic.imp fun _ hrank _ _ h => hrank _ _ h.mentions

theorem iff : store.Acyclic ↔ ∀ v, ¬ Relation.TransGen store.Mentions v v := by
  refine ⟨fun ⟨_, hrank⟩ => hrank.not_cyclic, fun h => ?_⟩
  have hlinked : ∀ v w, store.Mentions v w → store.Linked v := fun _ _ ⟨target, h, _⟩ => ⟨target, h⟩
  obtain ⟨rank, hrank, -⟩ := exists_ranks h hlinked fun _ ⟨_, h⟩ => lt_of_link h
  exact ⟨rank, hrank⟩

/-- A rank that counts the links on the way. -/
theorem exists_bounded_rank (acyclic : store.Acyclic) :
    ∃ rank, Ranks store.Mentions rank ∧ (∀ v, store.Linked v → 0 < rank v) ∧
      ∀ v, rank v ≤ store.vars.size := by
  obtain ⟨_, hrank⟩ := acyclic
  have hlinked : ∀ v w, store.Mentions v w → store.Linked v := fun _ _ ⟨target, h, _⟩ => ⟨target, h⟩
  exact hrank.exists_bounded hlinked fun _ ⟨_, h⟩ => lt_of_link h

/-- Induction along the links, from what a variable is linked to. -/
theorem induction (acyclic : store.Acyclic) {P : KindVar → Prop}
    (step : ∀ v, (∀ w, store.Mentions v w → P w) → P v) (v : KindVar) : P v := by
  obtain ⟨rank, hrank⟩ := acyclic
  induction hn : rank v using Nat.strong_induction_on generalizing v with
  | h n ih => exact step v fun w hvw => ih _ (hn ▸ hrank v w hvw) w rfl

end Acyclic

/-! ## The ends of chains -/

/-- The kind is not a linked variable. -/
def Ended (store : KindStore) (k : Kind) : Prop := ∀ v, k = .mvar v → ¬ store.Linked v

theorem ended_mvar : store.Ended (.mvar v) ↔ ¬ store.Linked v :=
  ⟨fun h => h v rfl, fun h _ hw => by cases hw; exact h⟩

theorem follow_eq_self (h : store.Ended k) (n : Nat) : store.follow n k = k := by
  cases k with
  | mvar v => exact follow_unbound (fun target hv => h v rfl ⟨target, hv⟩) n
  | _ => exact follow_of_ne (by simp) n

theorem exists_link_of_not_ended (h : ¬ store.Ended k) :
    ∃ v target, k = .mvar v ∧ store.stateOf v = .link target := by
  simp only [Ended, not_forall, not_not] at h
  obtain ⟨v, rfl, target, hv⟩ := h
  exact ⟨v, target, rfl, hv⟩

/-- A chain has one end. -/
theorem follow_unique {m n : Nat} (hm : store.Ended (store.follow m k))
    (hn : store.Ended (store.follow n k)) : store.follow m k = store.follow n k := by
  induction m generalizing k n with
  | zero =>
    rw [follow_zero] at hm ⊢
    exact (follow_eq_self hm n).symm
  | succ m ih =>
    by_cases hk : store.Ended k
    · rw [follow_eq_self hk, follow_eq_self hk]
    · obtain ⟨v, target, rfl, hv⟩ := exists_link_of_not_ended hk
      cases n with
      | zero => exact absurd ⟨target, hv⟩ (hn v (follow_zero _ _))
      | succ n =>
        rw [follow_link hv] at hm hn ⊢
        rw [follow_link hv]
        exact ih hm hn

/-- A chain of variables passes each of them at most once. -/
theorem ended_follow (hleads : ∃ rank, Ranks store.Leads rank) (k : Kind) {n : Nat}
    (hn : store.vars.size ≤ n) : store.Ended (store.follow n k) := by
  obtain ⟨_, hrank⟩ := hleads
  have hlinked : ∀ v w, store.Leads v w → store.Linked v := fun _ _ h => ⟨_, h⟩
  obtain ⟨rank, hrank, hpositive, hle⟩ :=
    hrank.exists_bounded hlinked fun _ ⟨_, h⟩ => lt_of_link h
  suffices h : ∀ n k, (∀ v, k = .mvar v → rank v ≤ n) → store.Ended (store.follow n k) from
    h n k fun v _ => Nat.le_trans (hle v) hn
  intro n
  induction n with
  | zero =>
    intro k hk v hv hlink
    rw [follow_zero] at hv
    have := hpositive v hlink
    have := hk v hv
    omega
  | succ n ih =>
    intro k hk
    by_cases hend : store.Ended k
    · rwa [follow_eq_self hend]
    · obtain ⟨v, target, rfl, hv⟩ := exists_link_of_not_ended hend
      rw [follow_link hv]
      refine ih target fun w hw => ?_
      have := hrank v w (hv.trans (congrArg _ hw))
      have := hk v rfl
      omega

theorem follow_eq_of_le (hleads : ∃ rank, Ranks store.Leads rank) (k : Kind) {n : Nat}
    (hn : store.vars.size ≤ n) : store.follow n k = store.follow store.vars.size k :=
  follow_unique (ended_follow hleads k hn) (ended_follow hleads k (Nat.le_refl _))

/-- Everything at the end of a chain ranks below its start. -/
theorem rank_follow_lt {rank : KindVar → Nat} (hrank : Ranks store.Mentions rank)
    (hv : store.stateOf v = .link target) (n : Nat) {w : KindVar}
    (hw : w ∈ (store.follow n target).mvars) : rank w < rank v := by
  induction n generalizing v target with
  | zero =>
    rw [follow_zero] at hw
    exact hrank v w ⟨target, hv, hw⟩
  | succ n ih =>
    by_cases htarget : store.Ended target
    · rw [follow_eq_self htarget] at hw
      exact hrank v w ⟨target, hv, hw⟩
    · obtain ⟨u, next, rfl, hu⟩ := exists_link_of_not_ended htarget
      rw [follow_link hu] at hw
      exact Nat.lt_trans (ih hu hw) (hrank v u (Leads.mentions hv))

/-- Everything in the solution of a variable ranks below it. -/
theorem rank_root_lt {rank : KindVar → Nat} (hrank : Ranks store.Mentions rank)
    (hne : ∀ w, store.follow store.vars.size (.mvar v) ≠ .mvar w) {w : KindVar}
    (hw : w ∈ (store.follow store.vars.size (.mvar v)).mvars) : rank w < rank v := by
  by_cases hlinked : store.Linked v
  · obtain ⟨target, hv⟩ := hlinked
    obtain ⟨size, hsize⟩ := Nat.exists_eq_add_one_of_ne_zero (Nat.ne_zero_of_lt (lt_of_link hv))
    rw [hsize, follow_link hv] at hw
    exact rank_follow_lt hrank hv size hw
  · exact absurd (follow_eq_self (ended_mvar.mpr hlinked) _) (hne v)

/-! ## Expansion -/

theorem rebuildM_eq_assign (θ : KindVar → Kind) (d : Nat) (k : Kind) :
    Id.run (k.rebuildM (fun _ => false) (fun _ i => .bvar i) (fun _ v => θ v) d) = k.assign θ := by
  induction k using Kind.inductionOnParts generalizing d with
  | step k ih =>
    cases k with
    | arrow a b =>
      have ha := ih a (by simp [Kind.parts]) d
      have hb := ih b (by simp [Kind.parts]) d
      simp_all [Kind.rebuildM, Kind.assign, Kind.replace]
    | record a =>
      simpa [Kind.rebuildM, Kind.assign, Kind.replace] using ih a (by simp [Kind.parts]) d
    | poly x body =>
      simpa [Kind.rebuildM, Kind.assign, Kind.replace] using ih body (by simp [Kind.parts]) (d + 1)
    | tuple ks =>
      have hlist : Id.run (Kind.rebuildListM (fun _ => false) (fun _ i => .bvar i)
          (fun _ v => θ v) d ks) = ks.map (Kind.assign θ) := by
        replace ih := fun k hk => ih k hk d
        simp only [Kind.parts] at ih
        induction ks with
        | nil => rfl
        | cons k ks ihs =>
          have hk := ih k (by simp)
          have hks := ihs fun k hk => ih k (by simp [hk])
          simp_all [Kind.rebuildListM]
      simpa [Kind.rebuildM] using hlist
    | mvar | type | unit | name | error | bvar => rfl

/-- What is put for a variable with fuel for `n` more links. -/
private def expandVar (store : KindStore) (n : Nat) (v : KindVar) : Kind :=
  match store.follow store.vars.size (.mvar v) with
  | .mvar root => .mvar root
  | solved => store.expandWithin n solved

private theorem expandWithin_succ (n : Nat) (k : Kind) :
    store.expandWithin (n + 1) k = k.assign (store.expandVar n) :=
  rebuildM_eq_assign (store.expandVar n) 0 k

private theorem expandWithin_of_closed (n : Nat) (hk : k.mvars = []) :
    store.expandWithin n k = k := by
  cases n with
  | zero => rfl
  | succ n =>
    rw [expandWithin_succ]
    exact (Kind.assign_congr (by simp [hk])).trans (Kind.assign_self k)

/-- Fuel above every rank is enough. -/
theorem expandWithin_eq {rank : KindVar → Nat} (hrank : Ranks store.Mentions rank)
    {m n : Nat} (hm : ∀ v ∈ k.mvars, rank v < m) (hn : ∀ v ∈ k.mvars, rank v < n) :
    store.expandWithin m k = store.expandWithin n k := by
  have hnone : (∀ v ∈ k.mvars, rank v < 0) → k.mvars = [] := fun h =>
    List.eq_nil_iff_forall_not_mem.mpr fun v hv => Nat.not_lt_zero _ (h v hv)
  induction m generalizing k n with
  | zero => rw [expandWithin_of_closed 0 (hnone hm), expandWithin_of_closed n (hnone hm)]
  | succ m ih =>
    cases n with
    | zero => rw [expandWithin_of_closed _ (hnone hn), expandWithin_of_closed _ (hnone hn)]
    | succ n =>
      rw [expandWithin_succ, expandWithin_succ]
      refine Kind.assign_congr fun v hv => ?_
      unfold expandVar
      split
      next => rfl
      next root hne =>
        have hbelow : ∀ w ∈ (store.follow store.vars.size (.mvar v)).mvars, rank w < rank v :=
          fun w hw => rank_root_lt hrank hne hw
        refine ih (fun w hw => ?_) (fun w hw => ?_) fun h =>
          List.eq_nil_iff_forall_not_mem.mpr fun v hv => Nat.not_lt_zero _ (h v hv)
        · exact Nat.lt_of_lt_of_le (hbelow w hw) (Nat.le_of_lt_succ (hm v hv))
        · exact Nat.lt_of_lt_of_le (hbelow w hw) (Nat.le_of_lt_succ (hn v hv))

/-- The solution of a variable with all solutions put in. -/
def spelled (store : KindStore) (v : KindVar) : Kind := store.expand (.mvar v)

theorem expand_eq_assign (store : KindStore) (k : Kind) :
    store.expand k = k.assign store.spelled := by
  rw [expand, expandWithin_succ]
  rfl

theorem expand_of_closed (hk : k.mvars = []) : store.expand k = k := expandWithin_of_closed _ hk

theorem spelled_of_not_linked (hv : ¬ store.Linked v) : store.spelled v = .mvar v := by
  rw [spelled, expand, expandWithin_succ, Kind.assign_mvar, expandVar,
    follow_eq_self (ended_mvar.mpr hv)]

namespace Acyclic

theorem expandWithin_eq_of_lt (acyclic : store.Acyclic) (k : Kind) {n : Nat}
    (hn : store.vars.size < n) : store.expandWithin n k = store.expand k := by
  obtain ⟨rank, hrank, -, hle⟩ := acyclic.exists_bounded_rank
  exact expandWithin_eq hrank (fun v _ => Nat.lt_of_le_of_lt (hle v) hn)
    fun v _ => Nat.lt_succ_of_le (hle v)

/-- The end of a chain is spelled like its start. -/
theorem spelled_root (acyclic : store.Acyclic) (v : KindVar) :
    store.spelled v = (store.follow store.vars.size (.mvar v)).assign store.spelled := by
  obtain ⟨rank, hrank, -, hle⟩ := acyclic.exists_bounded_rank
  have hend := ended_follow acyclic.leads (.mvar v) (Nat.le_refl _)
  rw [spelled, expand, expandWithin_succ, Kind.assign_mvar, expandVar]
  split
  next root hroot =>
    rw [hroot, Kind.assign_mvar]
    exact (spelled_of_not_linked (hend root hroot)).symm
  next hne =>
    rw [← expand_eq_assign, expand]
    refine expandWithin_eq hrank (fun w hw => ?_) fun w _ => Nat.lt_succ_of_le (hle w)
    exact Nat.lt_of_lt_of_le (rank_root_lt hrank hne hw) (hle v)

theorem spelled_link (acyclic : store.Acyclic) (hv : store.stateOf v = .link target) :
    store.spelled v = target.assign store.spelled := by
  have hfollow : store.follow store.vars.size (.mvar v) = store.follow store.vars.size target := by
    obtain ⟨size, hsize⟩ := Nat.exists_eq_add_one_of_ne_zero (Nat.ne_zero_of_lt (lt_of_link hv))
    have hend := ended_follow acyclic.leads (.mvar v) (Nat.le_refl _)
    rw [hsize, follow_link hv] at hend
    rw [hsize, follow_link hv, ← hsize]
    exact follow_unique hend (ended_follow acyclic.leads target (Nat.le_refl _))
  rw [spelled_root acyclic, hfollow]
  cases target with
  | mvar w => exact (spelled_root acyclic w).symm
  | _ => rw [follow_of_ne (by simp)]

/-- Only unbound variables are left in a kind that is spelled out. -/
theorem not_linked_of_mem_expand (acyclic : store.Acyclic) {w : KindVar}
    (hw : w ∈ (store.expand k).mvars) : ¬ store.Linked w := by
  rw [expand_eq_assign, Kind.mem_mvars_assign] at hw
  obtain ⟨v, -, hw⟩ := hw
  induction v using acyclic.induction with
  | step v ih =>
    by_cases hv : store.Linked v
    · obtain ⟨target, hv⟩ := hv
      rw [acyclic.spelled_link hv, Kind.mem_mvars_assign] at hw
      obtain ⟨u, hu, hw⟩ := hw
      exact ih u ⟨target, hv, hu⟩ hw
    · rw [spelled_of_not_linked hv, Kind.mvars, List.mem_singleton] at hw
      exact hw ▸ hv

theorem reaches_of_mem_spelled (acyclic : store.Acyclic) {u : KindVar}
    (h : v ∈ (store.spelled u).mvars) : Relation.ReflTransGen store.Mentions u v := by
  induction u using acyclic.induction with
  | step u ih =>
    by_cases hu : store.Linked u
    · obtain ⟨target, hu⟩ := hu
      rw [acyclic.spelled_link hu, Kind.mem_mvars_assign] at h
      obtain ⟨w, hw, h⟩ := h
      exact .head ⟨target, hu, hw⟩ (ih w ⟨target, hu, hw⟩ h)
    · rw [spelled_of_not_linked hu, Kind.mvars, List.mem_singleton] at h
      exact h ▸ .refl

/-- The occurs check sees every unbound variable that the links of a kind lead to. -/
theorem mem_spelled_of_reaches (acyclic : store.Acyclic) (hv : ¬ store.Linked v) {u : KindVar}
    (h : Relation.ReflTransGen store.Mentions u v) : v ∈ (store.spelled u).mvars := by
  induction h using Relation.ReflTransGen.head_induction_on with
  | refl => simp [spelled_of_not_linked hv, Kind.mvars]
  | head hstep _ ih =>
    obtain ⟨target, hlink, hmem⟩ := hstep
    rw [acyclic.spelled_link hlink, Kind.mem_mvars_assign]
    exact ⟨_, hmem, ih⟩

end Acyclic

/-! ## The occurs check -/

theorem occurs_iff : store.occurs v k = true ↔ ∃ w ∈ k.mvars, v ∈ (store.spelled w).mvars := by
  rw [occurs, List.contains_iff_mem, expand_eq_assign, Kind.mem_mvars_assign]

/-- What is put for a variable that does not exist is lost. -/
theorem stateOf_put_of_le (hv : store.vars.size ≤ v) (state : KindVarState) (u : KindVar) :
    (store.put v state).stateOf u = store.stateOf u := by
  change ((store.vars.setIfInBounds v state)[u]?).getD _ = _
  rw [Array.setIfInBounds_eq_of_size_le hv]
  rfl

namespace Acyclic

theorem mono (acyclic : store.Acyclic) (h : ∀ v w, store'.Mentions v w → store.Mentions v w) :
    store'.Acyclic :=
  acyclic.imp fun _ hrank v w hvw => hrank v w (h v w hvw)

/-- Linking a variable to a kind in which it does not occur. -/
theorem put_link (acyclic : store.Acyclic) (hv : ¬ store.Linked v)
    (hoccurs : store.occurs v target = false) : (store.put v (.link target)).Acyclic := by
  classical
  by_cases hlt : v < store.vars.size
  swap
  · refine acyclic.mono fun u w ⟨t, hu, hw⟩ => ⟨t, ?_, hw⟩
    rwa [stateOf_put_of_le (Nat.le_of_not_lt hlt)] at hu
  obtain ⟨rank, hrank, -, hle⟩ := acyclic.exists_bounded_rank
  let above (u : KindVar) : Prop := Relation.ReflTransGen store.Mentions u v
  have hbelow : ∀ w ∈ target.mvars, ¬ above w := by
    intro w hw hreach
    have := occurs_iff.mpr ⟨w, hw, acyclic.mem_spelled_of_reaches hv hreach⟩
    rw [hoccurs] at this
    cases this
  -- the variables from which `v` is reached are lifted above all others
  refine ⟨fun u => if above u then rank u + store.vars.size + 1 else rank u, ?_⟩
  rintro u w ⟨t, hu, hw⟩
  rw [stateOf_put hlt] at hu
  split at hu
  next h =>
    cases hu
    have := hle w
    simp only [if_neg (hbelow w hw), h, if_pos (show above v from .refl)]
    omega
  next h =>
    have hstep : store.Mentions u w := ⟨t, hu, hw⟩
    have := hrank u w hstep
    by_cases hreach : above w
    · simp only [if_pos hreach, if_pos (show above u from hreach.head hstep)]
      omega
    · simp only [if_neg hreach]
      split <;> omega

/-- Giving a variable other demands. -/
theorem put_unbound (acyclic : store.Acyclic) (v : KindVar) (predicate : KindPredicate)
    (components : List (Nat × Kind)) :
    (store.put v (.unbound predicate components)).Acyclic := by
  refine acyclic.mono fun u w ⟨t, hu, hw⟩ => ⟨t, ?_, hw⟩
  by_cases hlt : v < store.vars.size
  · rw [stateOf_put hlt] at hu
    split at hu
    · cases hu
    · exact hu
  · rwa [stateOf_put_of_le (Nat.le_of_not_lt hlt)] at hu

end Acyclic

/-! ## Shortened chains -/

theorem Shortens.stateOf_unbound (h : Shortens store store') :
    store'.stateOf v = .unbound predicate components ↔
      store.stateOf v = .unbound predicate components := by
  rcases h v with hsame | ⟨target, n, hv, hv'⟩
  · rw [hsame]
  · simp [hv, hv']

theorem Shortens.linked_iff (h : Shortens store store') : store'.Linked v ↔ store.Linked v := by
  rcases h v with hsame | ⟨target, n, hv, hv'⟩
  · rw [Linked, hsame, Linked]
  · simp [Linked, hv, hv']

theorem Shortens.ranks (h : Shortens store store') {rank : KindVar → Nat}
    (hrank : Ranks store.Mentions rank) : Ranks store'.Mentions rank := by
  rintro v w ⟨t, ht, hw⟩
  rcases h v with hsame | ⟨target, n, hv, hv'⟩
  · exact hrank v w ⟨t, hsame ▸ ht, hw⟩
  · rw [hv'] at ht
    cases ht
    exact rank_follow_lt hrank hv n hw

theorem Acyclic.shortened (acyclic : store.Acyclic) (h : Shortens store store') :
    store'.Acyclic :=
  acyclic.imp fun _ hrank => h.ranks hrank

end KindStore

end RowML
