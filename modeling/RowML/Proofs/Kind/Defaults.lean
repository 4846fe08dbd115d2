import RowML.Proofs.Kind.Ends
import RowML.Proofs.Kind.Rebuild

/-!
# Defaults

Defaulting replaces a linked variable by its link and an unbound one by its default.  The default
of a tuple has the kinds in it that were demanded of its components, and the occurs check of
unification never sees these.  So defaulting ends if and only if no variable that it comes to is
part of what is put for it; then nothing is left unsolved, and no cycle arises.
-/

namespace RowML

namespace KindStore

variable {store store' : KindStore} {k a : Kind} {v w : KindVar}

/-- What defaulting puts for a variable. -/
def onward (store : KindStore) (v : KindVar) : Kind :=
  match store.stateOf v with
  | .link target => target
  | .unbound predicate components => defaultFor predicate components

/-- The second variable is written in what is put for the first one. -/
def Awaits (store : KindStore) (v w : KindVar) : Prop := w ∈ (store.onward v).mvars

theorem onward_link {target : Kind} (hv : store.stateOf v = .link target) :
    store.onward v = target := by
  rw [onward, hv]

theorem onward_unbound {predicate : KindPredicate} {components : List (Nat × Kind)}
    (hv : store.stateOf v = .unbound predicate components) :
    store.onward v = defaultFor predicate components := by
  rw [onward, hv]

theorem Mentions.awaits (h : store.Mentions v w) : store.Awaits v w := by
  obtain ⟨target, hv, hw⟩ := h
  rwa [Awaits, onward_link hv]

theorem Awaits.lt (h : store.Awaits v w) : v < store.vars.size := by
  by_contra hv
  rw [Awaits, onward_unbound (stateOf_of_le (Nat.le_of_not_lt hv))] at h
  cases h

/-- A default is never a variable. -/
theorem defaultFor_ne_mvar (predicate : KindPredicate) (components : List (Nat × Kind))
    (v : KindVar) : defaultFor predicate components ≠ .mvar v := by
  cases predicate <;> simp [defaultFor]

/-- Linking a variable to its default puts nothing else for any variable. -/
theorem onward_put {predicate : KindPredicate} {components : List (Nat × Kind)}
    (hv : store.stateOf v = .unbound predicate components) :
    (store.put v (.link (defaultFor predicate components))).onward = store.onward := by
  funext u
  by_cases hlt : v < store.vars.size
  · by_cases h : u = v
    · subst h
      rw [onward_unbound hv, onward, stateOf_put hlt, if_pos rfl]
    · rw [onward, stateOf_put hlt, if_neg h, onward]
  · rw [onward, stateOf_put_of_le (Nat.le_of_not_lt hlt), onward]

/-! ## Along the chains -/

theorem awaits_of_mem_follow {n : Nat} (h : w ∈ (store.follow n k).mvars) :
    ∃ u ∈ k.mvars, Relation.ReflTransGen store.Awaits u w := by
  induction n generalizing k with
  | zero =>
    rw [follow_zero] at h
    exact ⟨w, h, .refl⟩
  | succ n ih =>
    by_cases hk : store.Ended k
    · rw [follow_eq_self hk] at h
      exact ⟨w, h, .refl⟩
    · obtain ⟨v, target, rfl, hv⟩ := exists_link_of_not_ended hk
      rw [follow_link hv] at h
      obtain ⟨u, hu, hreach⟩ := ih h
      exact ⟨v, by simp [Kind.mvars], .head (Mentions.awaits ⟨target, hv, hu⟩) hreach⟩

/-- What is written in the solution of a variable. -/
theorem awaits_of_mem_root (hne : ∀ w, store.follow store.vars.size (.mvar v) ≠ .mvar w)
    (hw : w ∈ (store.follow store.vars.size (.mvar v)).mvars) :
    Relation.TransGen store.Awaits v w := by
  by_cases hlinked : store.Linked v
  · obtain ⟨target, hv⟩ := hlinked
    obtain ⟨size, hsize⟩ := Nat.exists_eq_add_one_of_ne_zero (Nat.ne_zero_of_lt (lt_of_link hv))
    rw [hsize, follow_link hv] at hw
    obtain ⟨u, hu, hreach⟩ := awaits_of_mem_follow hw
    exact .head' (Mentions.awaits ⟨target, hv, hu⟩) hreach
  · exact absurd (follow_eq_self (ended_mvar.mpr hlinked) _) (hne v)

/-- A shorter chain puts what the longer one puts in the end. -/
theorem Shortens.awaits (h : Shortens store store') (hvw : store'.Awaits v w) :
    Relation.TransGen store.Awaits v w := by
  rcases h v with hsame | ⟨target, n, hv, hv'⟩
  · refine .single ?_
    rwa [Awaits, onward, hsame] at hvw
  · rw [Awaits, onward_link hv'] at hvw
    obtain ⟨u, hu, hreach⟩ := awaits_of_mem_follow hvw
    exact .head' (Mentions.awaits ⟨target, hv, hu⟩) hreach

theorem Shortens.leads (h : Shortens store store') {rank : KindVar → Nat}
    (hrank : Ranks store.Leads rank) : Ranks store'.Leads rank := by
  have hfollow : ∀ n (k : Kind), ∀ w, store.follow n k = .mvar w → ∀ v, store.stateOf v = .link k →
      rank w < rank v := by
    intro n
    induction n with
    | zero =>
      intro k w hw v hv
      rw [follow_zero] at hw
      exact hrank v w (hv.trans (congrArg _ hw))
    | succ n ih =>
      intro k w hw v hv
      by_cases hk : store.Ended k
      · rw [follow_eq_self hk] at hw
        exact hrank v w (hv.trans (congrArg _ hw))
      · obtain ⟨u, target, rfl, hu⟩ := exists_link_of_not_ended hk
        rw [follow_link hu] at hw
        exact Nat.lt_trans (ih target w hw u hu) (hrank v u hv)
  intro v w hvw
  rcases h v with hsame | ⟨target, n, hv, hv'⟩
  · exact hrank v w (hsame.symm.trans hvw)
  · rw [Leads, hv'] at hvw
    exact hfollow n target w (by injection hvw) v hv

/-! ## Grounded variables -/

/-- The replacement of a variable comes to an end. -/
inductive Grounded (store : KindStore) : KindVar → Prop where
  | intro {v : KindVar} (h : ∀ w, store.Awaits v w → Grounded store w) : Grounded store v

namespace Grounded

theorem iff : store.Grounded v ↔ ∀ w, store.Awaits v w → store.Grounded w :=
  ⟨fun ⟨h⟩ => h, .intro⟩

theorem of_reaches (h : store.Grounded v) (hvw : Relation.ReflTransGen store.Awaits v w) :
    store.Grounded w := by
  induction hvw with
  | refl => exact h
  | tail _ hstep ih => exact iff.mp ih _ hstep

theorem not_cyclic (h : store.Grounded v) : ¬ Relation.TransGen store.Awaits v v := by
  induction h with
  | @intro v _ ih =>
    intro hv
    obtain ⟨w, hvw, hwv⟩ := Relation.TransGen.head'_iff.mp hv
    exact ih w hvw (.tail' hwv hvw)

/-- The start of a chain is grounded if its end is. -/
theorem of_follow {n : Nat} (h : ∀ w ∈ (store.follow n k).mvars, store.Grounded w) :
    ∀ w ∈ k.mvars, store.Grounded w := by
  induction n generalizing k with
  | zero => rwa [follow_zero] at h
  | succ n ih =>
    by_cases hk : store.Ended k
    · rwa [follow_eq_self hk] at h
    · obtain ⟨v, target, rfl, hv⟩ := exists_link_of_not_ended hk
      rw [follow_link hv] at h
      intro w hw
      obtain rfl : w = v := by simpa [Kind.mvars] using hw
      refine .intro fun u hu => ih h u ?_
      rwa [Awaits, onward_link hv] at hu

theorem of_onward (h : store'.onward = store.onward) : store'.Grounded v ↔ store.Grounded v := by
  have himp : ∀ {s t : KindStore}, s.onward = t.onward → s.Grounded v → t.Grounded v := by
    intro s t h hv
    induction hv with
    | intro _ ih => exact .intro fun w hw => ih w (by rwa [Awaits, h])
  exact ⟨himp h, himp h.symm⟩

theorem shortened (h : Shortens store store') : store'.Grounded v ↔ store.Grounded v := by
  refine ⟨fun hv => ?_, fun hv => ?_⟩
  · induction hv with
    | @intro v _ ih =>
      refine .intro fun w hw => ?_
      rcases h v with hsame | ⟨target, n, hv, hv'⟩
      · exact ih w (by rwa [Awaits, onward, hsame])
      · rw [Awaits, onward_link hv] at hw
        refine of_follow (n := n) (fun u hu => ih u ?_) w hw
        rwa [Awaits, onward_link hv']
  · -- the induction is about all that the variable leads to
    suffices ∀ w, Relation.ReflTransGen store.Awaits v w → store'.Grounded w from this v .refl
    induction hv with
    | @intro v _ ih =>
      have hbelow : ∀ w, Relation.TransGen store.Awaits v w → store'.Grounded w := by
        intro w hw
        obtain ⟨u, hvu, huw⟩ := Relation.TransGen.head'_iff.mp hw
        exact ih u hvu w huw
      intro w hw
      rcases Relation.reflTransGen_iff_eq_or_transGen.mp hw with rfl | hw
      · exact .intro fun u hu => hbelow u (h.awaits hu)
      · exact hbelow w hw

end Grounded

/-! ## The step of defaulting -/

/-- What defaulting does at the end of a chain. -/
def defaultRoot (fuel : Nat) : Kind → Fuelled KindStore Kind
  | .mvar root => do
    match (← get).stateOf root with
    | .unbound predicate components =>
      let target := defaultFor predicate components
      setVar root (.link target)
      defaultUnsolved fuel target
    | .link _ => pure (.mvar root)
  | solved => defaultUnsolved fuel solved

theorem defaultUnsolved_succ (fuel : Nat) (k : Kind) :
    defaultUnsolved (fuel + 1) k =
      k.rebuildM (fun _ => false) (fun _ i => pure (.bvar i))
        (fun _ v => do defaultRoot fuel (← (resolve (.mvar v) : Fuelled KindStore Kind))) 0 :=
  rfl

theorem defaultRoot_solved (hk : ∀ v, k ≠ .mvar v) (fuel : Nat) :
    defaultRoot fuel k = defaultUnsolved fuel k := by
  cases k with
  | mvar v => exact absurd rfl (hk v)
  | _ => rfl

theorem defaultRoot_unbound {predicate : KindPredicate} {components : List (Nat × Kind)}
    (hv : store.stateOf v = .unbound predicate components) (fuel : Nat) :
    defaultRoot fuel (.mvar v) store =
      defaultUnsolved fuel (defaultFor predicate components)
        (store.put v (.link (defaultFor predicate components))) := by
  change (match store.stateOf v with
    | .unbound predicate components => _
    | .link _ => _ : Fuelled KindStore Kind) store = _
  rw [hv]
  rfl

/-- Following a chain to its end, and what is known there. -/
structure Ending (store : KindStore) (v : KindVar) (root : Kind) (store' : KindStore) :
    Prop where
  followed : root = store.follow store.vars.size (.mvar v)
  shortens : Shortens store store'
  form : (∃ r predicate components, root = .mvar r ∧
    store'.stateOf r = .unbound predicate components) ∨ ∀ r, root ≠ .mvar r

theorem ending (hleads : ∃ rank, Ranks store.Leads rank) (v : KindVar) :
    Ending store v ((resolve (.mvar v)).run store).1 ((resolve (.mvar v)).run store).2 := by
  obtain ⟨hroot, hshort⟩ : ((resolve (.mvar v)).run store).1 =
      store.follow store.vars.size (.mvar v) ∧
      Shortens store ((resolve (.mvar v)).run store).2 := resolveWithin_run _ _ store
  refine ⟨hroot, hshort, ?_⟩
  rw [hroot]
  by_cases h : ∃ r, store.follow store.vars.size (.mvar v) = .mvar r
  · obtain ⟨r, hr⟩ := h
    have hended := ended_follow hleads (.mvar v) (Nat.le_refl _)
    rw [hr, ended_mvar, ← hshort.linked_iff] at hended
    obtain ⟨predicate, components, hstate⟩ := not_linked_iff.mp hended
    exact .inl ⟨r, predicate, components, hr, hstate⟩
  · exact .inr fun r hr => h ⟨r, hr⟩

theorem bind_resolve (f : Kind → Fuelled KindStore Kind) :
    ((resolve (.mvar v) : Fuelled KindStore Kind) >>= f) store =
      f ((resolve (.mvar v)).run store).1 ((resolve (.mvar v)).run store).2 :=
  rfl

/-! ## What has come to an end -/

/-- The discipline of defaulting: it changes nothing about which variables are grounded. -/
def defaulting : Discipline KindStore where
  Ok store := ∃ rank, Ranks store.Leads rank
  Grows store store' := ∀ v, store'.Grounded v ↔ store.Grounded v
  refl _ _ _ := Iff.rfl
  trans _ _ _ h h' v := (h' v).trans (h v)

/-- Everything in the input is grounded and nothing in the output is unsolved. -/
private def Settled (store : KindStore) (_depth : Nat) (k k' : Kind) : Prop :=
  (∀ v ∈ k.mvars, store.Grounded v) ∧ k'.mvars = []

private theorem settled_tuple {d : Nat} {ks ks' : List Kind}
    (h : List.Forall₂ (Settled store d) ks ks') : Settled store d (.tuple ks) (.tuple ks') := by
  simp only [Settled, Kind.mvars, Kind.mvarsList_eq]
  induction h with
  | nil => simp
  | cons hk _ ih =>
    refine ⟨fun v hv => ?_, by simpa [hk.2] using ih.2⟩
    rw [List.flatMap_cons, List.mem_append] at hv
    exact hv.elim (hk.1 v) (ih.1 v)

/-- The links of variables to variables stay without a cycle: a default is not a variable. -/
theorem leads_put {predicate : KindPredicate} {components : List (Nat × Kind)}
    (ok : defaulting.Ok store) (v : KindVar) :
    defaulting.Ok (store.put v (.link (defaultFor predicate components))) := by
  obtain ⟨rank, hrank⟩ := ok
  refine ⟨rank, fun u w huw => ?_⟩
  by_cases hlt : v < store.vars.size
  · rw [Leads, stateOf_put hlt] at huw
    split at huw
    · cases defaultFor_ne_mvar predicate components w (by injection huw)
    · exact hrank u w huw
  · rw [Leads, stateOf_put_of_le (Nat.le_of_not_lt hlt)] at huw
    exact hrank u w huw

/-- What defaulting does with a variable, if it comes to an end. -/
private theorem onMVar_yields {fuel : Nat}
    (ih : ∀ {k store}, defaulting.Ok store →
      Yields defaulting store (defaultUnsolved fuel k) fun k' store' => Settled store' 0 k k')
    (ok : defaulting.Ok store) (d : Nat) :
    Yields defaulting store (do defaultRoot fuel (← (resolve (.mvar v) : Fuelled KindStore Kind)))
      fun k' store' => Settled store' d (.mvar v) k' := by
  obtain ⟨hroot, hshort, hcases⟩ := ending ok v
  have ok' : defaulting.Ok ((resolve (.mvar v)).run store).2 := ok.imp fun _ => hshort.leads
  have hgrows : ∀ u, ((resolve (.mvar v)).run store).2.Grounded u ↔ store.Grounded u :=
    fun _ => Grounded.shortened hshort
  refine Yields.next (rfl : exec _ store = some (some ((resolve (.mvar v)).run store).1,
    ((resolve (.mvar v)).run store).2)) ok ok' hgrows ?_
  generalize ((resolve (.mvar v)).run store).1 = root at *
  generalize ((resolve (.mvar v)).run store).2 = store₁ at *
  -- it is enough that the end of the chain is grounded
  have hstart : ∀ {store'' : KindStore}, (∀ u, store''.Grounded u ↔ store₁.Grounded u) →
      (∀ w ∈ root.mvars, store''.Grounded w) → ∀ w ∈ (Kind.mvar v).mvars, store''.Grounded w := by
    intro store'' h hend w hw
    refine ((h w).trans (hgrows w)).mpr
      (Grounded.of_follow (n := store.vars.size) (fun u hu => ?_) w hw)
    exact ((h u).trans (hgrows u)).mp (hend u (hroot ▸ hu))
  rcases hcases with ⟨r, predicate, components, rfl, hstate⟩ | hne
  · have hput : ∀ u, (store₁.put r (.link (defaultFor predicate components))).Grounded u ↔
        store₁.Grounded u := fun _ => Grounded.of_onward (onward_put hstate)
    have hrun : exec (defaultRoot fuel (.mvar r)) store₁ = _ :=
      congrArg (Option.map _) (defaultRoot_unbound hstate fuel)
    intro result store' hexec
    obtain ⟨ok'', hgrows', hsettled⟩ := ih (leads_put ok' r) result store' (hrun.symm.trans hexec)
    have hall : ∀ u, store'.Grounded u ↔ store₁.Grounded u := fun u => (hgrows' u).trans (hput u)
    refine ⟨ok'', hall, fun k' hk' => ⟨hstart hall fun w hw => ?_, (hsettled k' hk').2⟩⟩
    obtain rfl : w = r := by simpa [Kind.mvars] using hw
    refine (hall w).mpr (.intro fun u hu => (hall u).mp ((hsettled k' hk').1 u ?_))
    rwa [Awaits, onward_unbound hstate] at hu
  · rw [defaultRoot_solved hne]
    refine (ih ok').mono fun k' store' _ hgrows' hsettled => ?_
    exact ⟨hstart hgrows' hsettled.1, hsettled.2⟩

/-- If defaulting ends, everything in the input is grounded and nothing is left unsolved. -/
private theorem defaultUnsolved_yields (fuel : Nat) (ok : defaulting.Ok store) :
    Yields defaulting store (defaultUnsolved fuel k) fun k' store' => Settled store' 0 k k' := by
  induction fuel generalizing store k with
  | zero => exact Yields.of_none rfl
  | succ fuel ih =>
    have pass : Kind.Pass defaulting (fun _ _ => True) Settled (fun _ => false)
        (fun _ i => pure (.bvar i)) _ :=
      { pre_grows := fun _ _ _ => trivial
        post_grows := fun _ grows h => ⟨fun v hv => (grows v).mpr (h.1 v hv), h.2⟩
        pre_part := fun _ _ _ => trivial
        bvar_yields := fun ok _ => Yields.pure ok ⟨by simp [Kind.mvars], rfl⟩
        mvar_yields := fun ok _ => onMVar_yields ih ok _
        kept := fun _ _ h => by cases h
        leaf := fun {_ _ k} _ _ hvar hparts => by
          have hk : k.mvars = [] := by
            cases k with
            | mvar v => exact absurd rfl (hvar v)
            | tuple ks => simp [Kind.parts] at hparts; simp [hparts, Kind.mvars]
            | arrow | record | poly => simp [Kind.parts] at hparts
            | _ => rfl
          exact ⟨by simp [hk], hk⟩
        arrow := fun ha hb => ⟨by simpa [Kind.mvars, or_imp, forall_and] using ⟨ha.1, hb.1⟩, by
          simp [Kind.mvars, ha.2, hb.2]⟩
        record := fun h => h
        tuple := settled_tuple
        poly := fun h => h }
    exact pass.rebuildM_yields k ok trivial

/-! ## What comes to an end -/

/-- No variable of the kind comes to a variable that is part of what is put for it. -/
def Defaultable (store : KindStore) (k : Kind) : Prop :=
  ∀ u ∈ k.mvars, ∀ v, Relation.ReflTransGen store.Awaits u v →
    ¬ Relation.TransGen store.Awaits v v

/-- The variables in question are closed under what is put for them, and the rank falls there. -/
private structure Descends (among : KindVar → Prop) (rank : KindVar → Nat) (store : KindStore) :
    Prop where
  acyclic : store.Acyclic
  step : ∀ {v w}, among v → store.Awaits v w → among w ∧ rank w < rank v

namespace Descends

variable {among : KindVar → Prop} {rank : KindVar → Nat}

private theorem reaches (h : Descends among rank store) (hv : among v)
    (hvw : Relation.TransGen store.Awaits v w) : among w ∧ rank w < rank v := by
  induction hvw with
  | single hstep => exact h.step hv hstep
  | tail _ hstep ih =>
    have hlt := h.step ih.1 hstep
    exact ⟨hlt.1, Nat.lt_trans hlt.2 ih.2⟩

private theorem shortened (h : Descends among rank store) (hshort : Shortens store store') :
    Descends among rank store' :=
  ⟨h.acyclic.shortened hshort, fun hv hvw => h.reaches hv (hshort.awaits hvw)⟩

/-- Linking an unbound variable to its default.  What the occurs check would look for is not
there, since the rank falls from the variable to its default and on along the links. -/
private theorem put (h : Descends among rank store) {predicate : KindPredicate}
    {components : List (Nat × Kind)} (hv : store.stateOf v = .unbound predicate components)
    (hamong : among v) :
    Descends among rank (store.put v (.link (defaultFor predicate components))) := by
  refine ⟨h.acyclic.put_link (not_linked_iff.mpr ⟨_, _, hv⟩) ?_, fun {u w} hu huw => ?_⟩
  · by_contra hoccurs
    rw [Bool.not_eq_false, occurs_iff] at hoccurs
    obtain ⟨w, hw, hmem⟩ := hoccurs
    have hvw : store.Awaits v w := by rwa [Awaits, onward_unbound hv]
    have hwv := h.acyclic.reaches_of_mem_spelled hmem
    have hwv : Relation.ReflTransGen store.Awaits w v :=
      Relation.ReflTransGen.mono (fun _ _ h => Mentions.awaits h) w v hwv
    have hcycle := h.reaches hamong (.head' hvw hwv)
    exact Nat.lt_irrefl _ hcycle.2
  · rw [Awaits, onward_put hv] at huw
    exact h.step hu huw

end Descends

/-- From every state in order both computations come to the same end, in a state in order. -/
private def SameEnds (Ok : KindStore → Prop) (α : Type) (x y : Fuelled KindStore α) : Prop :=
  ∀ s, Ok s → ∃ a s', x s = some (a, s') ∧ y s = some (a, s') ∧ Ok s'

private theorem sameEnds_congruence {Ok : KindStore → Prop} : Congruence (SameEnds Ok) where
  pure a s hs := ⟨a, s, rfl, rfl, hs⟩
  bind {_ _ x y f g} hx hf s hs := by
    obtain ⟨a, s', hxs, hys, hs'⟩ := hx s hs
    obtain ⟨b, s'', hfs, hgs, hs''⟩ := hf a s' hs'
    have hrun : (x >>= f) s = (x s).bind fun r => f r.1 r.2 := rfl
    have hrun' : (y >>= g) s = (y s).bind fun r => g r.1 r.2 := rfl
    exact ⟨b, s'', by rw [hrun, hxs]; exact hfs, by rw [hrun', hys]; exact hgs, hs''⟩

/-- Where the rank falls, defaulting ends, with fuel above the ranks. -/
private theorem defaultUnsolved_ends {among : KindVar → Prop} {rank : KindVar → Nat} {m n : Nat}
    (hm : ∀ v ∈ k.mvars, among v ∧ rank v < m) (hn : ∀ v ∈ k.mvars, rank v < n) :
    SameEnds (Descends among rank) _ (defaultUnsolved (m + 1) k) (defaultUnsolved (n + 1) k) := by
  induction m generalizing k n with
  | zero =>
    refine Kind.rebuildM_related sameEnds_congruence (fun _ _ => sameEnds_congruence.pure _) k
      (fun d v hv => ?_) 0
    exact absurd (hm v hv).2 (Nat.not_lt_zero _)
  | succ m ih =>
    rw [defaultUnsolved_succ, defaultUnsolved_succ]
    refine Kind.rebuildM_related sameEnds_congruence (fun _ _ => sameEnds_congruence.pure _) k
      (fun d v hv s hs => ?_) 0
    obtain ⟨n, rfl⟩ := Nat.exists_eq_add_one_of_ne_zero (Nat.ne_zero_of_lt (hn v hv))
    obtain ⟨hroot, hshort, hcases⟩ := ending hs.acyclic.leads v
    have hs' := hs.shortened hshort
    have hv' := hm v hv
    rw [bind_resolve, bind_resolve]
    generalize ((resolve (.mvar v)).run s).1 = root at *
    generalize ((resolve (.mvar v)).run s).2 = s₁ at *
    rcases hcases with ⟨r, predicate, components, rfl, hstate⟩ | hne
    · have hr : among r ∧ rank r ≤ rank v := by
        have hend : r ∈ (s.follow s.vars.size (.mvar v)).mvars := by simp [← hroot, Kind.mvars]
        obtain ⟨u, hu, hreach⟩ := awaits_of_mem_follow hend
        obtain rfl : u = v := by simpa [Kind.mvars] using hu
        rcases Relation.reflTransGen_iff_eq_or_transGen.mp hreach with rfl | hreach
        · exact ⟨hv'.1, Nat.le_refl _⟩
        · have := hs.reaches hv'.1 hreach
          exact ⟨this.1, Nat.le_of_lt this.2⟩
      have hbelow : ∀ w ∈ (defaultFor predicate components).mvars, among w ∧ rank w < rank v := by
        intro w hw
        have := hs'.step (w := w) hr.1 (by rwa [Awaits, onward_unbound hstate])
        exact ⟨this.1, Nat.lt_of_lt_of_le this.2 hr.2⟩
      rw [defaultRoot_unbound hstate, defaultRoot_unbound hstate]
      refine ih (fun w hw => ⟨(hbelow w hw).1, ?_⟩) (fun w hw => ?_) _ (hs'.put hstate hr.1)
      · exact Nat.lt_of_lt_of_le (hbelow w hw).2 (Nat.le_of_lt_succ hv'.2)
      · exact Nat.lt_of_lt_of_le (hbelow w hw).2 (Nat.le_of_lt_succ (hn v hv))
    · have hbelow : ∀ w ∈ root.mvars, among w ∧ rank w < rank v := fun w hw =>
        hs.reaches hv'.1 (awaits_of_mem_root (hroot ▸ hne) (hroot ▸ hw))
      rw [defaultRoot_solved hne, defaultRoot_solved hne]
      refine ih (fun w hw => ⟨(hbelow w hw).1, ?_⟩) (fun w hw => ?_) _ hs'
      · exact Nat.lt_of_lt_of_le (hbelow w hw).2 (Nat.le_of_lt_succ hv'.2)
      · exact Nat.lt_of_lt_of_le (hbelow w hw).2 (Nat.le_of_lt_succ (hn v hv))

/-- What a computation answers, another one answers as well. -/
private def Extends (α : Type) (x y : Fuelled KindStore α) : Prop :=
  ∀ s r, x s = some r → y s = some r

private theorem extends_congruence : Congruence Extends where
  pure _ _ _ h := h
  bind {_ _ x y f g} hx hf s r h := by
    obtain ⟨⟨a, s'⟩, hxs, hfs⟩ := Option.bind_eq_some_iff.mp h
    exact Option.bind_eq_some_iff.mpr ⟨(a, s'), hx s _ hxs, hf a s' r hfs⟩

private theorem extends_refl {α : Type} (x : Fuelled KindStore α) : Extends α x x :=
  fun _ _ h => h

/-- More fuel changes no answer. -/
theorem defaultUnsolved_mono {m n : Nat} (hmn : m ≤ n) {r : Kind × KindStore}
    (h : defaultUnsolved m k store = some r) : defaultUnsolved n k store = some r := by
  suffices hsucc : ∀ m k, Extends _ (defaultUnsolved m k) (defaultUnsolved (m + 1) k) by
    induction hmn with
    | refl => exact h
    | step _ ih => exact hsucc _ k store r ih
  intro m
  induction m with
  | zero => exact fun _ _ _ h => by cases h
  | succ m ih =>
    intro k
    refine Kind.rebuildM_related extends_congruence (fun _ _ => extends_refl _) k
      (fun d v _ => extends_congruence.bind (extends_refl _) fun root => ?_) 0
    split
    · refine extends_congruence.bind (extends_refl _) fun s => ?_
      split
      · exact extends_congruence.bind (extends_refl _) fun _ => ih _
      · exact extends_refl _
    · exact ih _

namespace Acyclic

/-- Defaulting ends within as many steps as there are variables if no variable is part of what is
put for it, and it makes no cycle. -/
theorem defaultUnsolved_ends (acyclic : store.Acyclic) (hk : store.Defaultable k) :
    ∃ k' store', store'.Acyclic ∧
      ∀ fuel, store.vars.size + 1 < fuel → defaultUnsolved fuel k store = some (k', store') := by
  let among (v : KindVar) : Prop := ∃ u ∈ k.mvars, Relation.ReflTransGen store.Awaits u v
  have hamong : ∀ v w, among v → store.Awaits v w → among w := fun v w ⟨u, hu, huv⟩ hvw =>
    ⟨u, hu, huv.tail hvw⟩
  have hstep : ∀ {v w}, Relation.TransGen (fun v w => among v ∧ store.Awaits v w) v w →
      among v ∧ Relation.TransGen store.Awaits v w := by
    intro v w h
    induction h using Relation.TransGen.head_induction_on with
    | single h => exact ⟨h.1, .single h.2⟩
    | head h _ ih => exact ⟨h.1, .head h.2 ih.2⟩
  have hacyclic : ∀ v, ¬ Relation.TransGen (fun v w => among v ∧ store.Awaits v w) v v := by
    intro v hv
    obtain ⟨⟨u, hu, huv⟩, hcycle⟩ := hstep hv
    exact hk u hu v huv hcycle
  have hdom : ∀ v w, among v ∧ store.Awaits v w → v < store.vars.size := fun _ _ h => h.2.lt
  obtain ⟨rank, hrank, -, hle⟩ := exists_ranks hacyclic hdom fun _ h => h
  have descends : Descends among rank store :=
    ⟨acyclic, fun {v w} hv hvw => ⟨hamong v w hv hvw, hrank v w ⟨hv, hvw⟩⟩⟩
  have hbound : ∀ v ∈ k.mvars, among v ∧ rank v < store.vars.size + 1 := fun v hv =>
    ⟨⟨v, hv, .refl⟩, Nat.lt_succ_of_le (hle v)⟩
  obtain ⟨k', store', hrun, -, hends⟩ :=
    KindStore.defaultUnsolved_ends hbound (fun v hv => (hbound v hv).2) store descends
  refine ⟨k', store', hends.acyclic, fun fuel hfuel => ?_⟩
  exact defaultUnsolved_mono (Nat.succ_le_of_lt hfuel) hrun

theorem defaultable_of_run (acyclic : store.Acyclic) {fuel : Nat} {k' : Kind}
    (h : defaultUnsolved fuel k store = some (k', store')) :
      store.Defaultable k ∧ k'.mvars = [] := by
  have hexec : exec (defaultUnsolved fuel k) store = some (some k', store') := by
    change (defaultUnsolved fuel k store).map _ = _
    rw [h]
    rfl
  obtain ⟨-, grows, hsettled⟩ := defaultUnsolved_yields fuel acyclic.leads _ _ hexec
  refine ⟨fun u hu v huv => ?_, (hsettled k' rfl).2⟩
  exact (((grows u).mp ((hsettled k' rfl).1 u hu)).of_reaches huv).not_cyclic

/-- Defaulting ends exactly where no variable is part of what is put for it. -/
theorem defaultUnsolved_ends_iff (acyclic : store.Acyclic) :
    (∃ fuel r, defaultUnsolved fuel k store = some r) ↔ store.Defaultable k := by
  refine ⟨fun ⟨_, _, h⟩ => (acyclic.defaultable_of_run h).1, fun hk => ?_⟩
  obtain ⟨k', store', -, hrun⟩ := acyclic.defaultUnsolved_ends hk
  exact ⟨_, _, hrun _ (Nat.lt_succ_self _)⟩

/-- Defaulting makes no cycle. -/
theorem defaulted (acyclic : store.Acyclic) {fuel : Nat} {k' : Kind}
    (h : defaultUnsolved fuel k store = some (k', store')) : store'.Acyclic := by
  obtain ⟨k'', store'', hacyclic, hrun⟩ :=
    acyclic.defaultUnsolved_ends (acyclic.defaultable_of_run h).1
  have hmono := defaultUnsolved_mono (Nat.le_max_left fuel (store.vars.size + 2)) h
  rw [hrun _ (Nat.lt_of_lt_of_le (Nat.lt_succ_self _) (Nat.le_max_right _ _))] at hmono
  cases hmono
  exact hacyclic

end Acyclic

end KindStore

end RowML
