import RowML.Proofs.Kind.Reading
import RowML.Proofs.Kind.Ends
import RowML.Proofs.Kind.Zonk

/-!
# Substitution before and after zonking

Zonking spells a kind out.  Shifting and substitution follow links as well, but they skip every part
of a kind in which no variable is written, and a link below such a part may lead to one.  Where no
part hides a variable in this way, it makes no difference whether a kind is spelled out before a
variable of it is moved or replaced, or afterwards.
-/

namespace RowML

theorem map_eq_map_of_forall₂ {α β γ : Type} {f : α → γ} {g : β → γ} {xs : List α} {ys : List β}
    (h : List.Forall₂ (fun x y => g y = f x) xs ys) : ys.map g = xs.map f := by
  rw [← List.forall₂_eq_eq_eq, List.forall₂_map_left_iff, List.forall₂_map_right_iff]
  exact h.flip

namespace Kind

variable {k : Kind}

theorem Vars.assign {θ : KindVar → Kind} {d : Nat} (h : Vars (fun depth i => i < depth) d k)
    (hθ : ∀ v, (θ v).Closed) : Vars (fun depth i => i < depth) d (k.assign θ) := by
  induction k using inductionOnParts generalizing d with
  | step k ih =>
    obtain ⟨htop, hparts⟩ := Vars.iff.mp h
    have hpart := fun p hp => ih p hp (hparts p hp)
    cases k with
    | mvar v => exact (hθ v).vars d
    | type | unit | name | error | bvar => exact h
    | tuple ks =>
      rw [assign_tuple]
      exact .intro (by simp) (List.forall_mem_map.mpr hpart)
    | arrow a b =>
      have ha := hpart a (by simp [parts])
      have hb := hpart b (by simp [parts])
      refine .intro (fun i hi => by cases hi) fun p hp => ?_
      rcases List.mem_pair.mp hp with rfl | rfl
      · exact ha
      · exact hb
    | record a =>
      have ha := hpart a (by simp [parts])
      refine .intro (fun i hi => by cases hi) fun p hp => ?_
      obtain rfl := List.mem_singleton.mp hp
      exact ha
    | poly x body =>
      have hbody := hpart body (by simp [parts])
      refine .intro (fun i hi => by cases hi) fun p hp => ?_
      obtain rfl := List.mem_singleton.mp hp
      exact hbody

end Kind

namespace KindStore

variable {store store' : KindStore} {k : Kind} {v : KindVar}

/-! ## Spelling out, node by node -/

@[simp] theorem expand_arrow (a b : Kind) :
    store.expand (.arrow a b) = .arrow (store.expand a) (store.expand b) := by
  simp only [expand_eq_assign]
  rfl

@[simp] theorem expand_record (a : Kind) :
    store.expand (.record a) = .record (store.expand a) := by
  simp only [expand_eq_assign]
  rfl

@[simp] theorem expand_poly (x : String) (body : Kind) :
    store.expand (.poly x body) = .poly x (store.expand body) := by
  simp only [expand_eq_assign]
  rfl

@[simp] theorem expand_tuple (ks : List Kind) :
    store.expand (.tuple ks) = .tuple (ks.map store.expand) := by
  simp only [expand_eq_assign, Kind.assign_tuple]
  exact congrArg Kind.tuple (List.map_congr_left fun k _ => (expand_eq_assign store k).symm)

@[simp] theorem expand_bvar (i : Nat) : store.expand (.bvar i) = .bvar i := by
  rw [expand_eq_assign]
  rfl

theorem expand_leaf (hmvar : ∀ v, k ≠ .mvar v) (hparts : k.parts = []) : store.expand k = k := by
  rw [expand_eq_assign]
  cases k with
  | mvar v => exact absurd rfl (hmvar v)
  | tuple ks =>
    cases hparts
    rfl
  | arrow | record | poly => cases hparts
  | type | unit | name | error | bvar => rfl

theorem expand_of_not_linked (hv : ¬ store.Linked v) : store.expand (.mvar v) = .mvar v :=
  spelled_of_not_linked hv

/-- A variable is spelled like the end of its chain. -/
theorem Acyclic.expand_follow (acyclic : store.Acyclic) (v : KindVar) :
    store.expand (store.follow store.vars.size (.mvar v)) = store.expand (.mvar v) := by
  rw [expand_eq_assign]
  exact (acyclic.spelled_root v).symm

/-- Only unbound variables are left, so there is nothing more to spell out. -/
theorem Acyclic.expand_expand (acyclic : store.Acyclic) (k : Kind) :
    store.expand (store.expand k) = store.expand k := by
  rw [expand_eq_assign (k := store.expand k)]
  refine (Kind.assign_congr fun v hv => ?_).trans (Kind.assign_self _)
  exact spelled_of_not_linked (acyclic.not_linked_of_mem_expand hv)

namespace SameChains

theorem spelled (h : SameChains store store') (v : KindVar) :
    store'.spelled v = store.spelled v := by
  obtain ⟨rank, hrank⟩ := h.acyclic.1
  induction hn : rank v using Nat.strong_induction_on generalizing v with
  | h n ih =>
    subst hn
    have hends := h.ends (.mvar v)
    rw [h.acyclic.2.spelled_root, h.acyclic.1.spelled_root, hends]
    by_cases hroot : ∃ w, store.follow store.vars.size (.mvar v) = .mvar w
    · obtain ⟨w, hw⟩ := hroot
      have hended := ended_follow h.acyclic.1.leads (.mvar v) (Nat.le_refl _) w hw
      have hended' := ended_follow h.acyclic.2.leads (.mvar v) (Nat.le_refl _) w (hends.trans hw)
      rw [hw, Kind.assign_mvar, Kind.assign_mvar, spelled_of_not_linked hended,
        spelled_of_not_linked hended']
    · have hroot : ∀ w, store.follow store.vars.size (.mvar v) ≠ .mvar w :=
        fun w hw => hroot ⟨w, hw⟩
      exact Kind.assign_congr fun w hw => ih _ (rank_root_lt hrank hroot hw) w rfl

/-- Stores with the same chains spell every kind alike. -/
theorem expand (h : SameChains store store') (k : Kind) : store'.expand k = store.expand k := by
  rw [expand_eq_assign, expand_eq_assign]
  exact Kind.assign_congr fun v _ => h.spelled v

end SameChains

/-! ## Parts that hide a variable -/

/-- Every part of the kind in which no variable is written is closed when it is spelled out, and so
in the solutions that the kind leads to. -/
inductive Shows (store : KindStore) : Kind → Prop
  | plain {k : Kind} (ended : store.Ended k) (unwritten : k.hasBVar = false)
      (closed : (store.expand k).Closed) : Shows store k
  | solution {v : KindVar} (root : Shows store (store.follow store.vars.size (.mvar v))) :
      Shows store (.mvar v)
  | node {k : Kind} (written : k.hasBVar = true) (parts : ∀ p ∈ k.parts, Shows store p) :
      Shows store k

namespace Shows

theorem part (h : store.Shows k) (written : k.hasBVar = true) : ∀ p ∈ k.parts, store.Shows p := by
  cases h with
  | plain _ unwritten _ => simp [unwritten] at written
  | solution _ => simp [Kind.hasBVar] at written
  | node _ parts => exact parts

/-- A part that is skipped is closed. -/
theorem closed (h : store.Shows k) (hmvar : ∀ v, k ≠ .mvar v) (unwritten : k.hasBVar = false) :
    (store.expand k).Closed := by
  cases h with
  | plain _ _ closed => exact closed
  | solution _ => exact absurd rfl (hmvar _)
  | node written _ => simp [unwritten] at written

theorem root (h : store.Shows (.mvar v))
    (hne : ∀ w, store.follow store.vars.size (.mvar v) ≠ .mvar w) :
    store.Shows (store.follow store.vars.size (.mvar v)) := by
  cases h with
  | plain ended _ _ => exact absurd (follow_eq_self ended _) (hne v)
  | solution root => exact root
  | node written _ => simp [Kind.hasBVar] at written

/-- A kind that is spelled out hides nothing. -/
theorem of_spelled (h : ∀ v ∈ k.mvars, ¬ store.Linked v) : store.Shows k := by
  induction k using Kind.inductionOnParts with
  | step k ih =>
    cases hwritten : k.hasBVar with
    | true =>
      exact .node hwritten fun p hp => ih p hp fun v hv => h v (Kind.mem_mvars_of_part hp hv)
    | false =>
      have hexpand : store.expand k = k := by
        rw [expand_eq_assign]
        exact (Kind.assign_congr fun v hv => spelled_of_not_linked (h v hv)).trans
          (Kind.assign_self k)
      refine .plain (fun v hv => h v (by simp [hv, Kind.mvars])) hwritten ?_
      rw [hexpand]
      exact Kind.vars_of_hasBVar hwritten 0

end Shows

/-! ### Closed links -/

/-- Where no link has a free variable, no solution has one. -/
theorem Acyclic.spelled_closed (acyclic : store.Acyclic) (hclosed : store.Closed) (v : KindVar) :
    (store.spelled v).Closed := by
  induction v using acyclic.induction with
  | step v ih =>
    by_cases hv : store.Linked v
    · obtain ⟨target, hv⟩ := hv
      rw [acyclic.spelled_link hv, Kind.assign_congr (θ := fun w =>
        if w ∈ target.mvars then store.spelled w else .type) fun w hw => by simp [hw]]
      refine Kind.Vars.assign (hclosed hv) fun w => ?_
      split
      next hw => exact ih w ⟨target, hv, hw⟩
      next => exact .intro (by simp) (by simp [Kind.parts])
    · rw [spelled_of_not_linked hv]
      exact .intro (by simp) (by simp [Kind.parts])

/-- Where no link has a free variable, no kind hides one. -/
theorem Acyclic.shows (acyclic : store.Acyclic) (hclosed : store.Closed) (k : Kind) :
    store.Shows k := by
  obtain ⟨rank, hrank, -, hle⟩ := acyclic.exists_bounded_rank
  have hplain : ∀ {k}, store.Ended k → k.hasBVar = false → store.Shows k := by
    intro k hended hwritten
    refine .plain hended hwritten ?_
    rw [expand_eq_assign]
    exact Kind.Vars.assign (Kind.vars_of_hasBVar hwritten 0) (acyclic.spelled_closed hclosed)
  suffices h : ∀ n k, (∀ v ∈ k.mvars, rank v < n) → store.Shows k from
    h (store.vars.size + 1) k fun v _ => Nat.lt_succ_of_le (hle v)
  intro n
  induction n using Nat.strong_induction_on with
  | h n ihn =>
    intro k hk
    induction k using Kind.inductionOnParts with
    | step k ih =>
      cases hwritten : k.hasBVar with
      | true =>
        exact .node hwritten fun p hp => ih p hp fun v hv => hk v (Kind.mem_mvars_of_part hp hv)
      | false =>
        by_cases hended : store.Ended k
        · exact hplain hended hwritten
        obtain ⟨v, target, rfl, hv⟩ := exists_link_of_not_ended hended
        refine .solution ?_
        have hroot := ended_follow acyclic.leads (.mvar v) (Nat.le_refl _)
        by_cases hmvar : ∃ w, store.follow store.vars.size (.mvar v) = .mvar w
        · obtain ⟨w, hw⟩ := hmvar
          exact hplain hroot (by rw [hw]; rfl)
        · refine ihn (rank v) (hk v (by simp [Kind.mvars])) _ fun w hw => ?_
          exact rank_root_lt hrank (fun u hu => hmvar ⟨u, hu⟩) hw

/-! ## Passes through links -/

/-- Reads of `base` lead from it to this store. -/
private structure Trails (base : KindStore) (rank : KindVar → Nat) (store : KindStore) : Prop where
  ranks : Ranks store.Mentions rank
  positive : ∀ v, store.Linked v → 0 < rank v
  chains : SameChains base store

private def following (base : KindStore) (rank : KindVar → Nat) : Discipline KindStore where
  Ok := Trails base rank
  Grows _ _ := True
  refl _ _ := trivial
  trans _ _ _ _ _ := trivial

private theorem Trails.run {base : KindStore} {rank : KindVar → Nat} {α : Type} {x : KindM α}
    (ok : Trails base rank store) (hx : OnlyFollows x) :
    Trails base rank (x.run store).2 ∧ (x.run store).1 = (x.run base).1 := by
  have condenses := Condenses.of_run (hx resolve_condensing) store
  obtain ⟨hsame, -⟩ := hx.again ok.chains
  obtain ⟨-, chains⟩ := hx.again (SameChains.refl ok.chains.acyclic.2)
  exact ⟨⟨condenses.ranks ok.ranks, fun v hv => ok.positive v ((condenses.linked v).mp hv),
    ok.chains.trans chains⟩, hsame⟩

/-- The pass skips closed kinds only, among the kinds in question. -/
structure Spares (store : KindStore) (keep : Kind → Bool) (among : Kind → Prop) : Prop where
  part : ∀ {k}, among k → ¬ keep k = true → ∀ p ∈ k.parts, among p
  root : ∀ {v}, among (.mvar v) → (∀ w, store.follow store.vars.size (.mvar v) ≠ .mvar w) →
    among (store.follow store.vars.size (.mvar v))
  kept : ∀ {k}, among k → (∀ v, k ≠ .mvar v) → keep k = true → (store.expand k).Closed

/-- What the pass puts for a variable is spelled as `f` says. -/
structure Puts (store : KindStore) (f : Nat → Nat → Kind) (onBVar : Nat → Nat → KindM Kind) :
    Prop where
  follows : ∀ d i, OnlyFollows (onBVar d i)
  spelled : ∀ d i, store.expand ((onBVar d i).run store).1 = f d i
  bound : ∀ d i, i < d → f d i = .bvar i

section Passes

variable {keep : Kind → Bool} {among : Kind → Prop} {f : Nat → Nat → Kind}
  {onBVar : Nat → Nat → KindM Kind} {rank : KindVar → Nat} {base : KindStore}

private theorem rebuildWithin_expand (S : Spares base keep among) (H : Puts base f onBVar)
    (n d : Nat) (hk : among k) (hrank : ∀ v ∈ k.mvars, rank v ≤ n)
    (ok : Trails base rank store) :
    Yields (following base rank) store (rebuildWithin keep onBVar (n + 1) d k) fun k' _ =>
      base.expand k' = (base.expand k).mapVars f d := by
  induction n using Nat.strong_induction_on generalizing store k d with
  | h n ih =>
    suffices hpass : Kind.Pass (following base rank)
        (fun _ k => among k ∧ ∀ v ∈ k.mvars, rank v ≤ n)
        (fun _ d k k' => base.expand k' = (base.expand k).mapVars f d) _ _ _ from
      hpass.rebuildM_yields k ok ⟨hk, hrank⟩
    exact
    { pre_grows := fun _ _ h => h
      post_grows := fun _ _ h => h
      pre_part := fun h hkeep hp =>
        ⟨S.part h.1 hkeep _ hp, fun v hv => h.2 v (Kind.mem_mvars_of_part hp hv)⟩
      bvar_yields := by
        intro store d i ok _
        obtain ⟨ok', hsame⟩ := Trails.run ok (H.follows d i)
        have hspelled : base.expand ((onBVar d i).run store).1 = f d i := hsame ▸ H.spelled d i
        have hbvar : base.expand (.bvar i) = .bvar i := expand_bvar i
        exact Yields.of_exec rfl ok' trivial (hbvar ▸ hspelled)
      mvar_yields := by
        intro store d v ok hv
        obtain ⟨hv, hle⟩ := hv
        have hle : rank v ≤ n := hle v (by simp [Kind.mvars])
        obtain ⟨ok', hsame⟩ := Trails.run ok fun hresolve => hresolve (.mvar v)
        have hroot : ((resolve (.mvar v)).run store).1 = base.follow base.vars.size (.mvar v) :=
          hsame.trans (resolveWithin_run base.vars.size (.mvar v) base).1
        have hrun : exec (resolve (.mvar v)) store = some
            (some (base.follow base.vars.size (.mvar v)), ((resolve (.mvar v)).run store).2) :=
          congrArg (fun root => some (some root, ((resolve (.mvar v)).run store).2)) hroot
        refine Yields.next hrun ok ok' trivial ?_
        rw [← ok.chains.acyclic.1.expand_follow v]
        have hended := ended_follow ok.chains.acyclic.1.leads (.mvar v) (Nat.le_refl _)
        have hbelow : (∀ w, base.follow base.vars.size (.mvar v) ≠ .mvar w) →
            ∀ w ∈ (base.follow base.vars.size (.mvar v)).mvars, rank w < rank v := by
          rw [← ok.chains.ends]
          exact fun hne w hw => rank_root_lt ok.ranks hne hw
        split
        next root hend =>
          refine Yields.pure (m := KindM) ok' ?_
          rw [hend] at hended ⊢
          rw [expand_of_not_linked (ended_mvar.mp hended)]
          rfl
        next root hne =>
          -- a variable with a solution is linked, so that there is fuel left for the solution
          have hpositive : 0 < rank v := ok.positive v <| by
            by_contra hv
            refine hne v ?_
            rw [← ok.chains.ends, follow_eq_self (ended_mvar.mpr hv)]
          obtain ⟨n, rfl⟩ := Nat.exists_eq_add_one_of_ne_zero
            (Nat.ne_zero_of_lt (Nat.lt_of_lt_of_le hpositive hle))
          exact ih n (Nat.lt_succ_self n) d (S.root hv hne) (fun w hw =>
            Nat.le_of_lt_succ (Nat.lt_of_lt_of_le (hbelow hne w hw) hle)) ok'
      kept := fun h hmvar hkeep =>
        (Kind.mapVars_of_closed (S.kept h.1 hmvar hkeep) _ H.bound).symm
      leaf := by
        intro store d k _ hbvar hmvar hparts
        rw [expand_leaf hmvar hparts]
        refine (Kind.mapVars_of_closed (.intro (fun i hi => absurd hi (hbvar i)) ?_) d
          H.bound).symm
        simp [hparts]
      arrow := fun ha hb => by simp [Kind.mapVars, ha, hb]
      record := fun ha => by simp [Kind.mapVars, ha]
      tuple := by
        intro store d ks ks' hks
        simp only [expand_tuple, Kind.mapVars, Kind.mapVarsList_eq, List.map_map,
          Kind.tuple.injEq]
        exact map_eq_map_of_forall₂ hks
      poly := fun hbody => by simp [Kind.mapVars, hbody] }

/-- What comes out of a pass is spelled as what goes into it, with what the pass puts for
variables. -/
theorem Acyclic.rebuild_expand (acyclic : store.Acyclic) (S : Spares store keep among)
    (H : Puts store f onBVar) (hk : among k) :
    store.expand ((rebuild keep onBVar k).run store).1 = (store.expand k).mapVars f 0 := by
  obtain ⟨rank, hrank, hpositive, hle⟩ := acyclic.exists_bounded_rank
  have h := rebuildWithin_expand S H store.vars.size 0 hk (fun v _ => hle v)
    ⟨hrank, hpositive, .refl acyclic⟩
  exact (h _ _ rfl).2.2 _ rfl

end Passes

/-- The discipline of computations that only follow links, started in `base`. -/
def rereading (base : KindStore) : Discipline KindStore where
  Ok := SameChains base
  Grows _ _ := True
  refl _ _ := trivial
  trans _ _ _ _ _ := trivial

/-- What only follows links does as it would have done in `base`. -/
theorem OnlyFollows.yields {base : KindStore} {α : Type} {x : KindM α} (hx : OnlyFollows x)
    (ok : (rereading base).Ok store) :
    Yields (rereading base) store x fun a _ => a = (x.run base).1 := by
  have ok : SameChains base store := ok
  refine Yields.of_exec rfl ?_ trivial (hx.again ok).1
  exact ok.trans (hx.again (.refl ok.acyclic.2)).2

/-! ## Zonking, shifting and substitution -/

namespace Acyclic

variable {argument : Kind}

/-- Zonking spells a kind out. -/
theorem zonk_eq (acyclic : store.Acyclic) (k : Kind) : ((zonk k).run store).1 = store.expand k := by
  have hself : ∀ k : Kind, k.mapVars (fun _ i => .bvar i) 0 = k := fun k =>
    Kind.mapVars_eq_self (d := 0) (e := 0) (Kind.Vars.of_forall fun _ _ => rfl)
  have hspares : store.Spares (fun _ => false) fun _ => True := ⟨by simp, by simp, by simp⟩
  have hexpand := acyclic.rebuild_expand (k := k) (f := fun _ i => .bvar i) hspares
    ⟨fun _ _ _ _ _ => .pure _, fun _ _ => expand_bvar _, fun _ _ _ => rfl⟩ trivial
  rw [hself] at hexpand
  obtain ⟨-, hspelled⟩ := zonk_spells acyclic k
  have hchains := (OnlyFollows.again (fun hr => zonk_throughout hr k) (.refl acyclic)).2
  rw [← hexpand, ← hchains.expand, expand_eq_assign]
  exact ((Kind.assign_congr fun v hv => spelled_of_not_linked (hspelled v hv)).trans
    (Kind.assign_self _)).symm

private theorem spares_shows : Spares store (fun k => !k.hasBVar) store.Shows where
  part h hkeep := h.part (by simpa using hkeep)
  root h := h.root
  kept h hmvar hkeep := h.closed hmvar (by simpa using hkeep)

theorem lift_expand (acyclic : store.Acyclic) (hk : store.Shows k) (amount cutoff : Nat) :
    store.expand ((lift k amount cutoff).run store).1 = (store.expand k).shift amount cutoff := by
  unfold lift
  split
  next h =>
    rw [h, Kind.shift_zero]
    rfl
  next =>
    refine acyclic.rebuild_expand spares_shows
      ⟨fun _ _ _ _ _ => .pure _, fun _ _ => expand_bvar _, fun d i hi => ?_⟩ hk
    rw [Kind.shiftVar, if_neg (by omega)]

theorem subst_expand (acyclic : store.Acyclic) (hk : store.Shows k)
    (hargument : store.Shows argument) (index : Nat) :
    store.expand ((subst k argument index).run store).1 =
      (store.expand k).substitute (store.expand argument) index := by
  refine acyclic.rebuild_expand spares_shows ⟨fun d i _ _ hr => ?_, fun d i => ?_, fun d i hi => ?_⟩
    hk
  · split
    · exact lift_throughout hr _ _ _
    · exact .pure _
  · unfold Kind.substVar
    split
    · exact acyclic.lift_expand hargument _ _
    · exact expand_bvar _
  · rw [Kind.substVar, if_neg (by omega), if_neg (by omega)]

end Acyclic

/-! ### In stores that have been read -/

section Rereading

variable {base : KindStore} {argument : Kind}

theorem zonk_rereads (ok : (rereading base).Ok store) (k : Kind) :
    Yields (rereading base) store (zonk k) fun r _ => r = base.expand k :=
  (OnlyFollows.yields (fun hr => zonk_throughout hr k) ok).mono fun _ _ _ _ h =>
    h.trans (ok.acyclic.1.zonk_eq k)

theorem lift_rereads (ok : (rereading base).Ok store) (hk : base.Shows k) (amount cutoff : Nat) :
    Yields (rereading base) store (lift k amount cutoff) fun r _ =>
      base.expand r = (base.expand k).shift amount cutoff :=
  (OnlyFollows.yields (fun hr => lift_throughout hr k amount cutoff) ok).mono fun _ _ _ _ h =>
    h ▸ ok.acyclic.1.lift_expand hk amount cutoff

theorem subst_rereads (ok : (rereading base).Ok store) (hk : base.Shows k)
    (hargument : base.Shows argument) (index : Nat) :
    Yields (rereading base) store (subst k argument index) fun r _ =>
      base.expand r = (base.expand k).substitute (base.expand argument) index :=
  (OnlyFollows.yields (fun hr => subst_throughout hr k argument index) ok).mono fun _ _ _ _ h =>
    h ▸ ok.acyclic.1.subst_expand hk hargument index

theorem Acyclic.shows_expand (acyclic : base.Acyclic) (k : Kind) : base.Shows (base.expand k) :=
  .of_spelled fun _ hv => acyclic.not_linked_of_mem_expand hv

/-- The answer of a computation that only follows links. -/
private theorem rereading_answer {x : KindM Kind} {r : Kind}
    (h : Yields (rereading base) base x fun k' _ => k' = r) : (x.run base).1 = r :=
  (h _ _ rfl).2.2 _ rfl

namespace Acyclic

theorem zonk_subst (acyclic : base.Acyclic) (hk : base.Shows k) (hargument : base.Shows argument)
    (index : Nat) : ((do zonk (← subst k argument index)).run base).1 =
      (base.expand k).substitute (base.expand argument) index := by
  refine rereading_answer (Yields.bind (.refl acyclic)
    (subst_rereads (.refl acyclic) hk hargument index) fun k' s ok _ hk' => ?_)
  exact hk' ▸ zonk_rereads ok k'

/-- A kind that is spelled out hides nothing, so that substitution is always sound there. -/
theorem zonk_subst_zonk (acyclic : base.Acyclic) (k argument : Kind) (index : Nat) :
    ((do zonk (← subst (← zonk k) (← zonk argument) index)).run base).1 =
      (base.expand k).substitute (base.expand argument) index := by
  refine rereading_answer (Yields.bind (.refl acyclic) (zonk_rereads (.refl acyclic) k)
    fun k' s ok _ hk' => ?_)
  refine Yields.bind ok (zonk_rereads ok argument) fun argument' s ok _ hargument' => ?_
  subst hk' hargument'
  refine Yields.bind ok (subst_rereads ok (acyclic.shows_expand k) (acyclic.shows_expand argument)
    index) fun r s ok _ hr => ?_
  rw [acyclic.expand_expand, acyclic.expand_expand] at hr
  exact hr ▸ zonk_rereads ok r

theorem zonk_lift (acyclic : base.Acyclic) (hk : base.Shows k) (amount cutoff : Nat) :
    ((do zonk (← lift k amount cutoff)).run base).1 = (base.expand k).shift amount cutoff := by
  refine rereading_answer (Yields.bind (.refl acyclic)
    (lift_rereads (.refl acyclic) hk amount cutoff) fun k' s ok _ hk' => ?_)
  exact hk' ▸ zonk_rereads ok k'

theorem zonk_lift_zonk (acyclic : base.Acyclic) (k : Kind) (amount cutoff : Nat) :
    ((do zonk (← lift (← zonk k) amount cutoff)).run base).1 =
      (base.expand k).shift amount cutoff := by
  refine rereading_answer (Yields.bind (.refl acyclic) (zonk_rereads (.refl acyclic) k)
    fun k' s ok _ hk' => ?_)
  subst hk'
  refine Yields.bind ok (lift_rereads ok (acyclic.shows_expand k) amount cutoff)
    fun r s ok _ hr => ?_
  rw [acyclic.expand_expand] at hr
  exact hr ▸ zonk_rereads ok r

end Acyclic

end Rereading

end KindStore

end RowML
