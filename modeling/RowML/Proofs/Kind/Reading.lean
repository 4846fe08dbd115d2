import RowML.Proofs.Kind.Conversion
import RowML.Proofs.Kind.Rebuild

/-!
# Reading kinds through their links

Zonking, shifting and substitution in a store of kinds agree, up to conversion, with the functions
that leave metavariables alone, provided that no link has a free variable.
-/

namespace RowML

namespace KindStore

/-- The output `k'` stands for `k`. -/
structure Reads (store : KindStore) (k k' : Kind) : Prop where
  sound : k'.Sound store.vars.size
  conv : store.Closed → KindConv store k k'

theorem Reads.grows {store store' : KindStore} {k k' : Kind} (h : store.Reads k k')
    (grows : store.Grows store') : store'.Reads k k' :=
  ⟨h.sound.mono grows.size, fun hclosed => grows.conv (h.conv (grows.closed hclosed))⟩

theorem Reads.refl {store : KindStore} {k : Kind} (hk : k.Sound store.vars.size) :
    store.Reads k k :=
  ⟨hk, fun _ => .refl k⟩

variable {f : Nat → Nat → Kind}

/-- What the hooks of a pass have to do with the function `f` on variables, in stores with at least
`size` metavariables. -/
structure Hooks (f : Nat → Nat → Kind) (size : Nat) (keep : Kind → Bool)
    (onBVar : Nat → Nat → KindM Kind) : Prop where
  bound : ∀ d i, i < d → f d i = .bvar i
  kept : ∀ d k, keep k = true → k.mapVars f d = k
  bvar_yields : ∀ {store d i}, WellFormed store → size ≤ store.vars.size →
    Yields discipline store (onBVar d i) fun k' store' => store'.Reads (f d i) k'

private theorem sound_of_parts {size : Nat} {k : Kind} (hne : k ≠ .error)
    (hvar : ∀ v, k ≠ .mvar v) (h : ∀ p ∈ k.parts, p.Sound size) : k.Sound size :=
  .intro ⟨hne, fun v hv => absurd hv (hvar v)⟩ h

private theorem Reads.tuple {store : KindStore} {d : Nat} {ks ks' : List Kind}
    (h : List.Forall₂ (fun k k' => store.Reads (k.mapVars f d) k') ks ks') :
    store.Reads ((Kind.tuple ks).mapVars f d) (.tuple ks') := by
  rw [List.forall₂_iff_get] at h
  obtain ⟨hlength, h⟩ := h
  refine ⟨sound_of_parts (by simp) (by simp) fun p hp => ?_, fun hclosed => ?_⟩
  · obtain ⟨i, hi, rfl⟩ := List.getElem_of_mem hp
    exact (h i (hlength ▸ hi) hi).sound
  · simp only [Kind.mapVars, Kind.mapVarsList_eq]
    refine .tuple (by simp [hlength]) fun i k k' hk hk' => ?_
    obtain ⟨hi', rfl⟩ := List.getElem?_eq_some_iff.mp hk'
    have hi : i < ks.length := hlength ▸ hi'
    rw [List.getElem?_map, List.getElem?_eq_getElem hi] at hk
    cases hk
    exact (h i hi hi').conv hclosed

/-- The pass with fuel for `fuel + 1` links, if the one with fuel for `fuel` links is known. -/
private theorem pass {keep : Kind → Bool} {onBVar : Nat → Nat → KindM Kind}
    {size : Nat} (H : Hooks f size keep onBVar) (fuel : Nat)
    (ih : ∀ {d k store}, WellFormed store → size ≤ store.vars.size → k.Sound store.vars.size →
      (fuel = 0 → store.Closed → k.Closed) →
      Yields discipline store (rebuildWithin keep onBVar fuel d k)
        fun k' store' => store'.Reads (k.mapVars f d) k') :
    Kind.Pass discipline (fun store k => k.Sound store.vars.size ∧ size ≤ store.vars.size)
      (fun store d k k' => store.Reads (k.mapVars f d) k') keep onBVar
      (fun d var => do
        match ← resolve (.mvar var) with
        | .mvar root => pure (.mvar root)
        | solved => rebuildWithin keep onBVar fuel d solved) where
  pre_grows _ grows hk := ⟨hk.1.mono grows.size, Nat.le_trans hk.2 grows.size⟩
  post_grows _ grows h := h.grows grows
  pre_part hk _ hp := ⟨hk.1.part hp, hk.2⟩
  bvar_yields ok hk := H.bvar_yields ok hk.2
  mvar_yields := by
    intro store d v ok hv
    refine Yields.bind ok (resolve_yields ok hv.1) fun root store' ok' grows resolved => ?_
    have hsize := Nat.le_trans hv.2 grows.size
    have hroot : (∀ r, root ≠ .mvar r) → store'.Closed → root.Closed := by
      intro hne hclosed
      rcases resolved.answer with h | ⟨v, -, hv⟩
      · exact absurd h (hne v)
      · exact hclosed hv
    have hreads : (∀ r, root ≠ .mvar r) → ∀ {k' store''}, store'.Grows store'' →
        store''.Reads (root.mapVars f d) k' → store''.Reads (.mvar v) k' := by
      intro hne k' store'' grows h
      refine ⟨h.sound, fun hclosed => (grows.conv resolved.conv).trans ?_⟩
      have := h.conv hclosed
      rwa [Kind.mapVars_of_closed (hroot hne (grows.closed hclosed)) d H.bound] at this
    cases root with
    | mvar r => exact Yields.pure ok' ⟨resolved.sound, fun _ => resolved.conv⟩
    | _ =>
      refine (ih ok' hsize resolved.sound fun _ => hroot (by simp)).mono ?_
      intro k' store'' _ grows h
      exact hreads (by simp) grows h
  kept := by
    intro store d k hk _ hkeep
    rw [H.kept d k hkeep]
    exact .refl hk.1
  leaf := by
    intro store d k hk hbvar hmvar hleaf
    refine ⟨hk.1, fun _ => ?_⟩
    cases k with
    | bvar i => exact absurd rfl (hbvar i)
    | mvar v => exact absurd rfl (hmvar v)
    | type | unit | name | error => exact .refl _
    | tuple ks =>
      cases hleaf
      exact .refl _
    | arrow | record | poly => cases hleaf
  arrow ha hb := ⟨sound_of_parts (by simp) (by simp) (by simp [Kind.parts, ha.sound, hb.sound]),
    fun hclosed => .arrow (ha.conv hclosed) (hb.conv hclosed)⟩
  record ha := ⟨sound_of_parts (by simp) (by simp) (by simp [Kind.parts, ha.sound]),
    fun hclosed => .record (ha.conv hclosed)⟩
  tuple := Reads.tuple
  poly hbody := ⟨sound_of_parts (by simp) (by simp) (by simp [Kind.parts, hbody.sound]),
    fun hclosed => .poly (hbody.conv hclosed)⟩

theorem rebuildWithin_yields {keep : Kind → Bool} {onBVar : Nat → Nat → KindM Kind}
    {size : Nat} (H : Hooks f size keep onBVar) (fuel : Nat) {d : Nat} {k : Kind}
    {store : KindStore} (ok : store.WellFormed) (hsize : size ≤ store.vars.size)
    (hk : k.Sound store.vars.size) (hclosed : fuel = 0 → store.Closed → k.Closed) :
    Yields discipline store (rebuildWithin keep onBVar fuel d k)
      fun k' store' => store'.Reads (k.mapVars f d) k' := by
  induction fuel generalizing d k store with
  | zero =>
    refine Yields.pure ok ⟨hk, fun hstore => ?_⟩
    rw [Kind.mapVars_of_closed (hclosed rfl hstore) d H.bound]
    exact .refl k
  | succ fuel ih => exact (pass H fuel ih).rebuildM_yields k ok ⟨hk, hsize⟩

theorem rebuild_yields {keep : Kind → Bool} {onBVar : Nat → Nat → KindM Kind}
    {size : Nat} (H : Hooks f size keep onBVar) {k : Kind} {store : KindStore}
    (ok : store.WellFormed) (hsize : size ≤ store.vars.size) (hk : k.Sound store.vars.size) :
    Yields discipline store (rebuild keep onBVar k)
      fun k' store' => store'.Reads (k.mapVars f 0) k' :=
  Yields.read (rfl : exec get store = some (some store, store)) ok
    (rebuildWithin_yields H _ ok hsize hk (by simp))

/-! ## Zonking, shifting and substitution -/

private theorem bvar_sound (size i : Nat) : (Kind.bvar i).Sound size :=
  sound_of_parts (by simp) (by simp) (by simp [Kind.parts])

theorem zonk_yields {k : Kind} {store : KindStore} (ok : store.WellFormed)
    (hk : k.Sound store.vars.size) :
    Yields discipline store (zonk k) fun k' store' => store'.Reads k k' := by
  have H : Hooks (fun _ i => .bvar i) 0 (fun _ => false) (fun _ i => pure (.bvar i)) :=
    ⟨fun _ _ _ => rfl, by simp, fun ok _ => Yields.pure ok ⟨bvar_sound _ _, fun _ => .refl _⟩⟩
  have hself : k.mapVars (fun _ i => .bvar i) 0 = k :=
    Kind.mapVars_eq_self (d := 0) (e := 0) (Kind.Vars.of_forall fun _ _ => rfl)
  refine (rebuild_yields H ok (Nat.zero_le _) hk).mono fun k' store' _ _ h => ?_
  rwa [hself] at h

theorem lift_yields {k : Kind} (amount cutoff : Nat) {store : KindStore} (ok : store.WellFormed)
    (hk : k.Sound store.vars.size) :
    Yields discipline store (lift k amount cutoff) fun k' store' =>
      store'.Reads (k.shift amount cutoff) k' := by
  unfold lift
  split
  next h =>
    subst h
    rw [Kind.shift_zero]
    exact Yields.pure ok (.refl hk)
  next =>
    refine rebuild_yields ⟨fun d i hi => ?_, fun d k h => ?_, fun ok _ => ?_⟩ ok
      (Nat.zero_le _) hk
    · simp only [Kind.shiftVar, Kind.bvar.injEq]
      rw [if_neg (by omega)]
    · exact Kind.mapVars_of_hasBVar (by simpa using h) d
    · exact Yields.pure ok ⟨bvar_sound _ _, fun _ => .refl _⟩

theorem subst_yields {k argument : Kind} (index : Nat) {store : KindStore} (ok : store.WellFormed)
    (hk : k.Sound store.vars.size) (hargument : argument.Sound store.vars.size) :
    Yields discipline store (subst k argument index) fun k' store' =>
      store'.Reads (k.substitute argument index) k' := by
  refine rebuild_yields ⟨fun d i hi => ?_, fun d k h => ?_, fun {store' d i} ok' hsize => ?_⟩ ok
    (Nat.le_refl _) hk
  · simp only [Kind.substVar]
    rw [if_neg (by omega), if_neg (by omega)]
  · exact Kind.mapVars_of_hasBVar (by simpa using h) d
  · by_cases h : i = index + d
    · rw [if_pos h]
      refine (lift_yields (index + d) 0 ok' (hargument.mono hsize)).mono
        fun k' store'' _ _ hreads => ⟨hreads.sound, fun hclosed => ?_⟩
      simpa [Kind.mapVars, Kind.substVar, h, Kind.shift] using hreads.conv hclosed
    · rw [if_neg h]
      refine Yields.pure ok' ⟨bvar_sound _ _, fun _ => ?_⟩
      simpa [Kind.mapVars, Kind.substVar, h] using .refl _

end KindStore

end RowML
