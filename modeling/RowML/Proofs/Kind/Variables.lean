import RowML.Kind.Store
import Mathlib.Data.List.Basic

/-!
# Variables of kinds

Shifting and substitution in kinds as plain functions.  A metavariable is taken to be closed, so
these functions leave it alone; the operations of the store, which look through solved
metavariables, agree with them as long as no solution has a free variable.
-/

namespace RowML

namespace Kind

/-- The kinds directly below the outermost node. -/
def parts : Kind → List Kind
  | .arrow a b => [a, b]
  | .record a => [a]
  | .tuple ks => ks
  | .poly _ body => [body]
  | _ => []

/-- The number of binders that the outermost node puts around its parts. -/
def binders : Kind → Nat
  | .poly _ _ => 1
  | _ => 0

mutual
/-- Induction from the parts of a kind to the kind. -/
theorem inductionOnParts {P : Kind → Prop} (step : ∀ k, (∀ p ∈ k.parts, P p) → P k) :
    (k : Kind) → P k
  | .type => step _ (by simp [parts])
  | .unit => step _ (by simp [parts])
  | .name => step _ (by simp [parts])
  | .error => step _ (by simp [parts])
  | .bvar _ => step _ (by simp [parts])
  | .mvar _ => step _ (by simp [parts])
  | .arrow a b => step _ (by simp [parts, inductionOnParts step a, inductionOnParts step b])
  | .record a => step _ (by simp [parts, inductionOnParts step a])
  | .tuple ks => step _ (by simpa [parts] using inductionOnKinds step ks)
  | .poly _ body => step _ (by simp [parts, inductionOnParts step body])
private theorem inductionOnKinds {P : Kind → Prop} (step : ∀ k, (∀ p ∈ k.parts, P p) → P k) :
    (ks : List Kind) → ∀ k ∈ ks, P k
  | [] => by simp
  | k :: ks => by simpa using ⟨inductionOnParts step k, inductionOnKinds step ks⟩
end

/-- Every node of a kind has the property `Q`. -/
inductive All (Q : Kind → Prop) : Kind → Prop where
  | intro {k : Kind} (top : Q k) (rest : ∀ p ∈ k.parts, All Q p) : All Q k

namespace All

variable {Q Q' : Kind → Prop} {k : Kind}

theorem iff : All Q k ↔ Q k ∧ ∀ p ∈ k.parts, All Q p :=
  ⟨fun ⟨top, rest⟩ => ⟨top, rest⟩, fun h => .intro h.1 h.2⟩

theorem mono (h : All Q k) (himp : ∀ k, Q k → Q' k) : All Q' k := by
  induction h with
  | intro top _ ih => exact .intro (himp _ top) ih

end All

/-- Every bound variable of a kind has the property `P` of the number of binders around it, counted
from a depth, and its index. -/
inductive Vars (P : Nat → Nat → Prop) : Nat → Kind → Prop where
  | intro {depth : Nat} {k : Kind} (top : ∀ i, k = .bvar i → P depth i)
      (rest : ∀ p ∈ k.parts, Vars P (depth + k.binders) p) : Vars P depth k

namespace Vars

variable {P P' : Nat → Nat → Prop} {depth : Nat} {k : Kind}

theorem iff : Vars P depth k ↔
    (∀ i, k = .bvar i → P depth i) ∧ ∀ p ∈ k.parts, Vars P (depth + k.binders) p :=
  ⟨fun ⟨top, rest⟩ => ⟨top, rest⟩, fun h => .intro h.1 h.2⟩

theorem mono (h : Vars P depth k) (himp : ∀ d i, P d i → P' d i) : Vars P' depth k := by
  induction h with
  | intro top _ ih => exact .intro (fun i hi => himp _ i (top i hi)) ih

theorem of_forall (h : ∀ d i, P d i) : Vars P depth k := by
  induction k using inductionOnParts generalizing depth with
  | step k ih => exact .intro (fun i _ => h depth i) fun p hp => ih p hp

end Vars

/-- No variable of a kind is free. -/
def Closed (k : Kind) : Prop := Vars (fun depth i => i < depth) 0 k

theorem hasBVar_of_part {k p : Kind} (h : k.hasBVar = false) (hp : p ∈ k.parts) :
    p.hasBVar = false := by
  cases k with
  | tuple ks =>
    have hmem : p ∈ ks := hp
    clear hp
    induction ks with
    | nil => cases hmem
    | cons k ks ih =>
      simp only [hasBVar, hasBVarList, Bool.or_eq_false_iff] at h ih
      rcases List.mem_cons.mp hmem with rfl | hmem
      · exact h.1
      · exact ih h.2 hmem
  | arrow a b =>
    simp only [hasBVar, Bool.or_eq_false_iff] at h
    rcases List.mem_pair.mp hp with rfl | rfl
    · exact h.1
    · exact h.2
  | record a =>
    obtain rfl := List.mem_singleton.mp hp
    exact h
  | poly x body =>
    obtain rfl := List.mem_singleton.mp hp
    exact h
  | type | unit | name | error | bvar | mvar => cases hp

/-- A kind in which no variable is written has every property of its variables. -/
theorem vars_of_hasBVar {k : Kind} {P : Nat → Nat → Prop} (h : k.hasBVar = false) (d : Nat) :
    Vars P d k := by
  induction k using inductionOnParts generalizing d with
  | step k ih =>
    refine .intro (fun i hi => ?_) fun p hp => ih p hp (hasBVar_of_part h hp) _
    rw [hi] at h
    cases h

/-- A closed kind is closed under any binders. -/
theorem Closed.vars {k : Kind} (h : k.Closed) (d : Nat) : Vars (fun depth i => i < depth) d k := by
  suffices hshift : ∀ e, Vars (fun depth i => i < depth) e k →
      Vars (fun depth i => i < depth) (d + e) k from hshift 0 h
  intro e he
  clear h
  induction k using inductionOnParts generalizing e with
  | step k ih =>
    obtain ⟨htop, hparts⟩ := Vars.iff.mp he
    refine .intro (fun i hi => Nat.lt_of_lt_of_le (htop i hi) (Nat.le_add_left _ _)) ?_
    intro p hp
    rw [Nat.add_assoc]
    exact ih p hp _ (hparts p hp)

/-! ## Replacing bound variables -/

mutual
/-- Replaces the bound variables of a kind; `f` is given the number of binders around a variable,
counted from `depth`. -/
def mapVars (f : Nat → Nat → Kind) (depth : Nat) : Kind → Kind
  | .bvar i => f depth i
  | .arrow a b => .arrow (mapVars f depth a) (mapVars f depth b)
  | .record a => .record (mapVars f depth a)
  | .tuple ks => .tuple (mapVarsList f depth ks)
  | .poly x body => .poly x (mapVars f (depth + 1) body)
  | .type => .type
  | .unit => .unit
  | .name => .name
  | .error => .error
  | .mvar v => .mvar v
def mapVarsList (f : Nat → Nat → Kind) (depth : Nat) : List Kind → List Kind
  | [] => []
  | k :: ks => mapVars f depth k :: mapVarsList f depth ks
end

@[simp] theorem mapVarsList_eq (f : Nat → Nat → Kind) (depth : Nat) (ks : List Kind) :
    mapVarsList f depth ks = ks.map (mapVars f depth) := by
  induction ks with
  | nil => rfl
  | cons k ks ih => simp [mapVarsList, ih]

/-- Shifts the variables at or above `cutoff` up by `amount`. -/
def shiftVar (amount cutoff depth i : Nat) : Kind :=
  .bvar (if cutoff + depth ≤ i then i + amount else i)

def shift (k : Kind) (amount cutoff : Nat) : Kind := k.mapVars (shiftVar amount cutoff) 0

/-- What becomes of a variable when `argument` is put for variable `index`. -/
def substVar (argument : Kind) (index depth i : Nat) : Kind :=
  if i = index + depth then argument.shift (index + depth) 0
  else .bvar (if index + depth < i then i - 1 else i)

def substitute (k argument : Kind) (index : Nat) : Kind := k.mapVars (substVar argument index) 0

/-- Passes whose variables fall together are one pass. -/
theorem mapVars_mapVars {f g h : Nat → Nat → Kind} {d d' d'' : Nat} (k : Kind)
    (hfg : ∀ e i, mapVars f (d + e) (g (d' + e) i) = h (d'' + e) i) :
    mapVars f d (mapVars g d' k) = mapVars h d'' k := by
  induction k using inductionOnParts generalizing d d' d'' with
  | step k ih =>
    cases k with
    | bvar i => simpa [mapVars] using hfg 0 i
    | arrow a b => simp [mapVars, ih a (by simp [parts]) hfg, ih b (by simp [parts]) hfg]
    | record a => simp [mapVars, ih a (by simp [parts]) hfg]
    | tuple ks =>
      simp only [mapVars, mapVarsList_eq, List.map_map, Kind.tuple.injEq]
      exact List.map_congr_left fun k hk => ih k hk hfg
    | poly x body =>
      have hbody : mapVars f (d + 1) (mapVars g (d' + 1) body) = mapVars h (d'' + 1) body :=
        ih body (by simp [parts]) fun e i => by
          simpa [Nat.add_assoc, Nat.add_comm 1] using hfg (1 + e) i
      simp [mapVars, hbody]
    | type | unit | name | error | mvar => rfl

/-- A pass that keeps the variables of a kind keeps the kind. -/
theorem mapVars_eq_self {f : Nat → Nat → Kind} {d e : Nat} {k : Kind}
    (h : Vars (fun e i => f (d + e) i = .bvar i) e k) : mapVars f (d + e) k = k := by
  induction k using inductionOnParts generalizing e with
  | step k ih =>
    obtain ⟨htop, hparts⟩ := Vars.iff.mp h
    cases k with
    | bvar i => exact htop i rfl
    | arrow a b =>
      have ha := ih a (by simp [parts]) (hparts a (by simp [parts]))
      have hb := ih b (by simp [parts]) (hparts b (by simp [parts]))
      simp only [binders, Nat.add_zero] at ha hb
      simp [mapVars, ha, hb]
    | record a =>
      have ha := ih a (by simp [parts]) (hparts a (by simp [parts]))
      simpa [mapVars, binders] using ha
    | tuple ks =>
      have hks : ∀ k ∈ ks, mapVars f (d + e) k = id k := fun k hk => ih k hk (hparts k hk)
      simp only [mapVars, mapVarsList_eq, Kind.tuple.injEq]
      rw [List.map_congr_left hks, List.map_id]
    | poly x body =>
      have hbody := ih body (by simp [parts]) (hparts body (by simp [parts]))
      simpa [mapVars, binders, Nat.add_assoc] using hbody
    | type | unit | name | error | mvar => rfl

theorem mapVars_of_closed {f : Nat → Nat → Kind} {k : Kind} (hk : k.Closed) (d : Nat)
    (hf : ∀ e i, i < e → f e i = .bvar i) : mapVars f d k = k :=
  mapVars_eq_self (e := 0) (hk.mono fun e i hi => hf (d + e) i (by omega))

/-- A pass leaves a kind alone in which no variable is written. -/
theorem mapVars_of_hasBVar {f : Nat → Nat → Kind} {k : Kind} (h : k.hasBVar = false) (d : Nat) :
    k.mapVars f d = k :=
  mapVars_eq_self (d := d) (e := 0) (vars_of_hasBVar h 0)

@[simp] theorem shift_zero (k : Kind) (cutoff : Nat) : k.shift 0 cutoff = k :=
  mapVars_eq_self (d := 0) (e := 0) (Vars.of_forall fun _ _ => by simp [shiftVar])

theorem shift_shift (k : Kind) (m n cutoff e : Nat) (h : e ≤ m) :
    (k.shift m cutoff).shift n (e + cutoff) = k.shift (m + n) cutoff := by
  refine mapVars_mapVars k fun d i => ?_
  simp only [shiftVar, mapVars, Nat.zero_add, Kind.bvar.injEq]
  split_ifs <;> omega

end Kind

end RowML
