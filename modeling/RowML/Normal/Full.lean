import RowML.Normal.Head

/-!
# Full normal forms

A constructor is normal if it and all its parts are in head normal form.
-/

namespace RowML

/-- Brings a constructor and all its parts into head normal form, again and again until nothing
changes.  Solved kind metavariables are replaced on the way. -/
def normalize (globals : Globals) : Nat → Con → FuelM Con
  | 0, _ => outOfFuel
  | fuel + 1, c => do
    let head ← headNormal globals fuel c
    let rebuilt ← head.mapChildrenM (normalize globals fuel)
      (fun k => do onKinds (KindStore.zonk k))
    if rebuilt = head then pure head else normalize globals fuel rebuilt

end RowML
