import RowML.Elaboration.Solving

/-!
# Closing constructors and kinds

At the end of a declaration nothing unknown may be left.  Kind metavariables get their defaults,
unless the settings say otherwise; a constructor metavariable is a failure.
-/

namespace RowML

/-- Zonks the kind annotations of a constructor and puts defaults for what is left unknown in
them. -/
def Con.defaultKinds (fuel : Nat) (c : Con) : Fuelled KindStore Con :=
  c.rebuildM (fun _ node => pure (if node.has .kindMVar then none else some node))
    (fun _ kind => do KindStore.defaultUnsolved fuel (← KindStore.zonk kind)) Depth.zero

namespace Elaborate

/-- The final form of a kind. -/
def closeKind (fuel : Nat) (kind : Kind) : ElaborateM Kind := do
  let kind ← onKindM (KindStore.zonk kind)
  if (← read).defaultKinds then onStore (onKindsFuelled (KindStore.defaultUnsolved fuel kind))
  else pure kind

def closeKindsIn (fuel : Nat) (c : Con) : ElaborateM Con := do
  if (← read).defaultKinds && c.has .kindMVar then onStore (onKindsFuelled (c.defaultKinds fuel))
  else pure c

/-- Fails if a metavariable is left in a constructor. -/
def requireKnown (fuel : Nat) (span : Span) (c : Con) : ElaborateM Unit := do
  match ← onStore (Store.unsolvedMVars fuel c) with
  | [] => pure ()
  | var :: _ => fail span (.ambiguousType var)

/-- Decides all obligations and gives the final form of a constructor. -/
def closeCon (fuel : Nat) (span : Span) (c : Con) : ElaborateM Con := do
  forceAll fuel
  let c ← closeKindsIn fuel (← zonk fuel c)
  requireKnown fuel span c
  pure c

end Elaborate

end RowML
