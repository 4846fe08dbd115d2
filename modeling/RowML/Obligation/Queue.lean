import RowML.Obligation.Basic
import RowML.Row.Summary

/-!
# The queue of obligations

An obligation waits together with the metavariables that block it.  Solving one of these makes it
ready; ready obligations are taken in the order in which they became ready.  An obligation without
blockers never becomes ready and stays until the queue is drained.  What was pushed keeps its place,
which is its id, when others are taken; the lists of ids speak of what is left only.

The queue also numbers the dictionary slots: places in an elaborated term for dictionaries that are
found later.
-/

namespace RowML

structure Waiting where
  /-- The number of obligations that were pushed before this one. -/
  id : Nat
  obligation : Obligation
  blockers : List MetaId
deriving Inhabited

structure Slot where
  goal : Con
  dict : Option Dict
deriving Inhabited

/-- The ids of what waits for a metavariable, for each one that something waits for. -/
abbrev Waiters := List (MetaId × List Nat)

namespace Waiters

/-- The ids of the obligations that wait for `var`, the oldest first. -/
def of (waiters : Waiters) (var : MetaId) : List Nat := (waiters.lookup var).getD []

def erase (waiters : Waiters) (var : MetaId) : Waiters := waiters.filter (·.1 != var)

/-- A metavariable that nothing waits for is left out. -/
def set (waiters : Waiters) (var : MetaId) (ids : List Nat) : Waiters :=
  if ids.isEmpty then waiters.erase var else (var, ids) :: waiters.erase var

def add (id : Nat) (waiters : Waiters) (var : MetaId) : Waiters :=
  waiters.set var (waiters.of var ++ [id])

def drop (id : Nat) (waiters : Waiters) (var : MetaId) : Waiters :=
  waiters.set var ((waiters.of var).filter (· != id))

end Waiters

structure Queue where
  /-- Everything that was ever pushed, by its id; nothing stands where it has been taken. -/
  entries : Array (Option Waiting)
  waiters : Waiters
  /-- The ids of the obligations that are ready, in the order in which they became so. -/
  ready : List Nat
  /-- The number of obligations that have not been taken. -/
  pending : Nat
  slots : Array Slot
deriving Inhabited

namespace Queue

def empty : Queue := ⟨#[], [], [], 0, #[]⟩

/-- The number of obligations that were ever pushed. -/
def pushed (queue : Queue) : Nat := queue.entries.size

/-- What has that id, unless it has been taken. -/
def left? (queue : Queue) (id : Nat) : Option Waiting := queue.entries[id]?.join

/-- The obligations that have not been taken, the oldest first. -/
def waiting (queue : Queue) : List Waiting := queue.entries.toList.filterMap id

def push (queue : Queue) (obligation : Obligation) (blockers : List MetaId) : Queue :=
  { queue with
    entries := queue.entries.push (some ⟨queue.pushed, obligation, blockers⟩)
    waiters := blockers.foldl (·.add queue.pushed) queue.waiters
    pending := queue.pending + 1 }

/-- Makes what waits for `var` ready. -/
def wakeOne (queue : Queue) (var : MetaId) : Queue :=
  { queue with
    waiters := queue.waiters.erase var
    ready := ((queue.waiters.of var).filter fun id => (queue.left? id).isSome).foldl insertLast
      queue.ready }

/-- Makes everything that waits for one of the solved metavariables ready. -/
def wake (queue : Queue) (solved : List MetaId) : Queue := solved.foldl wakeOne queue

/-- Takes what has that id. -/
def take (queue : Queue) (id : Nat) : Option Waiting × Queue :=
  match queue.left? id with
  | none => (none, queue)
  | some entry =>
    (some entry, { queue with
      entries := queue.entries.setIfInBounds id none
      waiters := entry.blockers.foldl (·.drop id) queue.waiters
      pending := queue.pending - 1 })

/-- Takes the first of the obligations with these ids that is left; those after it stay ready. -/
def takeFirst (queue : Queue) : List Nat → Option Waiting × Queue
  | [] => (none, { queue with ready := [] })
  | id :: ids =>
    match queue.take id with
    | (some entry, queue) => (some entry, { queue with ready := ids })
    | (none, queue) => queue.takeFirst ids

/-- Takes what is left of the obligations with these ids. -/
def takeEach (queue : Queue) : List Nat → List Waiting × Queue
  | [] => ([], queue)
  | id :: ids =>
    let (entry, queue) := queue.take id
    let (entries, queue) := queue.takeEach ids
    (entry.toList ++ entries, queue)

/-- Takes the first ready obligation. -/
def pop (queue : Queue) : Option Obligation × Queue :=
  let (entry, queue) := queue.takeFirst queue.ready
  (entry.map (·.obligation), queue)

/-- Takes every obligation, the oldest first. -/
def drain (queue : Queue) : List (Obligation × List MetaId) × Queue :=
  let (entries, queue) := queue.takeEach (List.range queue.pushed)
  (entries.map fun entry => (entry.obligation, entry.blockers),
    { queue with ready := [], waiters := [] })

/-! ## Dictionary slots -/

def newSlot (queue : Queue) (goal : Con) : SlotId × Queue :=
  (queue.slots.size, { queue with slots := queue.slots.push ⟨goal, none⟩ })

/-- Puts a dictionary into a slot; a slot that was never made stays unknown. -/
def fillSlot (queue : Queue) (slot : SlotId) (dict : Dict) : Queue :=
  { queue with slots := queue.slots.modify slot ({ · with dict := some dict }) }

def slotDict? (queue : Queue) (slot : SlotId) : Option Dict :=
  (queue.slots[slot]?).bind (·.dict)

def slotGoal? (queue : Queue) (slot : SlotId) : Option Con := (queue.slots[slot]?).map (·.goal)

end Queue

end RowML
