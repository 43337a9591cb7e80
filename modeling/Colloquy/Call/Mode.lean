import Colloquy.Ty.Basic

/-!
# How a method is called

The annotations of a function decide how a call travels. Not to wait for a reply weighs more than
being a query, and a composite query is more than a query.
-/

namespace Colloquy

/-- How a call is delivered. -/
inductive CallMode where
  /-- The call may change state. -/
  | update
  /-- The call only reads. -/
  | query
  /-- The call has no reply. -/
  | oneway
  /-- The call only reads and may call other queries. -/
  | compositeQuery
  deriving DecidableEq

namespace CallMode

def ofModes (modes : List Mode) : CallMode :=
  if modes.contains .oneway then .oneway
  else if modes.contains .compositeQuery then .compositeQuery
  else if modes.contains .query then .query
  else .update

def isOneway : CallMode → Bool
  | .oneway => true
  | .update | .query | .compositeQuery => false

end CallMode

end Colloquy
