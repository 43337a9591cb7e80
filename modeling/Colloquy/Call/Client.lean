import Colloquy.Call.Message
import Colloquy.Call.Mode

/-!
# Calls

Nothing here sends a byte. Encoded arguments are handed to an agent, which delivers them and
answers with the bytes of the reply or with the reason why there are none. The reply to a call
without results is looked at only if there is one.
-/

namespace Colloquy

open Native

/-- What delivers calls: from the service, the method, the way to call and the arguments to the
reply, or to the reason why there is none. -/
abbrev Agent (m : Type → Type) :=
  Principal → String → CallMode → List UInt8 → m (Except String (List UInt8))

/-- Why a call has no result. -/
inductive CallError where
  /-- The agent did not deliver the call. -/
  | transport (reason : String)
  /-- The arguments or the reply are at fault. -/
  | codec (error : CodecError)

def CallError.message : CallError → String
  | .transport reason => "transport error: " ++ reason
  | .codec e => e.message

structure Method where
  name : String
  mode : CallMode
  args : List Shape
  results : List Shape

namespace Method

/-- The results of a call, read from its reply. -/
def readReply (method : Method) (ds : Declarations) (reply : List UInt8) :
    Except CodecError (List Value) := do
  if method.mode.isOneway then return []
  let r ← Reply.open .default reply
  let (vs, r) ← r.readAll ds method.results
  r.finish
  return vs

/-- Calls a method with values of its argument shapes. -/
def call {m : Type → Type} [Monad m] (method : Method) (ds : Declarations) (agent : Agent m)
    (destination : Principal) (args : List Value) : m (Except CallError (List Value)) := do
  match (Arguments.empty.addAll ds (method.args.zip args)).encode with
  | .error e => return .error (.codec e)
  | .ok bytes =>
    match ← agent destination method.name method.mode bytes with
    | .error reason => return .error (.transport reason)
    | .ok reply => return (method.readReply ds reply).mapError .codec

end Method

end Colloquy
