import Colloquy.Binding.Declare
import Colloquy.Program.Basic

/-!
# The client of the main service

A client has one function for every method of the main service. Its functions must not collide with
its constructors or with the accessors of its two fields.
-/

namespace Colloquy

namespace Binding

def methodWish (agentName method : String) : String :=
  let name := snakeCase method
  if name == agentName then "call_" ++ name else name

/-- The functions for methods; `scope` holds the names so far. -/
def clientMethods (plan : Plan) (agentName : String) (scope : Scope) :
    List (String × Signature) → StateM Draft (List ClientMethod)
  | [] => return []
  | (method, signature) :: rest => do
    let (name, scope) := scope.allocate (methodWish agentName method)
    let hint := pascalCase method
    let args ← typeUses plan none (hint ++ "Arg") 0 signature.args
    let results ← typeUses plan none (hint ++ "Ret") 0 signature.results
    let first : ClientMethod :=
      ⟨method, escapeWord name, CallMode.ofModes signature.modes, args, results⟩
    return first :: (← clientMethods plan agentName scope rest)

/-- What the functions of a client use of the runtime library. -/
def Import.ofMethods (methods : List ClientMethod) : List Import :=
  [.agent, .callError, .callMode, .principal] ++
    (if methods.isEmpty then [] else [.argBuilder]) ++
    (if methods.all fun m => m.mode.isOneway then [] else [.replyDecoder])

/-- The names of a client's functions that call no method. -/
def fixedFunctions (agentName : String) : List String :=
  ["new", "with_destination", "destination", agentName]

def declareClient (plan : Plan) (config : Config) (p : Program) (s : Service) :
    StateM Draft (Except Refusal Client) := do
  if config.agentName = "destination" then return .error .agentNamedDestination
  else
    let scope := Scope.reserving (fixedFunctions config.agentName)
    let methods ← clientMethods plan config.agentName scope p.methods
    use (Import.ofMethods methods)
    return .ok
      { name := config.bindingName
        serviceName := s.name.getD config.bindingName
        agent := escapeWord config.agentName
        destination := config.destination
        methods }

def declareProgramClient (plan : Plan) (config : Config) (p : Program) :
    StateM Draft (Except Refusal (Option Client)) := do
  match p.service with
  | none => return .ok none
  | some s => return (← declareClient plan config p s).map some

end Binding

end Colloquy
