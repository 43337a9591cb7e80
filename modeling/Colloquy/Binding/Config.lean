import Colloquy.Binding.Name
import Colloquy.Principal.Basic
import Colloquy.Source.Error

/-!
# Options of the generator, and what it refuses
-/

namespace Colloquy

namespace Binding

/-- Options of the generator. -/
structure Config where
  /-- The name of the client. -/
  bindingName : String
  /-- The package that the heading mentions. -/
  packageName : Option String
  /-- The client's field that holds the transport. -/
  agentName : String
  /-- The service that the client calls unless told otherwise. -/
  destination : Option Principal
  /-- Whether recursion is broken by boxes; if not, it is refused. -/
  boxRecursive : Bool

namespace Config

def default : Config where
  bindingName := "Service"
  packageName := none
  agentName := "agent"
  destination := none
  boxRecursive := true

end Config

inductive ConfiguredName where
  | binding
  | agent

def ConfiguredName.text : ConfiguredName → String
  | .binding => "binding name"
  | .agent => "agent name"

/-- Why no module is generated. -/
inductive Refusal where
  /-- A name in the options is no identifier. -/
  | notIdentifier (what : ConfiguredName) (name : String)
  /-- The field for the transport is called like the one for the destination. -/
  | agentNamedDestination
  /-- An item would contain itself. -/
  | needsBox (name : String)
  /-- A method of a service written inline is no function. -/
  | methodNotFunction (method item : String)

def Refusal.text : Refusal → String
  | .notIdentifier what name => what.text ++ s!" '{name}' is not a Rust identifier"
  | .agentNamedDestination => "agent field name collides with `destination`"
  | .needsBox name => "type `" ++ name ++ "` is recursive outside `vec` and needs box_recursive"
  | .methodNotFunction method item => s!"method '{method}' of '{item}' is not a function"

inductive GenerateError where
  /-- The description of the interface is at fault. -/
  | source (error : Source.SourceError)
  /-- The table of types is at fault. -/
  | table (error : SchemaError)
  | refused (reason : Refusal)

def GenerateError.message : GenerateError → String
  | .source e => "schema error: " ++ e.message
  | .table e => "type table error: " ++ e.message
  | .refused reason => "generation error: " ++ reason.text

namespace Config

/-- Whether a name may stand in generated code as it is. -/
def isUsable (name : String) : Bool :=
  Text.isWord name && escapeWord name == name && name != "_" && name != "Transport"

def checkName (what : ConfiguredName) (name : String) : Except Refusal Unit :=
  if isUsable name then .ok () else .error (.notIdentifier what name)

def check (config : Config) : Except Refusal Unit := do
  checkName .binding config.bindingName
  checkName .agent config.agentName

end Config

end Binding

end Colloquy
