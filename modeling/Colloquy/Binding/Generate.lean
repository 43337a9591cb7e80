import Colloquy.Binding.Client
import Colloquy.Binding.Text

/-!
# Generating a module from an interface

The items of the table come first, then those that the client's functions made necessary, then the
client.
-/

namespace Colloquy

namespace Binding

/-- What the module for a program consists of, given the plan for its table. -/
def moduleItems (plan : Plan) (config : Config) (p : Program) :
    StateM Draft (Except Refusal Module) := do
  match ← declareTable plan with
  | .error r => return .error r
  | .ok items =>
    match ← declareProgramClient plan config p with
    | .error r => return .error r
    | .ok client =>
      match ← declarePending plan with
      | .error r => return .error r
      | .ok hoisted =>
        return .ok
          { package := config.packageName
            imports := Import.sorted (← get).imports
            items := items ++ hoisted
            client }

/-- The module for a program. -/
def generate (config : Config) (p : Program) : Except GenerateError Module := do
  config.check.mapError .refused
  let (plan, draft) ← (Plan.ofTable p.table config).mapError .table
  ((moduleItems plan config p).run draft).1.mapError .refused

def generateText (config : Config) (source : String) : Except GenerateError String := do
  let p ← (Program.parse source).mapError .source
  return (← generate config p).text

end Binding

end Colloquy
