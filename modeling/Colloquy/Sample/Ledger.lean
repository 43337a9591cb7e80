import Colloquy.Binding.Generate
import Colloquy.Binding.Meaning

/-!
# A sample interface

A ledger with accounts, balances, transfers and a recursive history, and the module that is
generated for it.
-/

namespace Colloquy

namespace Sample

def ledgerSource : String :=
  "type Tokens = record \x7b e8s : nat64 \x7d;\n" ++
    "type Account = record \x7b owner : principal; subaccount : opt blob \x7d;\n" ++
    "type TransferResult = variant \x7b Ok : nat; Err : text \x7d;\n" ++
    "type History = opt record \x7b amount : Tokens; previous : History \x7d;\n" ++
    "service ledger : \x7b\n" ++
    "  balance : (Account) -> (Tokens) query;\n" ++
    "  history : (Account) -> (History) query;\n" ++
    "  notify : (text) -> () oneway;\n" ++
    "  transfer : (Account, Tokens) -> (TransferResult);\n" ++
    "\x7d\n"

/-- The module generated for the ledger. -/
def ledger : Except Binding.GenerateError Binding.Module := do
  let p ← (Program.parse ledgerSource).mapError .source
  Binding.generate
    { Binding.Config.default with bindingName := "Ledger", packageName := some "ledger" } p

/-- The key of an item of the ledger's module. -/
def inLedger (name : String) : String :=
  "ledger::" ++ name

end Sample

end Colloquy
