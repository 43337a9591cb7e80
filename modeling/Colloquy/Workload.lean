import Colloquy.Message.Encoder
import Colloquy.Value.Text

/-!
# A workload for measurements

A batch of money transfers of any length, for measuring how fast messages are encoded and values
read. The transfers differ from each other in a fixed way, so that a batch of a given length is
always the same.
-/

namespace Colloquy

namespace Workload

def field {α : Type} (name : String) (a : α) : Label × α :=
  (.named name, a)

/-- An amount of money. -/
def tokensType : Ty :=
  .record [field "e8s" (.prim .nat64)]

/-- An owner with an optional account of theirs. -/
def accountType : Ty :=
  .record [field "owner" (.prim .principal), field "subaccount" (.opt (.vec (.prim .nat8)))]

/-- A transfer. Amounts are entry 0 of the table and accounts entry 1. -/
def transferType : Ty :=
  .record
    [field "from" (.ref 1), field "to" (.ref 1), field "amount" (.ref 0),
      field "fee" (.opt (.ref 0)), field "memo" (.opt (.prim .text)),
      field "created_at" (.prim .nat64)]

def resultType : Ty :=
  .variant [field "Ok" (.prim .nat), field "Err" (.prim .text)]

/-- The types of the ledger: amounts, accounts, transfers, results and batches of transfers. -/
def table : Table where
  entries :=
    #[⟨some "Tokens", tokensType⟩, ⟨some "Account", accountType⟩, ⟨some "Transfer", transferType⟩,
      ⟨some "TransferResult", resultType⟩, ⟨some "Batch", .vec (.ref 2)⟩]
  index :=
    [("Tokens", 0), ("Account", 1), ("Transfer", 2), ("TransferResult", 3), ("Batch", 4)]

def batchType : Ty := .ref 4

def nat64 (n : Nat) : Value :=
  .scalar (.nat64 (UInt64.ofNat n))

/-- An account that depends on a byte; every other one is a main account. -/
def account (seed : UInt8) : Value :=
  let owner : Principal := ⟨[seed, 1, 2, 3], by simp⟩
  let sub : Value :=
    if seed % 2 = 0 then .absent else .present (.blob (List.replicate 32 seed))
  .record [field "owner" (.scalar (.principal owner)), field "subaccount" sub]

def tokens (n : Nat) : Value :=
  .record [field "e8s" (nat64 n)]

/-- The transfer with a number; every third one has a memo. -/
def transfer (i : Nat) : Value :=
  let seed := UInt8.ofNat (i % 251)
  let memo : Value :=
    if i % 3 = 0 then .present (.scalar (.text ("payment #" ++ toString i))) else .absent
  .record
    [field "from" (account seed), field "to" (account (seed + 1)),
      field "amount" (tokens (i * 1000)), field "fee" (.present (tokens 10000)),
      field "memo" memo, field "created_at" (nat64 (1700000000 + i))]

def transfers (count : Nat) : List Value :=
  (List.range count).map transfer

/-- A message with the first `count` transfers as its only argument. -/
def encode (count : Nat) : Except CodecError (List UInt8) :=
  encodeArgs table [(batchType, .vec (transfers count))]

/-- The first `count` transfers as source text of an argument list. -/
def text (count : Nat) : String :=
  "(vec \x7b " ++ "; ".intercalate ((transfers count).map Value.source) ++ " \x7d)"

end Workload

end Colloquy
