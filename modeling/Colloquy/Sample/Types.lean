import Colloquy.Native.Spelling

/-!
# The types of a sample program

Records, a tuple, a variant and recursive types, for trying out what a program can declare. Three of
them stand for versions of one type: they go by the same name.
-/

namespace Colloquy

namespace Sample

open Native

def labelled {α : Type} (name : String) (a : α) : Label × α :=
  (.named name, a)

def ownerField : Label × Shape :=
  labelled "owner" (.prim .principal)

/-- The number of an account among those of its owner. -/
def subAccountField : Label × Shape :=
  labelled "subAccount" (.option (.list (.prim .nat8)))

/-- The shape of states: a bare tag, a tag with a text and a tag with a record. -/
def statusShape : Shape :=
  .variant
    [labelled "active" none, labelled "suspended" (some (.prim .text)),
      labelled "moved" (some (.record
        [labelled "to" (.prim .principal), labelled "at" (.prim .nat64)]))]

def types : Declarations :=
  [⟨"Account", some "Account", .record [ownerField, subAccountField]⟩,
    ⟨"AccountV2", some "Account",
      .record [ownerField, subAccountField, labelled "nickname" (.prim .text)]⟩,
    ⟨"AccountV0", some "Account",
      .record [ownerField, labelled "label" (.option (.prim .text))]⟩,
    ⟨"TransferArgs", some "Transfer",
      .record [labelled "to" (.declared "Account"), labelled "amount" (.prim .nat64),
        (.numbered 42, .option (.prim .nat64))]⟩,
    ⟨"Pair", some "Pair", .record [(.positional 0, .prim .nat), (.positional 1, .prim .text)]⟩,
    ⟨"Chain", some "Chain", .option (.boxed (.declared "Chain"))⟩,
    ⟨"Tree", some "Tree",
      .record [labelled "value" (.prim .int32), labelled "children" (.list (.declared "Tree"))]⟩,
    ⟨"Status", some "Status", statusShape⟩,
    ⟨"Nothing", some "Nothing", .record []⟩]

/-- The declaration of a generic type with its argument. The only generic type holds a value of any
type, beside two fields of fixed types. -/
def instantiate (i : Instance) : Option Declaration :=
  if i.generic = "Wrap" then
    some ⟨i.key, some "Wrap",
      .record [labelled "type" i.argument, labelled "unit" (.prim .null),
        labelled "any" (.prim .reserved)]⟩
  else none

end Sample

end Colloquy
