import Colloquy.Ty.Basic

/-!
# Types as source text

A type is written in the syntax that the parser reads. References are written by the name of their
entry, which the caller supplies; an entry without a name is written by its index, which is for
diagnostics only.

Three spellings are shorter than the general one: a vector of bytes is `blob`, a record whose
labels are the positions in order is written as a tuple, and a variant tag of type `null` is
written without a type.
-/

namespace Colloquy

namespace Ty

/-- Items in braces with semicolons between them. -/
def braced (items : List String) : String :=
  if items.isEmpty then "\x7b\x7d" else "\x7b " ++ "; ".intercalate items ++ " \x7d"

/-- The annotations of a function, each after a space. -/
def modesText (modes : List Mode) : String :=
  String.join (modes.map fun mode => " " ++ mode.keyword)

/-- Items in parentheses with commas between them. -/
def parenthesized (items : List String) : String :=
  "(" ++ ", ".intercalate items ++ ")"

/-- A reference by the name of its entry or else by its index. -/
def referenceText (name? : Nat → Option String) (index : Nat) : String :=
  (name? index).getD s!"table{index}"

mutual

/-- The type as source text, with the given names of table entries. -/
def text (name? : Nat → Option String) : Ty → String
  | .prim p => p.keyword
  | .opt inner => "opt " ++ text name? inner
  | .vec (.prim .nat8) => "blob"
  | .vec inner => "vec " ++ text name? inner
  | .record fields =>
    "record " ++ braced
      (if Label.areTuple (Fields.labels fields) then textsOfTuple name? fields
        else textsOfFields name? fields)
  | .variant tags => "variant " ++ braced (textsOfTags name? tags)
  | .func modes args results =>
    "func " ++ parenthesized (textsOfList name? args) ++ " -> " ++
      parenthesized (textsOfList name? results) ++ modesText modes
  | .service methods => "service " ++ braced (textsOfMethods name? methods)
  | .ref index => referenceText name? index

/-- Fields of a tuple, without their labels. -/
def textsOfTuple (name? : Nat → Option String) : List (Label × Ty) → List String
  | [] => []
  | (_, ty) :: rest => text name? ty :: textsOfTuple name? rest

def textsOfFields (name? : Nat → Option String) : List (Label × Ty) → List String
  | [] => []
  | (label, ty) :: rest => (label.text ++ " : " ++ text name? ty) :: textsOfFields name? rest

/-- Tags of a variant; a type of `null` goes without saying. -/
def textsOfTags (name? : Nat → Option String) : List (Label × Ty) → List String
  | [] => []
  | (label, .prim .null) :: rest => label.text :: textsOfTags name? rest
  | (label, ty) :: rest => (label.text ++ " : " ++ text name? ty) :: textsOfTags name? rest

def textsOfList (name? : Nat → Option String) : List Ty → List String
  | [] => []
  | ty :: rest => text name? ty :: textsOfList name? rest

/-- Methods of a service; a function stands without its keyword. -/
def textsOfMethods (name? : Nat → Option String) : List (String × Ty) → List String
  | [] => []
  | (name, .func modes args results) :: rest =>
    (Text.name name ++ " : " ++ parenthesized (textsOfList name? args) ++ " -> " ++
      parenthesized (textsOfList name? results) ++ modesText modes) :: textsOfMethods name? rest
  | (name, ty) :: rest => (Text.name name ++ " : " ++ text name? ty) :: textsOfMethods name? rest

end

/-- A function's signature as it follows the name of a method. -/
def signatureText (name? : Nat → Option String) (modes : List Mode) (args results : List Ty) :
    String :=
  parenthesized (textsOfList name? args) ++ " -> " ++ parenthesized (textsOfList name? results) ++
    modesText modes

/-- The type as source text, with every reference by its index. -/
def plainText (ty : Ty) : String :=
  text (fun _ => none) ty

end Ty

end Colloquy
