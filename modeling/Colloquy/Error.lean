import Colloquy.Principal.Basic
import Colloquy.Wire.Error

/-!
# What can go wrong between types, values and messages

Four kinds of failure are kept apart: bytes that are malformed, type tables that make no sense,
types that are not compatible, and values that do not fit their type. Each constructor is one cause
and holds what the wording needs; the wording stands in one function per kind.
-/

namespace Colloquy

/-- Where in a value or type a failure lies: the labels, indices and argument positions on the way
to it, the innermost first. -/
structure Path where
  inward : List String

namespace Path

def root : Path := ⟨[]⟩

def push (path : Path) (segment : String) : Path :=
  ⟨segment :: path.inward⟩

def argument (index : Nat) : Path :=
  root.push s!"arg{index}"

/-- The segments with dots between them, the outermost first. -/
def text (path : Path) : String :=
  if path.inward.isEmpty then "<root>" else ".".intercalate path.inward.reverse

end Path

/-- What can be defined twice. -/
inductive Definable where
  | type
  | method

def Definable.text : Definable → String
  | .type => "type"
  | .method => "method"

/-- References and tables that make no sense. -/
inductive SchemaError where
  /-- A reference outside the table. -/
  | danglingReference (index len : Nat)
  /-- A type that is nothing but a reference to itself. -/
  | unguardedCycle (name : String)
  /-- Two fields of a record or tags of a variant with one id. -/
  | duplicateField (id : UInt32) (first second : String)
  /-- Fields or methods of a table entry that are not strictly ascending. -/
  | unsortedFields (index : Nat)
  /-- A code that is no type constructor. -/
  | unknownOpcode (code : Int)
  /-- A byte that is no function annotation. -/
  | unknownMode (code : UInt8)
  /-- A name that is not defined. -/
  | unknownType (name : String)
  /-- A name defined twice. -/
  | duplicateDefinition (kind : Definable) (name : String)
  /-- A method whose type is no function. -/
  | methodNotFunction (name : String)
  /-- A main service whose type is no service. -/
  | notAService
  /-- A table longer than the reader allows. -/
  | tableTooLarge (len limit : Nat)
  /-- An import, which is not followed. -/
  | importUnsupported (path : String)

namespace SchemaError

def message : SchemaError → String
  | .danglingReference index len =>
    s!"type reference {index} out of range for table of {len} entries"
  | .unguardedCycle name => s!"type '{name}' refers to itself without indirection"
  | .duplicateField id first second => s!"duplicate field id {id} ('{first}' and '{second}')"
  | .unsortedFields index => s!"fields of type table entry {index} are not strictly ascending"
  | .unknownOpcode code => s!"unknown type opcode {code}"
  | .unknownMode code => s!"unknown function annotation {code}"
  | .unknownType name => s!"unknown type '{name}'"
  | .duplicateDefinition kind name => "duplicate definition of " ++ kind.text ++ s!" '{name}'"
  | .methodNotFunction name => s!"method '{name}' is not a function type"
  | .notAService => "actor type is not a service"
  | .tableTooLarge len limit => s!"type table of {len} entries exceeds limit {limit}"
  | .importUnsupported path => s!"unsupported: import of \"{path}\""

end SchemaError

/-- Why one type may not be read as another. -/
inductive Mismatch where
  /-- An expected method is missing. -/
  | methodMissing (name : String)
  /-- An expected field is missing and has no default. -/
  | fieldMissing
  /-- A tag is not among the expected ones. -/
  | tagUnknown
  /-- The annotations of two functions differ. -/
  | annotationsDiffer
  /-- An expected argument is missing and has no default. -/
  | argumentMissing
  /-- The two types have different shapes. -/
  | kinds (actual expected : String)
  /-- One of the types cannot be resolved. -/
  | unresolved (error : SchemaError)
  /-- The comparison meets an option of itself on one side and would not end. -/
  | endless
  /-- A value of one type cannot be read as the other. -/
  | unreadable (actual expected : String)
  /-- The tag of a value is not among the expected ones. -/
  | valueTagUnknown
  /-- Every argument of the message has been read. -/
  | noArgumentLeft

namespace Mismatch

def text : Mismatch → String
  | .methodMissing name => s!"method '{name}' is missing"
  | .fieldMissing => "required field is missing"
  | .tagUnknown => "variant tag is not known to the expected type"
  | .annotationsDiffer => "function annotations differ"
  | .argumentMissing => "required argument is missing"
  | .kinds actual expected => s!"{actual} is not a subtype of {expected}"
  | .unresolved error => error.message
  | .endless => "the comparison of the types does not end"
  | .unreadable actual expected => s!"{actual} cannot be read as {expected}"
  | .valueTagUnknown => "variant tag is not known"
  | .noArgumentLeft => "no argument left"

end Mismatch

/-- A place where one type may not be read as another. -/
structure SubtypeError where
  path : Path
  reason : Mismatch

def SubtypeError.message (e : SubtypeError) : String :=
  "subtype mismatch at " ++ e.path.text ++ ": " ++ e.reason.text

/-- A value that does not fit its type. -/
inductive ValueError where
  /-- The value has another shape than its type. -/
  | kindMismatch (path : Path) (expected found : String)
  /-- A field is missing and has no default. -/
  | missingField (path : Path) (id : UInt32)
  /-- A field that the type does not declare. -/
  | unknownField (path : Path) (id : UInt32)
  /-- A field that the record holds twice. -/
  | duplicateField (path : Path) (id : UInt32)
  /-- A tag that the type does not declare. -/
  | unknownTag (path : Path) (id : UInt32)
  /-- A number outside the range of its type. -/
  | outOfRange (path : Path) (value : Int) (ty : String)
  /-- A value where the type has none. -/
  | emptyValue (path : Path)
  /-- The message is finished although an argument failed. -/
  | incompleteMessage (arg : Nat)
  /-- Bytes or a text that are no principal. -/
  | badPrincipal (text : String) (fault : Principal.Fault)

namespace ValueError

def message : ValueError → String
  | .kindMismatch path expected found =>
    s!"expected {expected} at " ++ path.text ++ s!", found {found}"
  | .missingField path id => s!"missing field {id} at " ++ path.text
  | .unknownField path id => s!"unknown field {id} at " ++ path.text
  | .duplicateField path id => s!"duplicate field {id} at " ++ path.text
  | .unknownTag path id => s!"unknown variant tag {id} at " ++ path.text
  | .outOfRange path value ty => s!"value {value} out of range for {ty} at " ++ path.text
  | .emptyValue path => "type empty has no values (at " ++ path.text ++ ")"
  | .incompleteMessage arg => s!"argument {arg} failed to encode, the message is incomplete"
  | .badPrincipal text fault => s!"invalid principal '{text}': " ++ fault.text

end ValueError

inductive CodecError where
  | wire (error : WireError)
  | schema (error : SchemaError)
  | subtype (error : SubtypeError)
  | value (error : ValueError)

namespace CodecError

def message : CodecError → String
  | .wire e => e.message
  | .schema e => e.message
  | .subtype e => e.message
  | .value e => e.message

end CodecError

namespace Principal

/-- The identity with the given bytes; the failure names them. -/
def ofBytesNamed (bytes : List UInt8) : Except ValueError Principal :=
  (ofBytes bytes).mapError fun fault => .badPrincipal (Text.hex bytes) fault

/-- The identity that a text denotes; the failure names it. -/
def ofTextNamed (text : String) : Except ValueError Principal :=
  (ofText text).mapError fun fault => .badPrincipal text fault

end Principal

end Colloquy
