import Colloquy.Call.Mode
import Colloquy.Principal.Basic

/-!
# The items of a generated module

A generated module declares one item for every named type, one for every type that is written
inline inside another, and at most one client. The items are data here, and how they look as source
is a matter of its own; what they contain, which names they occupy and which methods they offer can
be read off without any text.

A type that contains itself has no finite size unless the recursion goes through an indirection: a
vector or a box.
-/

namespace Colloquy

namespace Binding

/-- What generated code uses from the runtime library. -/
inductive Import where
  | agent
  | argBuilder
  | callError
  | callMode
  | empty
  | encodingError
  | funcMode
  | funcRef
  | funcType
  | idlType
  | principal
  | replyDecoder
  | reserved
  | type
  | typeBuilder
  | value
  deriving DecidableEq

namespace Import

def all : List Import :=
  [.agent, .argBuilder, .callError, .callMode, .empty, .encodingError, .funcMode, .funcRef,
    .funcType, .idlType, .principal, .replyDecoder, .reserved, .type, .typeBuilder, .value]

def name : Import → String
  | .agent => "Agent"
  | .argBuilder => "ArgBuilder"
  | .callError => "CallError"
  | .callMode => "CallMode"
  | .empty => "Empty"
  | .encodingError => "EncodingError"
  | .funcMode => "FuncMode"
  | .funcRef => "FuncRef"
  | .funcType => "FuncType"
  | .idlType => "IdlType"
  | .principal => "Principal"
  | .replyDecoder => "ReplyDecoder"
  | .reserved => "Reserved"
  | .type => "Type"
  | .typeBuilder => "TypeBuilder"
  | .value => "Value"

def sorted (imports : List Import) : List Import :=
  all.filter imports.contains

end Import

/-- A type as generated code mentions it. -/
inductive TypeUse where
  | prim (p : Primitive)
  | option (inner : TypeUse)
  | vec (inner : TypeUse)
  /-- A declared item. -/
  | named (name : String)
  /-- A declared item behind an indirection. -/
  | boxed (name : String)

namespace TypeUse

/-- The items that a value of the type holds in itself, with no indirection between. -/
def contained : TypeUse → List String
  | .prim _ | .vec _ | .boxed _ => []
  | .option inner => inner.contained
  | .named name => [name]

def mentioned : TypeUse → List String
  | .prim _ => []
  | .option inner | .vec inner => inner.mentioned
  | .named name | .boxed name => [name]

end TypeUse

structure FieldItem where
  label : Label
  name : String
  type : TypeUse

structure TagItem where
  label : Label
  name : String
  payload : Option TypeUse

structure SignatureItem where
  modes : List Mode
  args : List TypeUse
  results : List TypeUse

inductive MethodItem where
  /-- A signature written in place. -/
  | inline (signature : SignatureItem)
  /-- A declared function. -/
  | declared (type : TypeUse)

/-- What an item declares. -/
inductive Body where
  /-- Another name for a type. -/
  | alias (type : TypeUse)
  /-- A type of its own around another one. -/
  | wrapper (type : TypeUse)
  /-- A record whose fields have no names. -/
  | tuple (fields : List TypeUse)
  | struct (fields : List FieldItem)
  | enum (tags : List TagItem)
  /-- A reference to a function with a known signature. -/
  | func (signature : SignatureItem)
  /-- A reference to a service with known methods. -/
  | service (methods : List (String × MethodItem))

namespace Body

/-- The items that a value holds in itself, with no indirection between. References to functions
and services hold none. -/
def contained : Body → List String
  | .alias type | .wrapper type => type.contained
  | .tuple fields => fields.flatMap TypeUse.contained
  | .struct fields => fields.flatMap fun field => field.type.contained
  | .enum tags => tags.flatMap fun tag => (tag.payload.map TypeUse.contained).getD []
  | .func _ | .service _ => []

/-- Whether the item's name also stands for a value: its constructor. -/
def hasConstructor : Body → Bool
  | .wrapper _ | .tuple _ | .func _ | .service _ => true
  | .alias _ | .struct _ | .enum _ => false

end Body

inductive Origin where
  /-- A table entry that the interface gives a name. -/
  | entry (schemaName : String)
  /-- A type written inline, of the given kind. -/
  | inline (kind : String)

/-- A declaration of a generated module. -/
structure Item where
  name : String
  origin : Origin
  body : Body

namespace Item

/-- The name under which the runtime library knows the type. -/
def registeredName (item : Item) : String :=
  match item.origin with
  | .entry schemaName => schemaName
  | .inline _ => item.name

def isRenamed (item : Item) : Bool :=
  item.registeredName != item.name

end Item

/-- A function of a client that calls one method. -/
structure ClientMethod where
  /-- The method's name in the interface. -/
  method : String
  /-- The function's name. -/
  name : String
  mode : CallMode
  args : List TypeUse
  results : List TypeUse

structure Client where
  name : String
  serviceName : String
  /-- The field that holds the transport. -/
  agent : String
  destination : Option Principal
  methods : List ClientMethod

structure Module where
  package : Option String
  imports : List Import
  items : List Item
  client : Option Client

end Binding

end Colloquy
