import Colloquy.Binding.Item
import Colloquy.Native.Shape
import Colloquy.Text.Quoted
import Colloquy.Text.Visible

/-!
# Items as source text

Source text is laid out in blocks: runs of lines that belong together, with an empty line between
two blocks. An item is one block, or two if it needs an implementation.

Text from the interface stands in comments as it is and in string literals escaped, so that the
literal denotes the text.
-/

namespace Colloquy

namespace Binding

/-- A run of lines. -/
abbrev Block := List String

namespace Block

/-- Lines, each ended. -/
def text (lines : Block) : String :=
  String.join (lines.map (· ++ "\n"))

/-- Blocks with an empty line after each. -/
def spaced (blocks : List Block) : String :=
  String.join (blocks.map fun b => text b ++ "\n")

/-- Blocks with an empty line between two. -/
def separated (blocks : List Block) : String :=
  "\n".intercalate (blocks.map text)

/-- The lines of several groups, with an empty line between two. -/
def joined (groups : List Block) : Block :=
  [""].intercalate groups

/-- Lines moved to the right by four columns, the empty ones excepted. -/
def indented (lines : Block) : Block :=
  lines.map fun line => if line.isEmpty then line else "    " ++ line

end Block

def literalChar (c : Char) : String :=
  match c with
  | '"' => "\\\""
  | '\\' => "\\\\"
  | '\n' => "\\n"
  | '\r' => "\\r"
  | '\t' => "\\t"
  | '\x00' => "\\0"
  | c =>
    if Text.isVisible c then String.singleton c
    else "\\u\x7b" ++ Text.hexDigits c.toNat ++ "\x7d"

def literal (text : String) : String :=
  "\"" ++ String.join (text.toList.map literalChar) ++ "\""

def commas (items : List String) : String :=
  ", ".intercalate items

def vector (items : List String) : String :=
  if items.isEmpty then "Vec::new()" else "vec![" ++ commas items ++ "]"

def TypeUse.text : TypeUse → String
  | .prim p => Native.primitiveName p
  | .option inner => "Option<" ++ inner.text ++ ">"
  | .vec inner => "Vec<" ++ inner.text ++ ">"
  | .named name => name
  | .boxed name => "Box<" ++ name ++ ">"

/-- The annotation that keeps a field's or tag's label. -/
def labelLine (label : Label) : String :=
  match label.name? with
  | some name => s!"#[idl(id = {label.id}, name = " ++ literal name ++ ")]"
  | none => s!"#[idl(id = {label.id})]"

def modeText : Mode → String
  | .query => "FuncMode::Query"
  | .oneway => "FuncMode::Oneway"
  | .compositeQuery => "FuncMode::CompositeQuery"

/-- The expression that registers a type and yields it. -/
def addedType (type : TypeUse) : String :=
  "builder.add::<" ++ type.text ++ ">()"

/-- The expression for a signature, from the line that `before` begins to the one that `after`
ends. -/
def signatureLines (before after : String) (s : SignatureItem) : Block :=
  [before ++ "FuncType \x7b",
    "    modes: " ++ vector (s.modes.map modeText) ++ ",",
    "    args: " ++ vector (s.args.map addedType) ++ ",",
    "    rets: " ++ vector (s.results.map addedType) ++ ",",
    "\x7d" ++ after]

/-- The annotation for types that the runtime library encodes field by field. -/
def deriveEncoded : String :=
  "#[derive(Debug, Clone, PartialEq, IdlType)]"

/-- The annotation for references, which are encoded by an implementation of their own. -/
def deriveReference : String :=
  "#[derive(Debug, Clone, PartialEq)]"

namespace Item

def comment (item : Item) : String :=
  match item.origin with
  | .entry schemaName => "/// IDL type `" ++ schemaName ++ "`."
  | .inline kind => "/// Inline " ++ kind ++ " `" ++ item.name ++ "`."

/-- The annotation that keeps the type's name, if the generated one differs. -/
def nameLines (item : Item) : Block :=
  if item.isRenamed then ["#[idl(name = " ++ literal item.registeredName ++ ")]"] else []

/-- The annotation of a type around another one. -/
def wrapperLine (item : Item) : String :=
  if item.isRenamed then "#[idl(transparent, name = " ++ literal item.registeredName ++ ")]"
  else "#[idl(transparent)]"

def bracedLines (head : String) (inside : Block) : Block :=
  if inside.isEmpty then [head ++ " \x7b\x7d"]
  else [head ++ " \x7b"] ++ Block.indented inside ++ ["\x7d"]

def fieldLines (field : FieldItem) : Block :=
  [labelLine field.label, "pub " ++ field.name ++ ": " ++ field.type.text ++ ","]

def tagLines (tag : TagItem) : Block :=
  let payload := (tag.payload.map fun type => "(" ++ type.text ++ ")").getD ""
  [labelLine tag.label, tag.name ++ payload ++ ","]

/-- The implementation of the encoding of a reference: the type that it registers, and the bodies
of the two conversions. -/
def implementation (item : Item) (type toValue ofValue : Block) : Block :=
  ["impl IdlType for " ++ item.name ++ " \x7b"] ++
    Block.indented (Block.joined
      [["fn idl_type(builder: &mut TypeBuilder) -> Type \x7b",
          "    builder.register::<Self>(" ++ literal item.registeredName ++ ", |builder| \x7b"] ++
          Block.indented (Block.indented type) ++
          ["    \x7d)", "\x7d"],
        ["fn to_value(&self) -> Value \x7b"] ++ Block.indented toValue ++ ["\x7d"],
        ["fn from_value(value: Value) -> Result<Self, EncodingError> \x7b"] ++
          Block.indented ofValue ++ ["\x7d"]]) ++
    ["\x7d"]

/-- A method of a service as a pair of its name and type. -/
def methodLines (method : String × MethodItem) : Block :=
  let before := "(" ++ literal method.1 ++ ".to_string(), "
  match method.2 with
  | .inline s =>
    match signatureLines (before ++ "Type::Func(") "))," s with
    | first :: rest => first :: Block.indented rest
    | [] => []
  | .declared type => [before ++ addedType type ++ "),"]

def serviceLines (methods : List (String × MethodItem)) : Block :=
  if methods.isEmpty then ["Type::Service(Vec::new())"]
  else ["Type::Service(vec!["] ++ Block.indented (methods.flatMap methodLines) ++ ["])"]

def blocks (item : Item) : List Block :=
  match item.body with
  | .alias type => [[item.comment, "pub type " ++ item.name ++ " = " ++ type.text ++ ";"]]
  | .wrapper type =>
    [[item.comment, deriveEncoded, item.wrapperLine,
      "pub struct " ++ item.name ++ "(pub " ++ type.text ++ ");"]]
  | .tuple fields =>
    [[item.comment, deriveEncoded] ++ item.nameLines ++
      ["pub struct " ++ item.name ++ "(" ++
        commas (fields.map fun type => "pub " ++ type.text) ++ ");"]]
  | .struct fields =>
    [[item.comment, deriveEncoded] ++ item.nameLines ++
      bracedLines ("pub struct " ++ item.name) (fields.flatMap fieldLines)]
  | .enum tags =>
    [[item.comment, deriveEncoded] ++ item.nameLines ++
      ["pub enum " ++ item.name ++ " \x7b"] ++ Block.indented (tags.flatMap tagLines) ++ ["\x7d"]]
  | .func signature =>
    [[item.comment, deriveReference, "pub struct " ++ item.name ++ "(pub FuncRef);"],
      item.implementation (signatureLines "Type::Func(" ")" signature)
        ["self.0.to_value()"]
        ["FuncRef::from_value(value).map(Self)"]]
  | .service methods =>
    [[item.comment, deriveReference, "pub struct " ++ item.name ++ "(pub Principal);"],
      item.implementation (serviceLines methods)
        ["Value::Service(self.0.clone())"]
        ["match value \x7b",
          "    Value::Service(principal) => Ok(Self(principal)),",
          "    other => Err(EncodingError::kind_mismatch(\"service\", &other)),",
          "\x7d"]]

end Item

def callModeText : CallMode → String
  | .update => "CallMode::Update"
  | .query => "CallMode::Query"
  | .oneway => "CallMode::Oneway"
  | .compositeQuery => "CallMode::CompositeQuery"

def callModeDescription : CallMode → String
  | .update => "an update"
  | .query => "a query"
  | .oneway => "a one-way call"
  | .compositeQuery => "a composite query"

namespace ClientMethod

def returnText (m : ClientMethod) : String :=
  if m.mode.isOneway then "()"
  else
    match m.results with
    | [] => "()"
    | [single] => single.text
    | many => "(" ++ commas (many.map TypeUse.text) ++ ")"

def replyLines (m : ClientMethod) : Block :=
  match m.results with
  | [] => ["ReplyDecoder::new(&reply)?.finish()?;", "Ok(())"]
  | results =>
    let names := (List.range results.length).map fun i => s!"ret{i}"
    let value :=
      match names with
      | [single] => single
      | many => "(" ++ commas many ++ ")"
    ["let mut reply = ReplyDecoder::new(&reply)?;"] ++
      results.zipIdx.map (fun (type, i) => s!"let ret{i} = reply.read::<" ++ type.text ++ ">()?;") ++
      ["reply.finish()?;", "Ok(" ++ value ++ ")"]

def lines (agent : String) (m : ClientMethod) : Block :=
  let params := String.join (m.args.zipIdx.map fun (type, i) => s!", arg{i}: &" ++ type.text)
  let pushes := String.join (m.args.zipIdx.map fun (_, i) => s!".arg(arg{i})")
  ["/// Calls `" ++ m.method ++ "` as " ++ callModeDescription m.mode ++ ".",
    "///",
    "/// # Errors",
    "/// Returns [`CallError`] if the call fails or the reply does not decode.",
    "pub fn " ++ m.name ++ "(&self" ++ params ++ ") -> Result<" ++ m.returnText ++
      ", CallError> \x7b"] ++
    Block.indented
      (["let args = ArgBuilder::new()" ++ pushes ++ ".encode()?;",
          (if m.mode.isOneway then "self" else "let reply = self"),
          "    ." ++ agent,
          "    .call(&self.destination, " ++ literal m.method ++ ", " ++
            callModeText m.mode ++ ", args)",
          "    .map_err(CallError::transport)?;"] ++
        (if m.mode.isOneway then ["Ok(())"] else m.replyLines)) ++
    ["\x7d"]

end ClientMethod

namespace Client

/-- The functions that make a client: one for any destination, and if there is a default one, a
shorter one for that. -/
def constructors (c : Client) : List Block :=
  let general (name : String) : Block :=
    ["/// Creates a client calling `destination`.",
      "pub const fn " ++ name ++ "(" ++ c.agent ++
        ": Transport, destination: Principal) -> Self \x7b",
      "    Self \x7b " ++ c.agent ++ ", destination \x7d",
      "\x7d"]
  match c.destination with
  | none => [general "new"]
  | some _ =>
    [["/// Creates a client calling [`DESTINATION`].",
        "///",
        "/// # Errors",
        "/// Returns [`CallError`] if `DESTINATION` is not a valid principal.",
        "pub fn new(" ++ c.agent ++ ": Transport) -> Result<Self, CallError> \x7b",
        "    let destination = Principal::from_text(DESTINATION)",
        "        .map_err(|err| CallError::Codec(err.into()))?;",
        "    Ok(Self::with_destination(" ++ c.agent ++ ", destination))",
        "\x7d"],
      general "with_destination"]

def accessors (c : Client) : List Block :=
  [["/// Returns the agent carrying calls.",
      "pub const fn " ++ c.agent ++ "(&self) -> &Transport \x7b",
      "    &self." ++ c.agent,
      "\x7d"],
    ["/// Returns the principal calls are sent to.",
      "pub const fn destination(&self) -> &Principal \x7b",
      "    &self.destination",
      "\x7d"]]

def blocks (c : Client) : List Block :=
  let destination : List Block :=
    match c.destination with
    | none => []
    | some p =>
      [["/// Default destination of [`" ++ c.name ++ "`].",
        "pub const DESTINATION: &str = " ++ literal p.text ++ ";"]]
  destination ++
    [["/// Client for the `" ++ c.serviceName ++ "` service.",
        "#[derive(Debug, Clone)]",
        "pub struct " ++ c.name ++ "<Transport: Agent> \x7b",
        "    " ++ c.agent ++ ": Transport,",
        "    destination: Principal,",
        "\x7d"],
      ["impl<Transport: Agent> " ++ c.name ++ "<Transport> \x7b"] ++
        Block.indented
          (Block.joined (c.constructors ++ c.accessors ++ c.methods.map (·.lines c.agent))) ++
        ["\x7d"]]

end Client

namespace Module

def heading (m : Module) : Block :=
  [match m.package with
    | some package => "// Rust bindings for the `" ++ package ++ "` interface."
    | none => "// Rust bindings for an IDL interface.",
    "// This file is auto-generated by ironidl-codegen. Do not edit manually."]

def importBlocks (m : Module) : List Block :=
  if m.imports.isEmpty then []
  else [["use ironidl::\x7b" ++ commas (m.imports.map Import.name) ++ "\x7d;"]]

def text (m : Module) : String :=
  Block.separated
    ([m.heading] ++ m.importBlocks ++ m.items.flatMap Item.blocks ++
      (m.client.map Client.blocks).getD [])

end Module

end Binding

end Colloquy
