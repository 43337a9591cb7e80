import Mathlib
import Colloquy.Binding.Generate

/-!
# Where a method's name stands in source text

The name of a method makes no difference to a generated module except in a few lines that are made
from it (`Spelled`): a comment and the call on the client's function, and a line of the implementation
if the service is a declared type. In comments it stands as it is, in the other lines in a string
literal. A literal has no line feeds, so that only the comment may be more than one line
(`lineFeeds_text_of_spelled`).
-/

namespace Colloquy

namespace Binding

variable {lines lines' : List (String → String)} {F G : String → Block}

/-! ### Lines made from a name -/

/-- Lines for every name. All of them are the same for all names, except those that are made from the
name by the given functions, one by each and in that order. -/
def Spelled : List (String → String) → (String → Block) → Prop
  | [], F => ∃ block, ∀ name, F name = block
  | line :: lines, F => ∃ before G, Spelled lines G ∧ ∀ name, F name = before ++ line name :: G name

theorem Spelled.const (block : Block) : Spelled [] fun _ => block :=
  ⟨block, fun _ => rfl⟩

theorem Spelled.prepend (h : Spelled lines F) (block : Block) :
    Spelled lines fun name => block ++ F name := by
  cases lines with
  | nil =>
      obtain ⟨rest, hF⟩ := h
      exact ⟨block ++ rest, fun name => congrArg (block ++ ·) (hF name)⟩
  | cons line lines =>
      obtain ⟨before, G, hG, hF⟩ := h
      refine ⟨block ++ before, G, hG, fun name => ?_⟩
      show block ++ F name = _
      rw [hF, List.append_assoc]

theorem Spelled.cons_line (h : Spelled lines F) (line : String → String) :
    Spelled (line :: lines) fun name => line name :: F name :=
  ⟨[], F, h, fun _ => rfl⟩

/-- Of two blocks one behind the other, the lines made from the name are those of both. -/
theorem Spelled.append (h : Spelled lines F) (h' : Spelled lines' G) :
    Spelled (lines ++ lines') fun name => F name ++ G name := by
  induction lines generalizing F with
  | nil =>
      obtain ⟨block, hF⟩ := h
      simp only [hF]
      exact h'.prepend block
  | cons line lines ih =>
      obtain ⟨before, H, hH, hF⟩ := h
      refine ⟨before, fun name => H name ++ G name, ih hH, fun name => ?_⟩
      show F name ++ G name = before ++ line name :: (H name ++ G name)
      rw [hF, List.append_assoc, List.cons_append]

theorem Spelled.behind (h : Spelled lines F) (block : Block) :
    Spelled lines fun name => F name ++ block := by
  have happend := h.append (.const block)
  rwa [List.append_nil] at happend

theorem Block.indented_append (block block' : Block) :
    Block.indented (block ++ block') = Block.indented block ++ Block.indented block' :=
  List.map_append

def moved (line : String → String) (name : String) : String :=
  "    " ++ line name

/-- Lines that are not empty are moved to the right whatever the name is. -/
theorem Spelled.indented (h : Spelled lines F) (hne : ∀ line ∈ lines, ∀ name, line name ≠ "") :
    Spelled (lines.map moved) fun name => Block.indented (F name) := by
  induction lines generalizing F with
  | nil =>
      obtain ⟨block, hF⟩ := h
      exact ⟨Block.indented block, fun name => congrArg Block.indented (hF name)⟩
  | cons line lines ih =>
      obtain ⟨before, G, hG, hF⟩ := h
      obtain ⟨hline, hlines⟩ := List.forall_mem_cons.1 hne
      refine ⟨Block.indented before, _, ih hG hlines, fun name => ?_⟩
      have hmoved : (line name).isEmpty = false := by
        rw [Bool.eq_false_iff, ne_eq, String.isEmpty_iff]
        exact hline name
      show Block.indented (F name) = _
      rw [hF, Block.indented_append, Block.indented, Block.indented, List.map_cons, hmoved]
      rfl

/-! ### Groups of lines -/

/-- Groups of lines that stand before others. -/
def Block.leading (groups : List Block) : Block :=
  groups.flatMap (· ++ [""])

/-- Groups of lines that stand behind others. -/
def Block.trailing (groups : List Block) : Block :=
  groups.flatMap ([""] ++ ·)

/-- A group among others stands between what leads and what trails. -/
theorem Block.joined_eq (groups : List Block) (block : Block) (groups' : List Block) :
    Block.joined (groups ++ block :: groups') =
      Block.leading groups ++ block ++ Block.trailing groups' := by
  induction groups with
  | nil =>
      show Block.joined (block :: groups') = block ++ Block.trailing groups'
      induction groups' generalizing block with
      | nil => simp [Block.joined, Block.trailing]
      | cons block' groups' ih =>
          have hrest := ih block'
          rw [Block.joined] at hrest ⊢
          rw [List.intercalate_cons_cons, hrest]
          simp [Block.trailing]
  | cons first groups ih =>
      rw [Block.joined] at ih ⊢
      rw [List.cons_append, List.intercalate_cons_of_ne_nil (by simp), ih]
      simp [Block.leading]

theorem Block.text_append (block block' : Block) :
    Block.text (block ++ block') = Block.text block ++ Block.text block' := by
  rw [Block.text, List.map_append, String.join_append]
  rfl

theorem Block.text_cons (line : String) (block : Block) :
    Block.text (line :: block) = line ++ "\n" ++ Block.text block := by
  rw [Block.text, List.map_cons, String.join_cons]
  rfl

/-- Blocks with an empty line between two are one block. -/
theorem Block.separated_eq (blocks : List Block) :
    Block.separated blocks = Block.text (Block.joined blocks) := by
  induction blocks with
  | nil => rfl
  | cons block blocks ih =>
      cases blocks with
      | nil => simp [Block.separated, Block.joined]
      | cons block' blocks =>
          rw [Block.separated, Block.joined] at ih ⊢
          rw [List.intercalate_cons_cons, List.map_cons, List.map_cons,
            String.intercalate_cons_cons, Block.text_append, Block.text_append, ← ih, List.map_cons]
          rfl

/-! ### Line feeds -/

def lineFeeds (text : String) : Nat :=
  text.toList.count '\n'

@[simp] theorem lineFeeds_append (text text' : String) :
    lineFeeds (text ++ text') = lineFeeds text + lineFeeds text' := by
  simp [lineFeeds]

theorem lineFeeds_hexDigits (n : Nat) : lineFeeds (Text.hexDigits n) = 0 := by
  rw [lineFeeds, Text.hexDigits, String.toList_ofList]
  induction n using Nat.strongRecOn with
  | ind n ih =>
      have hdigit (d : Nat) : d.digitChar ≠ '\n' := Nat.digitChar_ne '\n' rfl
      rw [Nat.toDigits_eq_if (by decide)]
      split
      · simp [hdigit]
      · next hn => simp [ih (n / 16) (Nat.div_lt_self (by omega) (by decide)), hdigit]

theorem lineFeeds_literalChar (c : Char) : lineFeeds (literalChar c) = 0 := by
  unfold literalChar
  split
  · rfl
  · rfl
  · rfl
  · rfl
  · rfl
  · rfl
  · next hfeed _ _ _ =>
      split
      · have hne : c ≠ '\n' := fun h => hfeed h
        simp [lineFeeds, hne]
      · rw [lineFeeds_append, lineFeeds_append, lineFeeds_hexDigits]
        rfl

/-- A literal stays on its line, whatever its text is. -/
@[simp] theorem lineFeeds_literal (text : String) : lineFeeds (literal text) = 0 := by
  have hjoin (texts : List String) (h : ∀ text ∈ texts, lineFeeds text = 0) :
      lineFeeds (String.join texts) = 0 := by
    induction texts with
    | nil => rfl
    | cons text texts ih =>
        obtain ⟨htext, htexts⟩ := List.forall_mem_cons.1 h
        rw [String.join_cons, lineFeeds_append, htext, ih htexts]
  rw [literal, lineFeeds_append, lineFeeds_append, hjoin]
  · rfl
  · intro text htext
    obtain ⟨c, -, rfl⟩ := List.mem_map.1 htext
    exact lineFeeds_literalChar c

/-- Texts of lines that are made from two names have as many line feeds more or less as the lines
themselves. -/
theorem lineFeeds_text_of_spelled (h : Spelled lines F) (a b : String) :
    lineFeeds (Block.text (F a)) + (lines.map fun line => lineFeeds (line b)).sum =
      lineFeeds (Block.text (F b)) + (lines.map fun line => lineFeeds (line a)).sum := by
  induction lines generalizing F with
  | nil =>
      obtain ⟨block, hF⟩ := h
      rw [hF, hF]
      rfl
  | cons line lines ih =>
      obtain ⟨before, G, hG, hF⟩ := h
      have hrest := ih hG
      simp only [hF, Block.text_append, Block.text_cons, lineFeeds_append, List.map_cons,
        List.sum_cons]
      omega

/-! ### The lines of a method -/

def commentLine (mode : CallMode) (name : String) : String :=
  "/// Calls `" ++ name ++ "` as " ++ callModeDescription mode ++ "."

def callLine (mode : CallMode) (name : String) : String :=
  "    .call(&self.destination, " ++ literal name ++ ", " ++ callModeText mode ++ ", args)"

/-- A method in the type of a declared service, up to where its own type begins. -/
def methodLine (type : String) (name : String) : String :=
  "(" ++ literal name ++ ".to_string(), " ++ type

@[simp] theorem lineFeeds_moved (line : String → String) (name : String) :
    lineFeeds (moved line name) = lineFeeds (line name) := by
  have hblanks : lineFeeds "    " = 0 := by decide
  rw [moved, lineFeeds_append, hblanks, Nat.zero_add]

/-- The comment on a function is the only line that takes the line feeds of a name over. -/
@[simp] theorem lineFeeds_commentLine (mode : CallMode) (name : String) :
    lineFeeds (commentLine mode name) = lineFeeds name := by
  have hstart : lineFeeds "/// Calls `" = 0 := by decide
  have hmiddle : lineFeeds "` as " = 0 := by decide
  have hmode : lineFeeds (callModeDescription mode) = 0 := by cases mode <;> decide
  have hend : lineFeeds "." = 0 := by decide
  simp only [commentLine, lineFeeds_append, hstart, hmiddle, hmode, hend, Nat.zero_add, Nat.add_zero]

@[simp] theorem lineFeeds_callLine (mode : CallMode) (name : String) :
    lineFeeds (callLine mode name) = 0 := by
  have hstart : lineFeeds "    .call(&self.destination, " = 0 := by decide
  have hmiddle : lineFeeds ", " = 0 := by decide
  have hmode : lineFeeds (callModeText mode) = 0 := by cases mode <;> decide
  have hend : lineFeeds ", args)" = 0 := by decide
  unfold callLine
  simp only [lineFeeds_append, lineFeeds_literal, hstart, hmiddle, hmode, hend]

@[simp] theorem lineFeeds_methodLine (type name : String) :
    lineFeeds (methodLine type name) = lineFeeds type := by
  have hopen : lineFeeds "(" = 0 := by decide
  have hclose : lineFeeds ".to_string(), " = 0 := by decide
  simp only [methodLine, lineFeeds_append, lineFeeds_literal, hopen, hclose, Nat.zero_add]

theorem append_ne_empty {text text' : String} (h : text ≠ "" ∨ text' ≠ "") :
    text ++ text' ≠ "" := by
  rw [ne_eq, String.append_eq_empty_iff, not_and_or]
  exact h

theorem commentLine_ne (mode : CallMode) (name : String) : commentLine mode name ≠ "" :=
  append_ne_empty (.inr (by decide))

theorem callLine_ne (mode : CallMode) (name : String) : callLine mode name ≠ "" :=
  append_ne_empty (.inr (by decide))

theorem methodLine_ne (type name : String) : methodLine type name ≠ "" :=
  append_ne_empty (.inl (append_ne_empty (.inr (by decide))))

theorem moved_ne (line : String → String) (name : String) : moved line name ≠ "" :=
  append_ne_empty (.inl (by decide))

/-- In a function, the comment and the call are made from the method's name. -/
theorem spelled_functionLines (agent : String) (f : ClientMethod) :
    Spelled [commentLine f.mode, moved (callLine f.mode)] fun name =>
      { f with method := name }.lines agent := by
  have hbody (args self field error : String) (rest : Block) :
      Spelled [moved (callLine f.mode)] fun name =>
        Block.indented ([args, self, field, callLine f.mode name, error] ++ rest) := by
    have hlines := ((Spelled.const [error]).cons_line (callLine f.mode)).prepend [args, self, field]
    exact (hlines.behind rest).indented (by simp [callLine_ne])
  have hhead (block : Block) :
      Spelled [commentLine f.mode] fun name => commentLine f.mode name :: block :=
    (Spelled.const block).cons_line (commentLine f.mode)
  have hreturn (name : String) : { f with method := name }.returnText = f.returnText := rfl
  have hreply (name : String) : { f with method := name }.replyLines = f.replyLines := rfl
  simp only [ClientMethod.lines, hreturn, hreply]
  apply Spelled.behind
  show Spelled ([commentLine f.mode] ++ [moved (callLine f.mode)]) _
  apply Spelled.append
  · exact hhead _
  · exact hbody _ (if f.mode.isOneway then "self" else "let reply = self") _ _ _

/-- The block of a client with its functions. -/
def Client.implementation (c : Client) : Block :=
  ["impl<Transport: Agent> " ++ c.name ++ "<Transport> \x7b"] ++
    Block.indented
      (Block.joined (c.constructors ++ c.accessors ++ c.methods.map (·.lines c.agent))) ++
    ["\x7d"]

/-- The other blocks of a client come first, and they do not depend on its functions. -/
theorem Client.exists_blocks_eq (c : Client) : ∃ blocks : List Block, ∀ methods,
    { c with methods }.blocks = blocks ++ [{ c with methods }.implementation] := by
  refine ⟨{ c with methods := [] }.blocks.dropLast, fun methods => ?_⟩
  simp [Client.blocks, Client.implementation, Client.constructors, Client.accessors]

/-- In the block of a client, the same two lines of one function are made from its method's name. -/
theorem spelled_implementation (c : Client) (before behind : List ClientMethod)
    (f : ClientMethod) : Spelled [moved (commentLine f.mode), moved (moved (callLine f.mode))]
      fun name => { c with methods := before ++ { f with method := name } :: behind }.implementation := by
  have hfunction := ((spelled_functionLines c.agent f).prepend
    (Block.leading (c.constructors ++ c.accessors ++ before.map (·.lines c.agent)))).behind
      (Block.trailing (behind.map (·.lines c.agent)))
  have hjoined (name : String) : Block.joined (c.constructors ++ c.accessors ++
      (before ++ { f with method := name } :: behind).map (·.lines c.agent)) =
        Block.leading (c.constructors ++ c.accessors ++ before.map (·.lines c.agent)) ++
          { f with method := name }.lines c.agent ++
          Block.trailing (behind.map (·.lines c.agent)) := by
    rw [List.map_append, List.map_cons, ← List.append_assoc, Block.joined_eq]
  have hconstructors (methods : List ClientMethod) :
      { c with methods }.constructors = c.constructors := rfl
  have haccessors (methods : List ClientMethod) : { c with methods }.accessors = c.accessors := rfl
  simp only [Client.implementation, hconstructors, haccessors, hjoined]
  exact ((hfunction.indented (by simp [commentLine_ne, moved_ne])).prepend _).behind _

theorem spelled_methodLines (type : MethodItem) :
    ∃ text, Spelled [methodLine text] fun name => Item.methodLines (name, type) := by
  cases type with
  | inline s =>
      have hfirst (name : String) :
          "(" ++ literal name ++ ".to_string(), " ++ "Type::Func(" ++ "FuncType \x7b" =
            methodLine ("Type::Func(" ++ "FuncType \x7b") name := String.append_assoc
      exact ⟨_, [], fun _ => (Item.methodLines ("", .inline s)).tail, .const _,
        fun name => congrArg (· :: _) (hfirst name)⟩
  | declared type =>
      have hfirst (name : String) :
          "(" ++ literal name ++ ".to_string(), " ++ addedType type ++ ")," =
            methodLine (addedType type ++ "),") name := String.append_assoc
      exact ⟨_, [], fun _ => [], .const _, fun name => congrArg (· :: _) (hfirst name)⟩

/-- In the type of a service, one line is made from the name of a method. -/
theorem spelled_serviceLines (before behind : List (String × MethodItem)) (type : MethodItem) :
    ∃ text, Spelled [moved (methodLine text)] fun name =>
      Item.serviceLines (before ++ (name, type) :: behind) := by
  obtain ⟨text, htext⟩ := spelled_methodLines type
  have hmethods := ((htext.prepend (before.flatMap Item.methodLines)).behind
    (behind.flatMap Item.methodLines)).indented (by simp [methodLine_ne])
  refine ⟨text, ?_⟩
  have hne (name : String) : (before ++ (name, type) :: behind).isEmpty = false := by simp
  have hlines (name : String) : (before ++ (name, type) :: behind).flatMap Item.methodLines =
      before.flatMap Item.methodLines ++ Item.methodLines (name, type) ++
        behind.flatMap Item.methodLines := by
    simp
  simp only [Item.serviceLines, hne, hlines]
  exact (hmethods.prepend _).behind _

theorem spelled_itemImplementation (item : Item) (toValue ofValue : Block) (h : Spelled lines F)
    (hne : ∀ line ∈ lines, ∀ name, line name ≠ "") :
    Spelled (((lines.map moved).map moved).map moved) fun name =>
      item.implementation (F name) toValue ofValue := by
  have hmoved : ∀ line ∈ lines.map moved, ∀ name, line name ≠ "" :=
    List.forall_mem_map.2 fun line _ => moved_ne line
  have hmoved' : ∀ line ∈ (lines.map moved).map moved, ∀ name, line name ≠ "" :=
    List.forall_mem_map.2 fun line _ => moved_ne line
  have htype := (h.indented hne).indented hmoved
  have hjoined (group : Block) (groups : List Block) :
      Block.joined (group :: groups) = group ++ Block.trailing groups :=
    Block.joined_eq [] group groups
  simp only [Item.implementation, hjoined]
  refine .behind (.prepend (.indented (.behind ?_ _) hmoved') _) _
  exact (htype.prepend _).behind _

/-- The other block of a declared service comes first, and it does not depend on its methods. -/
theorem Item.exists_blocks_eq (item : Item) : ∃ (blocks : List Block) (toValue ofValue : Block),
    ∀ methods, { item with body := .service methods }.blocks =
      blocks ++ [item.implementation (Item.serviceLines methods) toValue ofValue] :=
  ⟨{ item with body := .service [] }.blocks.dropLast, _, _, fun _ => rfl⟩

theorem spelled_itemBlocks (item : Item) (before behind : List (String × MethodItem))
    (type : MethodItem) : ∃ blocks F text,
      Spelled [moved (moved (moved (moved (methodLine text))))] F ∧ ∀ name,
        { item with body := .service (before ++ (name, type) :: behind) }.blocks =
          blocks ++ [F name] := by
  obtain ⟨text, htext⟩ := spelled_serviceLines before behind type
  obtain ⟨blocks, toValue, ofValue, hblocks⟩ := item.exists_blocks_eq
  exact ⟨blocks, _, text, spelled_itemImplementation item toValue ofValue htext (by simp [moved_ne]),
    fun name => hblocks _⟩

/-! ### Modules -/

theorem spelled_joined (h : Spelled lines F) (groups groups' : List Block) :
    Spelled lines fun name => Block.joined (groups ++ F name :: groups') := by
  simp only [Block.joined_eq]
  exact (h.prepend _).behind _

theorem spelled_joined_two (h : Spelled lines F) (h' : Spelled lines' G)
    (groups between groups' : List Block) : Spelled (lines ++ lines') fun name =>
      Block.joined (groups ++ F name :: (between ++ G name :: groups')) := by
  have htrailing (name : String) : Block.trailing (between ++ G name :: groups') =
      Block.trailing between ++ [""] ++ G name ++ Block.trailing groups' := by
    simp [Block.trailing]
  simp only [Block.joined_eq, htrailing]
  exact (h.prepend _).append ((h'.prepend _).behind _)

variable (m : Module) (c : Client) (before behind : List ClientMethod) (f : ClientMethod)

/-- The text of a module, for every name of one of the methods that its client calls. -/
theorem exists_spelled_text : ∃ F,
    Spelled [moved (commentLine f.mode), moved (moved (callLine f.mode))] F ∧ ∀ name,
      { m with client := some { c with
        methods := before ++ { f with method := name } :: behind } }.text = Block.text (F name) := by
  obtain ⟨blocks, hblocks⟩ := c.exists_blocks_eq
  refine ⟨_, spelled_joined (spelled_implementation c before behind f)
    ([m.heading] ++ m.importBlocks ++ m.items.flatMap Item.blocks ++ blocks) [], fun name => ?_⟩
  rw [Module.text, Block.separated_eq]
  show Block.text (Block.joined ([m.heading] ++ m.importBlocks ++ m.items.flatMap Item.blocks ++
    { c with methods := before ++ { f with method := name } :: behind }.blocks)) = _
  rw [hblocks, ← List.append_assoc]

/-- The same if the method belongs to a declared service. -/
theorem exists_spelled_text_declared (items items' : List Item) (item : Item)
    (declared declared' : List (String × MethodItem)) (type : MethodItem) : ∃ F text,
    Spelled [moved (moved (moved (moved (methodLine text)))), moved (commentLine f.mode),
        moved (moved (callLine f.mode))] F ∧ ∀ name,
      { m with
        items := items ++
          { item with body := .service (declared ++ (name, type) :: declared') } :: items'
        client := some { c with
          methods := before ++ { f with method := name } :: behind } }.text =
        Block.text (F name) := by
  obtain ⟨blocks, hblocks⟩ := c.exists_blocks_eq
  obtain ⟨itemBlocks, G, text, hG, hitem⟩ := spelled_itemBlocks item declared declared' type
  refine ⟨_, text, spelled_joined_two hG (spelled_implementation c before behind f)
    ([m.heading] ++ m.importBlocks ++ items.flatMap Item.blocks ++ itemBlocks)
    (items'.flatMap Item.blocks ++ blocks) [], fun name => ?_⟩
  rw [Module.text, Block.separated_eq]
  show Block.text (Block.joined ([m.heading] ++ m.importBlocks ++ (items ++
    { item with body := .service (declared ++ (name, type) :: declared') } :: items').flatMap
      Item.blocks ++ { c with methods := before ++ { f with method := name } :: behind }.blocks)) = _
  rw [hblocks, List.flatMap_append, List.flatMap_cons, hitem]
  simp only [List.append_assoc, List.cons_append, List.nil_append]

end Binding

end Colloquy
