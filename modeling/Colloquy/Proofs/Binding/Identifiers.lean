import Colloquy.Binding.Declare
import Colloquy.Proofs.Binding.Names
import Colloquy.Proofs.Source.Lexing

/-!
# Names that are identifiers

Converting the case of a text leaves a word that does not end in an underscore, a stem
(`isStem_snakeCase`, `isStem_pascalCase`), and so does a number behind it. A stem becomes an
identifier when it is escaped (`isIdentifier_escapeWord`), and no two stems become the same one, not
even up to the mark of the raw form (`eq_of_unmarked_escapeWord_eq`). Names of fields and tags are
escaped after they have been handed out. Those of items are escaped before, but they never take the
raw form, so that a number may stand behind them too (`IsPlain.candidate`).
-/

namespace Colloquy

namespace Binding

/-- The words that the generated language keeps for itself, or has kept free for later. -/
def keywords : List String :=
  ["as", "break", "const", "continue", "crate", "else", "enum", "extern", "false", "fn", "for",
    "if", "impl", "in", "let", "loop", "match", "mod", "move", "mut", "pub", "ref", "return",
    "self", "Self", "static", "struct", "super", "trait", "true", "type", "unsafe", "use", "where",
    "while", "async", "await", "dyn", "abstract", "become", "box", "do", "final", "gen", "macro",
    "override", "priv", "try", "typeof", "unsized", "virtual", "yield"]

/-- A word that is an identifier as it is. -/
structure IsPlain (name : String) : Prop where
  word : Text.isWord name = true
  not_keyword : name ∉ keywords
  ne_underscore : name ≠ "_"

/-- An identifier of the generated language. Behind the mark of the raw form keywords may stand as
well, except those that lead a path. -/
inductive IsIdentifier : String → Prop where
  | plain {name : String} : IsPlain name → IsIdentifier name
  | raw {word : String} : Text.isWord word = true → word ≠ "_" →
      word ∉ ["crate", "self", "Self", "super"] → IsIdentifier ("r#" ++ word)

/-- An identifier without the mark of the raw form, which does not tell identifiers apart. -/
def unmarked (name : String) : String :=
  if "r#".toList.isPrefixOf name.toList then String.ofList (name.toList.drop 2) else name

/-- Names that can stand side by side: identifiers that are all different. -/
structure SideBySide (names : List String) : Prop where
  identifiers : ∀ name ∈ names, IsIdentifier name
  distinct : (names.map unmarked).Nodup

theorem SideBySide.nil : SideBySide [] :=
  ⟨by simp, List.nodup_nil⟩

/-- A word that does not end in an underscore. -/
structure IsStem (name : String) : Prop where
  word : Text.isWord name = true
  last : name.toList.getLast? ≠ some '_'

variable {name name' : String} {cs : List Char} {c : Char}

/-! ### Words and numbers behind them -/

theorem isWord_iff : Text.isWord name = true ↔ name.toList ≠ [] ∧
    (∀ c ∈ name.toList.head?, Text.isIdentifierStart c = true) ∧
      ∀ c ∈ name.toList, Text.isIdentifierRest c = true := by
  unfold Text.isWord
  cases name.toList with
  | nil => simp
  | cons c rest =>
      simp only [Bool.and_eq_true, List.all_eq_true, List.head?_cons, Option.mem_some_iff,
        forall_eq', List.forall_mem_cons, ne_eq, reduceCtorEq, not_false_eq_true, true_and]
      exact ⟨fun h => ⟨h.1, Source.identifierRest_of_start h.1, h.2⟩, fun h => ⟨h.1, h.2.2⟩⟩

theorem isWord_append (h : Text.isWord name = true)
    (hrest : ∀ c ∈ name'.toList, Text.isIdentifierRest c = true) :
    Text.isWord (name ++ name') = true := by
  obtain ⟨hne, hstart, hall⟩ := isWord_iff.1 h
  refine isWord_iff.2 ⟨?_, ?_, ?_⟩
  · simp [hne]
  · rwa [String.toList_append, List.head?_append_of_ne_nil _ hne]
  · rw [String.toList_append]
    exact List.forall_mem_append.2 ⟨hall, hrest⟩

theorem isDigit_of_mem_toString {n : Nat} (h : c ∈ (toString n).toList) : c.isDigit = true := by
  have hdigits : (toString n).toList = Nat.toDigits 10 n := Nat.toList_repr
  rw [hdigits] at h
  exact Nat.isDigit_of_mem_toDigits (by decide) (by decide) h

theorem toList_toString_ne_nil (n : Nat) : (toString n).toList ≠ [] := by
  have hdigits : (toString n).toList = Nat.toDigits 10 n := Nat.toList_repr
  rw [hdigits]
  exact Nat.toDigits_ne_nil

theorem isWord_append_toString (h : Text.isWord name = true) (n : Nat) :
    Text.isWord (name ++ toString n) = true :=
  isWord_append h fun _ hc => Source.identifierRest_of_isDigit (isDigit_of_mem_toString hc)

/-- A number ends in a digit. -/
theorem exists_last_digit (name : String) (n : Nat) :
    ∃ c, (name ++ toString n).toList.getLast? = some c ∧ c.isDigit = true := by
  have hne := toList_toString_ne_nil n
  refine ⟨(toString n).toList.getLast hne, ?_, isDigit_of_mem_toString (List.getLast_mem hne)⟩
  rw [String.toList_append, List.getLast?_append_of_ne_nil _ hne, List.getLast?_eq_some_getLast hne]

/-- A text without digits has no number at its end. -/
theorem append_toString_ne (h : ∀ c ∈ name'.toList, c.isDigit = false) (name : String) (n : Nat) :
    name ++ toString n ≠ name' := by
  rintro rfl
  obtain ⟨c, hlast, hdigit⟩ := exists_last_digit name n
  rw [h c (List.mem_of_getLast? hlast)] at hdigit
  cases hdigit

theorem isDigit_eq_false_of_mem_keywords (h : name ∈ keywords) (hc : c ∈ name.toList) :
    c.isDigit = false := by
  have hall : ∀ word ∈ keywords, word.toList.all (fun c => !c.isDigit) = true := by
    decide
  simpa using List.all_eq_true.1 (hall name h) c hc

theorem IsPlain.candidate (h : IsPlain name) (k : Nat) : IsPlain (Scope.candidate name k) := by
  cases k with
  | zero => exact h
  | succ k =>
      refine ⟨isWord_append_toString h.word _, ?_, append_toString_ne (by simp) name _⟩
      intro hmem
      exact append_toString_ne (fun c hc => isDigit_eq_false_of_mem_keywords hmem hc) name _ rfl

theorem IsStem.append_toString (h : Text.isWord name = true) (n : Nat) :
    IsStem (name ++ toString n) := by
  refine ⟨isWord_append_toString h n, ?_⟩
  obtain ⟨c, hlast, hdigit⟩ := exists_last_digit name n
  rw [hlast]
  rintro ⟨⟩
  cases hdigit

theorem IsStem.candidate (h : IsStem name) (k : Nat) : IsStem (Scope.candidate name k) := by
  cases k with
  | zero => exact h
  | succ k => exact .append_toString h.word (k + 2)

theorem IsStem.ne_underscore (h : IsStem name) : name ≠ "_" := by
  rintro rfl
  exact h.last rfl

/-! ### Escaping -/

theorem not_hash_of_isWord (h : Text.isWord name = true) : '#' ∉ name.toList := by
  intro hmem
  exact absurd ((isWord_iff.1 h).2.2 _ hmem) (by decide)

theorem unmarked_of_isWord (h : Text.isWord name = true) : unmarked name = name := by
  unfold unmarked
  rw [if_neg]
  intro hmark
  obtain ⟨rest, hrest⟩ := List.isPrefixOf_iff_prefix.1 hmark
  apply not_hash_of_isWord h
  rw [← hrest]
  exact List.mem_append_left rest (by decide)

theorem unmarked_raw (word : String) : unmarked ("r#" ++ word) = word := by
  unfold unmarked
  rw [String.toList_append, if_pos (List.isPrefixOf_iff_prefix.2 (List.prefix_append _ _))]
  exact String.ofList_toList

theorem escapeWord_of_unescapable (h : name ∈ unescapableWords) : escapeWord name = name ++ "_" :=
  if_pos (List.contains_iff_mem.2 h)

/-- What escaping a stem comes to, up to the mark of the raw form. -/
theorem unmarked_escapeWord (h : IsStem name) :
    unmarked (escapeWord name) = if name ∈ unescapableWords then name ++ "_" else name := by
  by_cases hunescapable : name ∈ unescapableWords
  · rw [if_pos hunescapable, escapeWord_of_unescapable hunescapable]
    exact unmarked_of_isWord (isWord_append h.word (by simp; decide))
  · rw [if_neg hunescapable, escapeWord, if_neg (by rwa [List.contains_iff_mem])]
    split
    · exact unmarked_raw name
    · exact unmarked_of_isWord h.word

/-- No stem becomes what another one becomes: an underscore at the end only comes from escaping. -/
theorem eq_of_unmarked_escapeWord_eq (h : IsStem name) (h' : IsStem name')
    (heq : unmarked (escapeWord name) = unmarked (escapeWord name')) : name = name' := by
  have hlast (word : String) : (word ++ "_").toList.getLast? = some '_' := by
    simp
  rw [unmarked_escapeWord h, unmarked_escapeWord h'] at heq
  split at heq
  · split at heq
    · exact (String.append_left_inj "_").1 heq
    · exact absurd (hlast name) (heq ▸ h'.last)
  · split at heq
    · exact absurd (hlast name') (heq ▸ h.last)
    · exact heq

theorem keywords_subset_reservedWords : keywords ⊆ reservedWords := by
  decide

theorem isPlain_of_unescapable (h : name ∈ unescapableWords) : IsPlain (name ++ "_") := by
  have hall : ∀ word ∈ unescapableWords,
      Text.isWord (word ++ "_") = true ∧ word ++ "_" ∉ keywords ∧ word ++ "_" ≠ "_" := by
    decide
  obtain ⟨hword, hkeyword, hne⟩ := hall name h
  exact ⟨hword, hkeyword, hne⟩

theorem IsStem.isPlain (h : IsStem name) (hreserved : name ∉ reservedWords) : IsPlain name :=
  ⟨h.word, fun hmem => hreserved (keywords_subset_reservedWords hmem), h.ne_underscore⟩

/-- A stem becomes an identifier. -/
theorem isIdentifier_escapeWord (h : IsStem name) : IsIdentifier (escapeWord name) := by
  by_cases hunescapable : name ∈ unescapableWords
  · rw [escapeWord_of_unescapable hunescapable]
    exact .plain (isPlain_of_unescapable hunescapable)
  · rw [escapeWord, if_neg (by rwa [List.contains_iff_mem])]
    split
    · exact .raw h.word h.ne_underscore hunescapable
    · next hreserved => exact .plain (h.isPlain (by rwa [List.contains_iff_mem] at hreserved))

/-- A stem that does not start with a lower-case letter needs no raw form. -/
theorem isPlain_escapeWord (h : IsStem name) (hhead : ∀ c ∈ name.toList.head?, c.isLower = false) :
    IsPlain (escapeWord name) := by
  by_cases hunescapable : name ∈ unescapableWords
  · rw [escapeWord_of_unescapable hunescapable]
    exact isPlain_of_unescapable hunescapable
  · have hlower : ∀ word ∈ reservedWords, word ∉ unescapableWords →
        word.toList.head?.any Char.isLower = true := by
      decide
    have hreserved : name ∉ reservedWords := by
      intro hmem
      obtain ⟨c, hc, hlow⟩ := (Option.any_eq_true _ _).1 (hlower name hmem hunescapable)
      rw [hhead c hc] at hlow
      cases hlow
    rw [escapeWord, if_neg (by rwa [List.contains_iff_mem]),
      if_neg (by rwa [List.contains_iff_mem])]
    exact h.isPlain hreserved

/-! ### Converting the case -/

theorem toNat_lt_of_isAlphanum (h : c.isAlphanum = true) : c.toNat < 128 := by
  simp [Char.isAlphanum, Char.isAlpha, Char.isUpper, Char.isLower, Char.isDigit,
    UInt32.le_iff_toNat_le] at h
  omega

/-- What holds of all letters and digits can be checked one by one. -/
theorem of_isAlphanum {p : Char → Bool}
    (hall : ∀ n < 128, (Char.ofNat n).isAlphanum = true → p (Char.ofNat n) = true)
    (h : c.isAlphanum = true) : p c = true := by
  have hc := hall c.toNat (toNat_lt_of_isAlphanum h)
  rw [Char.ofNat_toNat] at hc
  exact hc h

theorem isAlphanum_toLower (h : c.isAlphanum = true) : c.toLower.isAlphanum = true :=
  of_isAlphanum (p := fun c => c.toLower.isAlphanum) (by decide) h

theorem isAlphanum_toUpper (h : c.isAlphanum = true) : c.toUpper.isAlphanum = true :=
  of_isAlphanum (p := fun c => c.toUpper.isAlphanum) (by decide) h

theorem isLower_toUpper (h : c.isAlphanum = true) : c.toUpper.isLower = false := by
  have hc := of_isAlphanum (p := fun c => !c.toUpper.isLower) (by decide) h
  exact Bool.not_eq_true' _ ▸ hc

theorem identifierRest_of_isAlphanum (h : c.isAlphanum = true) :
    Text.isIdentifierRest c = true := by
  rw [Text.isIdentifierRest, h]
  rfl

theorem identifierStart_of_isAlphanum (h : c.isAlphanum = true) (hdigit : c.isDigit = false) :
    Text.isIdentifierStart c = true := by
  rw [Char.isAlphanum, hdigit, Bool.or_false] at h
  rw [Text.isIdentifierStart, h]
  rfl

/-- Characters that a name is made from: they may continue an identifier, a letter or digit stands
first, and no underscore last. -/
structure Stems (cs : List Char) : Prop where
  rest : ∀ c ∈ cs, Text.isIdentifierRest c = true
  first : ∀ c ∈ cs.head?, c.isAlphanum = true
  last : cs.getLast? ≠ some '_'

/-- With what goes in front of them, the characters of a name are a word without an underscore at
its end. -/
theorem isStem_identifierStart {fallback : String} (hfallback : IsStem fallback) (h : Stems cs) :
    IsStem (identifierStart fallback cs) := by
  cases cs with
  | nil => exact hfallback
  | cons c rest =>
      have hfirst := h.first c rfl
      rw [identifierStart]
      split
      · refine ⟨isWord_iff.2 ?_, ?_⟩
        · rw [String.toList_ofList]
          exact ⟨List.cons_ne_nil _ _, by rintro _ ⟨⟩; rfl,
            List.forall_mem_cons.2 ⟨rfl, h.rest⟩⟩
        · rw [String.toList_ofList, List.getLast?_cons_cons]
          exact h.last
      · next hdigit =>
          refine ⟨isWord_iff.2 ?_, ?_⟩
          · rw [String.toList_ofList]
            refine ⟨List.cons_ne_nil _ _, ?_, h.rest⟩
            rintro _ ⟨⟩
            exact identifierStart_of_isAlphanum hfirst (Bool.eq_false_iff.2 hdigit)
          · rw [String.toList_ofList]
            exact h.last

/-- A letter or digit goes into a word, with an underscore before it where a word begins that is not
the first one; everything else is left out. -/
theorem snakeChars_cons (before : Before) (c : Char) (cs : List Char) :
    (c.isAlphanum = true ∧ ∃ next, snakeChars before (c :: cs) = c.toLower :: snakeChars next cs ∨
      before ≠ .nothing ∧ snakeChars before (c :: cs) = '_' :: c.toLower :: snakeChars next cs) ∨
    ∃ next, snakeChars before (c :: cs) = snakeChars next cs ∧
      (before = .nothing → next = .nothing) := by
  by_cases hc : c.isAlphanum = true
  · refine .inl ⟨hc, if c.isUpper then .capital else .low, ?_⟩
    rw [snakeChars, if_pos hc]
    by_cases hword : before = .separator ∨ (before = .low ∧ c.isUpper)
    · refine .inr ⟨?_, if_pos hword⟩
      rintro rfl
      simp at hword
    · exact .inl (if_neg hword)
  · refine .inr ⟨if before = .nothing then .nothing else .separator, ?_, ?_⟩
    · rw [snakeChars, if_neg hc]
    · intro h
      rw [if_pos h]

theorem getLast?_cons_ne (hc : c ≠ '_') (h : cs.getLast? ≠ some '_') :
    (c :: cs).getLast? ≠ some '_' := by
  cases cs with
  | nil => simpa using hc
  | cons d cs => rwa [List.getLast?_cons_cons]

theorem ne_underscore_of_isAlphanum (h : c.isAlphanum = true) : c ≠ '_' := by
  rintro rfl
  cases h

/-- The characters of a field name may continue an identifier, and it neither starts nor ends with
an underscore. -/
theorem stems_snakeChars (before : Before) (cs : List Char) :
    (∀ c ∈ snakeChars before cs, Text.isIdentifierRest c = true) ∧
      (before = .nothing → ∀ c ∈ (snakeChars before cs).head?, c.isAlphanum = true) ∧
      (snakeChars before cs).getLast? ≠ some '_' := by
  induction cs generalizing before with
  | nil => simp [snakeChars]
  | cons c cs ih =>
      obtain ⟨hc, next, hstep⟩ | ⟨next, hstep, hnext⟩ := snakeChars_cons before c cs
      · obtain ⟨hrest, -, hlast⟩ := ih next
        have hlower := isAlphanum_toLower hc
        have hword : ∀ d ∈ c.toLower :: snakeChars next cs, Text.isIdentifierRest d = true :=
          List.forall_mem_cons.2 ⟨identifierRest_of_isAlphanum hlower, hrest⟩
        have hend := getLast?_cons_ne (ne_underscore_of_isAlphanum hlower) hlast
        obtain hstep | ⟨hbefore, hstep⟩ := hstep
        · rw [hstep]
          refine ⟨hword, ?_, hend⟩
          rintro - _ ⟨⟩
          exact hlower
        · rw [hstep, List.getLast?_cons_cons]
          exact ⟨List.forall_mem_cons.2 ⟨rfl, hword⟩, fun h => absurd h hbefore, hend⟩
      · obtain ⟨hrest, hfirst, hlast⟩ := ih next
        rw [hstep]
        exact ⟨hrest, fun h => hfirst (hnext h), hlast⟩

theorem isStem_snakeCase (name : String) : IsStem (snakeCase name) := by
  obtain ⟨hrest, hfirst, hlast⟩ := stems_snakeChars .nothing name.toList
  exact isStem_identifierStart ⟨rfl, by decide⟩ ⟨hrest, hfirst rfl, hlast⟩

/-- Type names are made of letters and digits only. -/
theorem pascalChars_isAlphanum (wordStart : Bool) (cs : List Char) :
    ∀ c ∈ pascalChars wordStart cs, c.isAlphanum = true := by
  induction cs generalizing wordStart with
  | nil => exact fun _ h => absurd h List.not_mem_nil
  | cons c cs ih =>
      rw [pascalChars]
      split
      · next hc =>
          refine List.forall_mem_cons.2 ⟨?_, ih false⟩
          split
          · exact isAlphanum_toUpper hc
          · exact hc
      · exact ih true

theorem stems_of_isAlphanum (h : ∀ c ∈ cs, c.isAlphanum = true) : Stems cs where
  rest c hc := identifierRest_of_isAlphanum (h c hc)
  first c hc := h c (List.mem_of_mem_head? hc)
  last hlast := ne_underscore_of_isAlphanum (h _ (List.mem_of_getLast? hlast)) rfl

theorem isStem_pascalCase (name : String) : IsStem (pascalCase name) :=
  isStem_identifierStart ⟨rfl, by decide⟩ (stems_of_isAlphanum (pascalChars_isAlphanum true _))

theorem pascalChars_head (cs : List Char) :
    ∀ c ∈ (pascalChars true cs).head?, c.isLower = false := by
  induction cs with
  | nil => exact fun _ h => absurd h (by simp [pascalChars])
  | cons c cs ih =>
      rw [pascalChars]
      split
      · next hc =>
          rintro _ ⟨⟩
          exact isLower_toUpper hc
      · exact ih

/-- No type name starts with a lower-case letter. -/
theorem pascalCase_head (name : String) :
    ∀ c ∈ (pascalCase name).toList.head?, c.isLower = false := by
  have hchars := pascalChars_head name.toList
  unfold pascalCase
  cases hcs : pascalChars true name.toList with
  | nil =>
      rintro _ ⟨⟩
      rfl
  | cons c cs =>
      rw [hcs] at hchars
      rw [identifierStart, String.toList_ofList]
      split
      · rintro _ ⟨⟩
        rfl
      · exact hchars

/-- The name made from a hint is an identifier as it is. -/
theorem isPlain_escapeWord_pascalCase (hint : String) : IsPlain (escapeWord (pascalCase hint)) :=
  isPlain_escapeWord (isStem_pascalCase hint) (pascalCase_head hint)

/-! ### Names that are handed out -/

theorem isPlain_allocate {scope : Scope} {base : String} (h : IsPlain base) :
    IsPlain (scope.allocate base).1 := by
  obtain ⟨k, hk⟩ := scope.exists_candidate_eq_free base
  show IsPlain (scope.free base)
  rw [← hk]
  exact h.candidate k

theorem isPlain_of_mem_allocateAll {scope : Scope} {bases : List String}
    (h : ∀ base ∈ bases, IsPlain base) (hname : name ∈ (scope.allocateAll bases).1) :
    IsPlain name := by
  obtain ⟨base, hbase, k, rfl⟩ := Scope.exists_candidate_of_mem_allocateAll hname
  exact (h base hbase).candidate k

/-- Stems that have been handed out in a row can stand side by side when they are escaped. -/
theorem sideBySide_allocateAll {scope : Scope} {wishes : List String}
    (h : ∀ wish ∈ wishes, IsStem wish) :
    SideBySide ((scope.allocateAll wishes).1.map escapeWord) := by
  have hstem : ∀ name ∈ (scope.allocateAll wishes).1, IsStem name := by
    intro name hname
    obtain ⟨wish, hwish, k, rfl⟩ := Scope.exists_candidate_of_mem_allocateAll hname
    exact (h wish hwish).candidate k
  refine ⟨?_, ?_⟩
  · intro name hname
    obtain ⟨stem, hmem, rfl⟩ := List.mem_map.1 hname
    exact isIdentifier_escapeWord (hstem stem hmem)
  · rw [List.map_map]
    apply (scope.takes_allocateAll wishes).nodup.map_on
    intro stem hmem stem' hmem' heq
    exact eq_of_unmarked_escapeWord_eq (hstem stem hmem) (hstem stem' hmem') heq

theorem isStem_fieldWish (label : Label) : IsStem (fieldWish label) := by
  cases label with
  | named name => exact isStem_snakeCase name
  | numbered id | positional id =>
      show IsStem ("field_" ++ toString id.toNat)
      exact .append_toString rfl _

theorem isStem_tagWish (label : Label) : IsStem (tagWish label) := by
  cases label with
  | named name => exact isStem_pascalCase name
  | numbered id | positional id =>
      show IsStem ("Tag" ++ toString id.toNat)
      exact .append_toString rfl _

theorem isPlain_wishedName (e : Entry) (i : Nat) : IsPlain (wishedName e i) := by
  unfold wishedName
  split
  · next name _ => exact isPlain_escapeWord_pascalCase name
  · show IsPlain (escapeWord ("Table" ++ toString i))
    apply isPlain_escapeWord (.append_toString rfl i)
    intro c hc
    obtain rfl : 'T' = c := by simpa using hc
    rfl

end Binding
end Colloquy
