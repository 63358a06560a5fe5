import BraceTemplate.Proofs.Expr.Accepting

/-!
# Words in quotes

Inside of quotes a hyphen is a minus sign as it is anywhere else, so the text between quotes is the
value of its source exactly if it is without hyphens. With hyphens the source is the difference of
the words between them, and each quote belongs to the word beside it.
-/

namespace BraceTemplate

/-! ### Words between hyphens -/

/-- The words between the hyphens of a text consist of its characters, hyphens left out. -/
theorem mem_of_mem_splitOn {cs word : List Char} (h : word ∈ cs.splitOn '-') :
    ∀ c ∈ word, c ∈ cs ∧ c ≠ '-' := by
  induction cs generalizing word with
  | nil =>
    rw [List.splitOn_nil, List.mem_singleton] at h
    simp [h]
  | cons first cs ih =>
    have hrest : ∀ word ∈ cs.splitOn '-', ∀ c ∈ word, c ∈ first :: cs ∧ c ≠ '-' :=
      fun word hword c hc => (ih hword c hc).imp_left (List.mem_cons_of_mem _)
    rw [List.splitOn_cons_eq_if_modifyHead] at h
    split at h
    · rcases List.mem_cons.1 h with rfl | h
      · simp
      · exact hrest word h
    · next hfirst =>
      obtain ⟨head, tail, hsplit⟩ := List.exists_cons_of_ne_nil (List.splitOn_ne_nil '-' cs)
      rw [hsplit] at hrest
      rw [hsplit, List.modifyHead_cons] at h
      rcases List.mem_cons.1 h with rfl | h
      · refine List.forall_mem_cons.2 ⟨⟨List.mem_cons_self, ?_⟩, hrest head List.mem_cons_self⟩
        simpa using hfirst
      · exact hrest word (List.mem_cons_of_mem _ h)

namespace Token

/-- What a word is read as. Nothing is read from a word without characters. -/
def ofWord (word : List Char) : List Token :=
  if word.isEmpty then [] else [literal (String.ofList word)]

/-- What words with hyphens between them are read as. -/
def ofWords (words : List (List Char)) : List Token :=
  [operator .sub].intercalate (words.map ofWord)

/-- A single word is read as itself. -/
theorem ofWords_singleton (word : List Char) : ofWords [word] = ofWord word := by
  simp [ofWords]

/-- Behind the first word come a minus and the others. -/
theorem ofWords_cons (word : List Char) {words : List (List Char)} (h : words ≠ []) :
    ofWords (word :: words) = ofWord word ++ operator .sub :: ofWords words := by
  rw [ofWords, List.map_cons, List.intercalate_cons_of_ne_nil (by simpa using h), List.append_assoc]
  rfl

/-- A word up to the end of its run is one literal. -/
theorem lexemes_word_append {word rest : List Char} (hword : ∀ c ∈ word, isWordChar c = true)
    (hrest : EndsRun rest) :
    lexemes (word ++ rest) = (ofWord word).map Lexeme.token ++ lexemes rest := by
  cases word with
  | nil => rfl
  | cons first others =>
    have hnone : ∀ c ∈ ([] : List Char), isBlank c = true := by simp
    have hread := lexeme?_literal hnone ⟨List.cons_ne_nil first others, hword⟩ hnone hrest
    exact lexemes_of_some hread

/-- A hyphen is read as a minus wherever it stands. -/
theorem lexemes_hyphen (rest : List Char) :
    lexemes ('-' :: rest) = .token (.operator .sub) :: lexemes rest :=
  lexemes_of_some
    (@lexeme?_symbol [] ('-' :: rest) rest _ (by simp) (by simp [EndsRun, isSymbolChar]) rfl)

/-- Hyphens between words are minus signs. -/
theorem lexemes_intercalate {words : List (List Char)}
    (hwords : ∀ word ∈ words, ∀ c ∈ word, isWordChar c = true) :
    lexemes (['-'].intercalate words) = (ofWords words).map Lexeme.token := by
  have hnil : lexemes [] = [] := lexemes_of_blank (by simp)
  induction words with
  | nil => exact hnil
  | cons word words ih =>
    obtain ⟨hword, hrest⟩ := List.forall_mem_cons.1 hwords
    by_cases hlast : words = []
    · subst hlast
      have hread := @lexemes_word_append word [] hword (by simp [EndsRun])
      rw [List.append_nil, hnil, List.append_nil] at hread
      rw [ofWords_singleton, ← hread, List.intercalate_singleton]
    · have hhyphen : EndsRun ('-' :: ['-'].intercalate words) := by simp [EndsRun, isSymbolChar]
      rw [List.intercalate_cons_of_ne_nil hlast, List.append_assoc, List.singleton_append,
        lexemes_word_append hword hhyphen, lexemes_hyphen, ih hrest, ofWords_cons word hlast,
        List.map_append, List.map_cons]

/-- As many values are left as there are words that have characters, and every hyphen takes one. -/
theorem totalGain_ofWords {words : List (List Char)} (h : words ≠ []) :
    totalGain ((ofWords words).filterMap atom?) + words.length =
      1 + words.countP fun word => !word.isEmpty := by
  induction words with
  | nil => exact absurd rfl h
  | cons word words ih =>
    have hword : ∀ tokens : List Token, totalGain ((ofWord word ++ tokens).filterMap atom?) =
        (if word.isEmpty then 0 else 1) + totalGain (tokens.filterMap atom?) := by
      intro tokens
      cases word with
      | nil => simp [ofWord]
      | cons first others => exact totalGain_filterMap_cons _ tokens
    by_cases hlast : words = []
    · subst hlast
      have hgain := hword []
      rw [List.append_nil] at hgain
      rw [ofWords_singleton, hgain]
      cases word <;> simp [totalGain]
    · have hrest := ih hlast
      rw [ofWords_cons word hlast, hword, totalGain_filterMap_cons, List.countP_cons,
        List.length_cons]
      have hsub : ((operator Operator.sub).atom?.map Atom.gain).getD 0 = -1 := rfl
      rw [hsub]
      cases word <;> simp <;> omega

end Token

/-! ### Differences -/

namespace Tree

/-- A word taken from what is left of it. -/
def minus (left : Tree) (word : List Char) : Tree :=
  .binary .sub rfl left (.literal (String.ofList word))

/-- The difference of words, from the first one on. -/
def difference (first : List Char) (others : List (List Char)) : Tree :=
  others.foldl minus (.literal (String.ofList first))

/-- A difference is a number, whatever its words stand for. -/
theorem exists_value_difference (scope : Scope) (first : List Char) {others : List (List Char)}
    (h : others ≠ []) : ∃ x, (difference first others).value scope = .number x := by
  obtain ⟨front, last, rfl⟩ := (List.eq_nil_or_concat' others).resolve_left h
  rw [difference, List.foldl_append]
  exact ⟨_, rfl⟩

end Tree

/-- A plain word is an operand. -/
theorem Infix.ofWord {word : List Char} (h : Token.IsPlainWord word) :
    Infix operandStrength (.literal (String.ofList word)) (Token.ofWord word) := by
  rw [Token.ofWord, if_neg (by simpa using h.1)]
  exact .word (by rwa [String.toList_ofList])

/-- Words behind a difference, each with a hyphen in front of it, make one difference with it. -/
theorem Infix.minus {left : Tree} {tokens : List Token} (hleft : Infix 3 left tokens)
    {words : List (List Char)} (hne : words ≠ [])
    (hwords : ∀ word ∈ words, Token.IsPlainWord word) :
    Infix 3 (words.foldl Tree.minus left) (tokens ++ .operator .sub :: Token.ofWords words) := by
  induction words generalizing left tokens with
  | nil => exact absurd rfl hne
  | cons word words ih =>
    obtain ⟨hword, hrest⟩ := List.forall_mem_cons.1 hwords
    have hminus : Infix 3 (left.minus word) (tokens ++ .operator .sub :: Token.ofWord word) :=
      .binary (by decide) rfl hleft (.stronger (.ofWord hword))
    by_cases hlast : words = []
    · subst hlast
      rwa [Token.ofWords_singleton]
    · rw [Token.ofWords_cons word hlast]
      simpa using ih hminus hlast hrest

/-- Plain words with minuses in between are the infix expression of their difference. -/
theorem Tree.infix_difference {first : List Char} {others : List (List Char)}
    (hwords : ∀ word ∈ first :: others, Token.IsPlainWord word) :
    Infix 1 (difference first others) (Token.ofWords (first :: others)) := by
  obtain ⟨hfirst, hothers⟩ := List.forall_mem_cons.1 hwords
  have hliteral : Infix 3 (.literal (String.ofList first)) (Token.ofWord first) :=
    .stronger (.stronger (.ofWord hfirst))
  refine .stronger (.stronger ?_)
  by_cases hlast : others = []
  · subst hlast
    rwa [Token.ofWords_singleton]
  · rw [Token.ofWords_cons first hlast]
    exact hliteral.minus hlast hothers

/-! ### Quotes -/

/-- A text over the letters, digits, underscores and hyphens. -/
def Quotable (text : List Char) : Prop :=
  ∀ c ∈ text, c.isAlphanum = true ∨ c = '_' ∨ c = '-'

instance (text : List Char) : Decidable (Quotable text) :=
  decidable_of_iff (text.all (fun c => c.isAlphanum || c == '_' || c == '-') = true)
    (by simp [Quotable, or_assoc])

/-- A quotable text is found between its quotes. -/
theorem quoted?_quote {inner : List Char} (h : Quotable inner) :
    quoted? ('\'' :: (inner ++ ['\''])) = some inner := by
  have hall : inner.reverse.all (fun c => c.isAlphanum || c == '_' || c == '-') = true := by
    rw [List.all_reverse, List.all_eq_true]
    intro c hc
    simpa [or_assoc] using h c hc
  rw [quoted?, List.reverse_append, List.reverse_singleton, List.singleton_append]
  simp only [if_pos hall, List.reverse_reverse]

/-- No numeral begins with a quote. -/
theorem numberOf?_quote {cs : List Char} (h : ∀ c ∈ cs, isBlank c = false) :
    numberOf? (String.ofList ('\'' :: cs)) = none := by
  have htrim : trim ('\'' :: cs) = '\'' :: cs := by
    have hnone : ∀ c ∈ ([] : List Char), isBlank c = true := by simp
    have hall : ∀ c ∈ '\'' :: cs, isBlank c = false := List.forall_mem_cons.2 ⟨by decide, h⟩
    simpa using Token.trim_append hnone hnone hall
  rw [numberOf?, String.toList_ofList, htrim]
  rfl

/-- A word in single quotes. -/
def inQuotes (word : String) : String :=
  "'" ++ word ++ "'"

/-- The characters of a word in quotes are those of the word, with a quote at both ends. -/
theorem toList_inQuotes (word : String) :
    (inQuotes word).toList = '\'' :: (word.toList ++ ['\'']) := by
  simp [inQuotes]

/-- Apart from the hyphen, the characters of a text that may be quoted are those of words. -/
theorem isWordChar_of_ne_hyphen {c : Char} (h : c.isAlphanum = true ∨ c = '_' ∨ c = '-')
    (hne : c ≠ '-') : Token.isWordChar c = true := by
  rcases h with h | rfl | rfl
  · simp [Token.isWordChar, h]
  · decide
  · exact absurd rfl hne

/-- The words between the hyphens of a word in quotes are ones that literals are made of. -/
theorem isWordChar_of_mem_splitOn_inQuotes {word : String} (hword : Quotable word.toList) :
    ∀ part ∈ (inQuotes word).toList.splitOn '-', ∀ c ∈ part, Token.isWordChar c = true := by
  intro part hpart c hc
  obtain ⟨hmem, hne⟩ := mem_of_mem_splitOn hpart c hc
  rw [toList_inQuotes, List.mem_cons, List.mem_append, List.mem_singleton] at hmem
  rcases hmem with rfl | hmem | rfl
  · decide
  · exact isWordChar_of_ne_hyphen (hword c hmem) hne
  · decide

/-- Without hyphens, a word in quotes is the literal for the word itself, whatever a scope binds. -/
theorem literalValue_inQuotes (scope : Scope) {word : String} (hword : Quotable word.toList)
    (hhyphen : '-' ∉ word.toList) :
    literalValue scope (inQuotes word) = .string word := by
  have hchars : ∀ c ∈ word.toList ++ ['\''], isBlank c = false := by
    intro c hc
    apply Token.isBlank_eq_false_of_isWordChar
    rcases List.mem_append.1 hc with hc | hc
    · exact isWordChar_of_ne_hyphen (hword c hc) fun heq => hhyphen (heq ▸ hc)
    · rw [List.mem_singleton.1 hc]
      decide
  have hnumber : numberOf? (inQuotes word) = none := by
    have hquote := numberOf?_quote hchars
    rwa [← toList_inQuotes, String.ofList_toList] at hquote
  rw [literalValue, hnumber, toList_inQuotes, quoted?_quote hword]
  simp

namespace Expression

/-- A source of words with hyphens between them is accepted exactly if every word has characters.
Its value is the difference of the words then. -/
theorem compile_words {source : String} {first : List Char} {others : List (List Char)}
    (hsource : source.toList = ['-'].intercalate (first :: others))
    (hwords : ∀ word ∈ first :: others, ∀ c ∈ word, Token.isWordChar c = true) :
    ((∃ expression, compile source = .ok expression) ↔ [] ∉ first :: others) ∧
      ∀ expression, compile source = .ok expression →
        ∀ scope, expression.evaluate scope = (Tree.difference first others).value scope := by
  have hlexemes :
      Token.lexemes source.toList = (Token.ofWords (first :: others)).map Lexeme.token := by
    rw [hsource]
    exact Token.lexemes_intercalate hwords
  have hfull : ∀ expression, compile source = .ok expression → [] ∉ first :: others := by
    intro expression hcompile hempty
    obtain ⟨tokens, htokens, hperm, hone⟩ := exists_tokens_of_compile hcompile
    obtain rfl := eq_of_map_token (htokens.symm.trans hlexemes)
    have hgain := Token.totalGain_ofWords (List.cons_ne_nil first others)
    rw [← totalGain_perm hperm, hone] at hgain
    -- Every hyphen takes a value, and the word without characters leaves none.
    have hlt : (first :: others).countP (fun word => !word.isEmpty) < (first :: others).length :=
      List.countP_le_length.lt_of_ne fun heq => by simpa using List.countP_eq_length.1 heq [] hempty
    omega
  have hatoms :
      [] ∉ first :: others → atomsOf source = .ok (Tree.difference first others).atoms := by
    intro hne
    refine atomsOf_infix (Tree.infix_difference fun word hword => ⟨?_, hwords word hword⟩) hlexemes
    rintro rfl
    exact hne hword
  refine ⟨⟨fun ⟨expression, hcompile⟩ => hfull expression hcompile, fun hne => ?_⟩, ?_⟩
  · refine ⟨⟨source, idOf source, (Tree.difference first others).atoms⟩, ?_⟩
    rw [compile, hatoms hne]
    rfl
  · intro expression hcompile scope
    have hsame := (of_compile hcompile).2.2
    rw [hatoms (hfull expression hcompile)] at hsame
    have htake := takeOperand_tree scope (Tree.difference first others) []
    rw [List.append_nil] at htake
    rw [evaluate, evaluateAtoms, ← Except.ok.inj hsame, htake]

/-- The source of a word in quotes is accepted exactly if no two hyphens stand side by side in the
word. Its value is the word in every scope exactly if the word is without hyphens. With hyphens the
source is a difference, the quotes being a part of its first and of its last word, and its value is
a number. -/
theorem compile_inQuotes {word : String} (hword : Quotable word.toList) :
    ((∃ expression, compile (inQuotes word) = .ok expression) ↔
        [] ∉ (inQuotes word).toList.splitOn '-') ∧
      ((∃ expression, compile (inQuotes word) = .ok expression ∧
        ∀ scope, expression.evaluate scope = .string word) ↔ '-' ∉ word.toList) ∧
      ('-' ∈ word.toList → ∀ expression, compile (inQuotes word) = .ok expression →
        ∃ first others, (inQuotes word).toList.splitOn '-' = first :: others ∧
          ∀ scope, expression.evaluate scope = (Tree.difference first others).value scope ∧
            ∃ x, expression.evaluate scope = .number x) := by
  obtain ⟨first, others, hsplit⟩ := List.exists_cons_of_ne_nil
    (List.splitOn_ne_nil '-' (inQuotes word).toList)
  have hsource : (inQuotes word).toList = ['-'].intercalate (first :: others) := by
    rw [← hsplit, List.intercalate_splitOn]
  have hparts := isWordChar_of_mem_splitOn_inQuotes hword
  rw [hsplit] at hparts
  obtain ⟨haccepted, hvalue⟩ := compile_words hsource hparts
  have hnumber : '-' ∈ word.toList → ∀ scope, ∃ x,
      (Tree.difference first others).value scope = .number x := by
    intro hhyphen scope
    refine Tree.exists_value_difference scope first ?_
    rintro rfl
    -- The source would be one word of a literal.
    have hmem : '-' ∈ first := by
      have hall : '-' ∈ (inQuotes word).toList := by simp [toList_inQuotes, hhyphen]
      simpa [hsource] using hall
    exact absurd (hparts first List.mem_cons_self '-' hmem) (by decide)
  rw [hsplit]
  refine ⟨haccepted, ⟨?_, fun hhyphen => ?_⟩, fun hhyphen expression hcompile => ?_⟩
  · rintro ⟨expression, hcompile, hstring⟩ hhyphen
    obtain ⟨x, hx⟩ := hnumber hhyphen []
    rw [← hvalue expression hcompile, hstring] at hx
    cases hx
  · -- There is one part only, the source itself.
    have hnone : '-' ∉ (inQuotes word).toList := by simp [toList_inQuotes, hhyphen]
    rw [List.splitOn_eq_singleton hnone] at hsplit
    obtain ⟨rfl, rfl⟩ := List.cons.inj hsplit
    obtain ⟨expression, hcompile⟩ := haccepted.2 (by simp [toList_inQuotes])
    refine ⟨expression, hcompile, fun scope => ?_⟩
    rw [hvalue expression hcompile]
    simpa [Tree.difference, Tree.value] using literalValue_inQuotes scope hword hhyphen
  · refine ⟨first, others, rfl, fun scope => ⟨hvalue expression hcompile scope, ?_⟩⟩
    rw [hvalue expression hcompile]
    exact hnumber hhyphen scope

/-- A word without hyphens, and words with two of them apart and side by side. -/
theorem compile_inQuotes_hyphens :
    (∃ expression, compile (inQuotes "up_2") = .ok expression ∧
        ∀ scope, expression.evaluate scope = .string "up_2") ∧
      (∃ expression, compile (inQuotes "a-b-c") = .ok expression ∧
        ∀ scope, expression.evaluate scope =
          (Tree.difference ['\'', 'a'] [['b'], ['c', '\'']]).value scope) ∧
      ¬∃ expression, compile (inQuotes "a--c") = .ok expression := by
  have hquotable : ∀ word ∈ ["up_2", "a-b-c", "a--c"], Quotable word.toList := by decide
  obtain ⟨-, hplain, -⟩ := compile_inQuotes (hquotable "up_2" (by simp))
  obtain ⟨hapart, -, hvalue⟩ := compile_inQuotes (hquotable "a-b-c" (by simp))
  obtain ⟨hbeside, -, -⟩ := compile_inQuotes (hquotable "a--c" (by simp))
  refine ⟨hplain.2 (by decide), ?_, fun hcompile => hbeside.1 hcompile (by decide)⟩
  obtain ⟨expression, hcompile⟩ := hapart.2 (by decide)
  obtain ⟨first, others, hsplit, hdifference⟩ := hvalue (by decide) expression hcompile
  obtain ⟨rfl, rfl⟩ := List.cons.inj (hsplit.symm.trans
    (show _ = [['\'', 'a'], ['b'], ['c', '\'']] by decide))
  exact ⟨expression, hcompile, fun scope => (hdifference scope).1⟩

/-- A hyphen between the quotes is a minus sign: one word is taken from the other. -/
theorem evaluate_quoted_hyphen :
    quoted? "'a-b'".toList = some "a-b".toList ∧
      ∃ expression, compile "'a-b'" = .ok expression ∧
        ∀ scope, expression.evaluate scope ≠ .string "a-b" := by
  have hparts : ∀ part ∈ [['\'', 'a'], ['b', '\'']], Token.IsPlainWord part := by decide
  have hsource : "'a-b'".toList = ['-'].intercalate [['\'', 'a'], ['b', '\'']] := by decide
  obtain ⟨haccepted, hvalue⟩ := compile_words hsource fun part hpart => (hparts part hpart).2
  obtain ⟨expression, hcompile⟩ := haccepted.2 (by decide)
  refine ⟨by decide, expression, hcompile, fun scope hstring => ?_⟩
  obtain ⟨x, hx⟩ := Tree.exists_value_difference scope ['\'', 'a'] (List.cons_ne_nil ['b', '\''] [])
  rw [← hvalue expression hcompile, hstring] at hx
  cases hx

end Expression

end BraceTemplate
