import BraceTemplate.Proofs.Expr.Spelling

/-!
# Tokens with blanks between them

Blanks between the spellings of tokens keep them apart: no two symbols run together, however they
would be read side by side, and no literal goes on behind a blank. Only two literals in a row would
be read as one run. So every list of tokens without such neighbours is read back from its spaced
spellings.
-/

namespace BraceTemplate

namespace Token

/-- Whether a token is a literal. -/
def isLiteral : Token → Bool
  | literal _ => true
  | _ => false

/-- Not both of two tokens are literals. -/
def NotBothLiterals (first second : Token) : Prop :=
  ¬(first.isLiteral = true ∧ second.isLiteral = true)

instance (first second : Token) : Decidable (NotBothLiterals first second) :=
  inferInstanceAs (Decidable (¬_))

/-- A text in which some tokens are spelled out, each with one of its spellings, and joined by
blanks: at least one between neighbours and none at the ends. -/
inductive Spaced : List Token → List Char → Prop
  | nil : Spaced [] []
  | single {token : Token} {spelling : List Char} (hspelling : spelling ∈ token.spellings) :
    Spaced [token] spelling
  | cons {token next : Token} {tokens : List Token} {spelling gap rest : List Char}
      (hspelling : spelling ∈ token.spellings) (hgap : gap ≠ [])
      (hblanks : ∀ c ∈ gap, isBlank c = true)
      (hrest : Spaced (next :: tokens) rest) :
      Spaced (token :: next :: tokens) (spelling ++ gap ++ rest)

/-- A token that is no literal is not the literal of any text. -/
theorem ne_literal {token : Token} (h : token.isLiteral = false) (text : String) :
    token ≠ literal text := by
  rintro rfl
  cases h

/-- A text in which tokens are spelled out begins with a symbol if its first token is no literal. -/
theorem Spaced.endsRun_append {token : Token} {tokens : List Token} {body : List Char}
    (h : Spaced (token :: tokens) body) (hliteral : token.isLiteral = false) (after : List Char) :
    EndsRun (body ++ after) := by
  cases h with
  | single hspelling => exact endsRun_spelling_append hspelling (ne_literal hliteral) after
  | cons hspelling hgap hblanks hrest =>
    rw [List.append_assoc, List.append_assoc]
    exact endsRun_spelling_append hspelling (ne_literal hliteral) _

/-- In front of blanks a spelling is read as its token, unless a literal goes on behind them. -/
theorem lexemes_spelling_append {token : Token} {before spelling blanks rest : List Char}
    (hplain : PlainLiterals [token]) (hbefore : ∀ c ∈ before, isBlank c = true)
    (hspelling : spelling ∈ token.spellings) (hblanks : ∀ c ∈ blanks, isBlank c = true)
    (hgap : blanks = [] → rest = []) (hends : token.isLiteral = true → EndsRun rest) :
    lexemes (before ++ spelling ++ (blanks ++ rest)) =
      .token token :: lexemes (blanks ++ rest) := by
  cases hliteral : token.isLiteral with
  | true =>
    cases token with
    | literal text =>
      rw [List.mem_singleton.1 hspelling]
      have hrest : EndsRun (trimLeft (blanks ++ rest)) := by
        rw [trimLeft_append_of_blank hblanks, trimLeft_of_endsRun (hends hliteral)]
        exact hends hliteral
      rw [lexemes_literal_append hbefore (hplain text List.mem_cons_self) hrest,
        String.ofList_toList]
    | operator | groupOpen | groupClose => cases hliteral
  | false =>
    refine lexemes_symbol_append hbefore hspelling (ne_literal hliteral) (.inr fun c hc => ?_)
    cases blanks with
    | nil => simp [hgap rfl] at hc
    | cons blank blanks =>
      obtain rfl : blank = c := by simpa using hc
      exact notMem_of_isSymbolChar_eq_false
        (isSymbolChar_eq_false_of_isBlank (hblanks blank List.mem_cons_self))

/-- The tokens of a spaced text are read one after another, with the blanks in between dropped. A
literal ends at the blank behind it. -/
theorem lexemes_of_spaced {tokens : List Token} {body : List Char} (h : Spaced tokens body)
    (hplain : PlainLiterals tokens) (hapart : tokens.IsChain NotBothLiterals)
    {before after : List Char}
    (hbefore : ∀ c ∈ before, isBlank c = true) (hafter : ∀ c ∈ after, isBlank c = true) :
    lexemes (before ++ body ++ after) = tokens.map Lexeme.token := by
  induction h generalizing before with
  | nil =>
    rw [List.append_nil]
    exact lexemes_of_blank fun c hc => (List.mem_append.1 hc).elim (hbefore c) (hafter c)
  | @single token spelling hspelling =>
    have hread :=
      @lexemes_spelling_append token before spelling after [] hplain hbefore hspelling hafter
      (fun _ => rfl) (fun _ => by simp [EndsRun])
    rw [List.append_nil] at hread
    rw [hread, lexemes_of_blank hafter]
    rfl
  | @cons token next tokens spelling gap rest hspelling hgap hblanks hrest ih =>
    obtain ⟨hneighbours, hapartRest⟩ := List.isChain_cons_cons.1 hapart
    have hplainHead : PlainLiterals [token] := fun text htext => hplain text (by simp_all)
    have hplainRest : PlainLiterals (next :: tokens) := fun text htext =>
      hplain text (List.mem_cons_of_mem _ htext)
    have hends : token.isLiteral = true → EndsRun (rest ++ after) := fun hliteral =>
      hrest.endsRun_append (Bool.eq_false_iff.2 fun hnext => hneighbours ⟨hliteral, hnext⟩) after
    have hread :=
      lexemes_spelling_append hplainHead hbefore hspelling hblanks
        (fun hnil => absurd hnil hgap) hends
    have htext : before ++ (spelling ++ gap ++ rest) ++ after =
        before ++ spelling ++ (gap ++ (rest ++ after)) := by
      simp only [List.append_assoc]
    rw [htext, hread, ← List.append_assoc, ih hplainRest hapartRest hblanks]
    rfl

/-- Scanning undoes spacing: every list of tokens whose literals are plain words and of which no two
neighbours are literals is found again, and nothing else, in every text in which it is spelled out
with blanks in between. -/
theorem scan_of_spaced {tokens : List Token} {body before after : List Char}
    (h : Spaced tokens body)
    (hplain : PlainLiterals tokens) (hapart : tokens.IsChain NotBothLiterals)
    (hbefore : ∀ c ∈ before, isBlank c = true) (hafter : ∀ c ∈ after, isBlank c = true) :
    (scan (String.ofList (before ++ body ++ after))).map Scanned.lexeme =
      tokens.map Lexeme.token := by
  rw [scan, String.toList_ofList]
  exact lexemes_of_spaced h hplain hapart hbefore hafter

/-- Among the neighbours here are `<` and `=`, `!` and `=`, and `&` twice. -/
theorem scan_of_spaced_close_neighbours :
    let tokens :=
      [operator .less, operator .equal, literal "a", operator .not, operator .equal, groupClose,
      literal "'b", operator .and, operator .and]
    let body := "< == a !\t=\u3000) 'b & &".toList
    Spaced tokens body ∧ PlainLiterals tokens ∧ tokens.IsChain NotBothLiterals ∧
      (scan (String.ofList ([' ', '\n'] ++ body ++ []))).map Scanned.lexeme =
        tokens.map Lexeme.token := by
  intro tokens body
  have hblanks : ∀ c ∈ [' ', '\n', '\t', '\u3000'], isBlank c = true :=
    List.all_eq_true.1 (by decide)
  have hgap : ∀ gap ⊆ [' ', '\n', '\t', '\u3000'], ∀ c ∈ gap, isBlank c = true :=
    fun gap hsubset c hc => hblanks c (hsubset hc)
  have hspace := hgap [' '] (by simp)
  have hbody : Spaced tokens body :=
    @Spaced.cons _ _ _ ['<'] [' '] _ (by decide) (by simp) hspace <|
    @Spaced.cons _ _ _ ['=', '='] [' '] _ (by decide) (by simp) hspace <|
    @Spaced.cons _ _ _ ['a'] [' '] _ (by decide) (by simp) hspace <|
    @Spaced.cons _ _ _ ['!'] ['\t'] _ (by decide) (by simp) (hgap _ (by simp)) <|
    @Spaced.cons _ _ _ ['='] ['\u3000'] _ (by decide) (by simp) (hgap _ (by simp)) <|
    @Spaced.cons _ _ _ [')'] [' '] _ (by decide) (by simp) hspace <|
    @Spaced.cons _ _ _ ['\'', 'b'] [' '] _ (by decide) (by simp) hspace <|
    @Spaced.cons _ _ _ ['&'] [' '] _ (by decide) (by simp) hspace <|
    @Spaced.single _ ['&'] (by decide)
  have hplain : PlainLiterals tokens := by
    intro text htext
    have htext : text = "a" ∨ text = "'b" := by simpa [tokens] using htext
    rcases htext with rfl | rfl <;> decide
  have hapart : tokens.IsChain NotBothLiterals := by decide
  exact ⟨hbody, hplain, hapart, scan_of_spaced hbody hplain hapart (hgap _ (by simp)) (by simp)⟩

end Token

end BraceTemplate
