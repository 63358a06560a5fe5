import Mathlib.Data.Bool.AllAny
import Mathlib.Data.List.Chain
import BraceTemplate.Expr.Token

/-!
# Spelling out tokens

A token has one or two spellings. A list of tokens is written by putting a spelling of each one
after the other, with any blanks before, between and behind them. Scanning such a text gives the
tokens back whenever no two neighbours can run together; in an infix expression they never can.
-/

namespace BraceTemplate

/-- The texts that an operator is read from. -/
def Operator.spellings : Operator → List String
  | .equal => ["=", "=="]
  | .and => ["&", "&&"]
  | .or => ["|", "||"]
  | op => [op.symbol]

namespace Token

/-- The texts that a token is read from. -/
def spellings : Token → List (List Char)
  | literal text => [text.toList]
  | operator op => op.spellings.map String.toList
  | groupOpen => [['(']]
  | groupClose => [[')']]

/-- Whether a token can begin an operand. -/
def startsOperand : Token → Bool
  | literal _ | groupOpen | operator .not => true
  | _ => false

/-- Whether a token can end an operand. -/
def endsOperand : Token → Bool
  | literal _ | groupClose => true
  | _ => false

/-- Two tokens may be neighbours if an operand that ends is not followed by another operand, and
everything else is. -/
def MayPrecede (first second : Token) : Prop :=
  second.startsOperand = !first.endsOperand

/-- The words that operands are made of: letters, digits, underscores and single quotes. -/
def IsPlainWord (word : List Char) : Prop :=
  word ≠ [] ∧ ∀ c ∈ word, isWordChar c = true

instance (word : List Char) : Decidable (IsPlainWord word) :=
  decidable_of_iff (word ≠ [] ∧ word.all isWordChar = true) (and_congr_right' List.all_eq_true)

/-- The literals among some tokens are plain words. -/
def PlainLiterals (tokens : List Token) : Prop :=
  ∀ text, literal text ∈ tokens → IsPlainWord text.toList

/-- A text in which some tokens are spelled out, with blanks as one likes. -/
inductive Written : List Token → List Char → Prop
  | nil {blanks : List Char} (hblanks : ∀ c ∈ blanks, isBlank c = true) : Written [] blanks
  | cons {token : Token} {tokens : List Token} {blanks spelling rest : List Char}
      (hblanks : ∀ c ∈ blanks, isBlank c = true) (hspelling : spelling ∈ token.spellings)
      (hrest : Written tokens rest) : Written (token :: tokens) (blanks ++ spelling ++ rest)

/-- The lexemes of a text. -/
def lexemes (cs : List Char) : List Lexeme :=
  (scanFrom 0 cs).1.map Scanned.lexeme

/-! ### Character classes -/

/-- What holds of the characters of the operators and parentheses holds of a symbol. -/
theorem of_isSymbolChar {p : Char → Bool} (hall : "<>!&|()=*/%+-".toList.all p = true) {c : Char}
    (h : isSymbolChar c = true) : p c = true :=
  List.all_eq_true.1 hall c (List.contains_iff_mem.1 h)

/-- No symbol is a blank. -/
theorem isBlank_eq_false_of_isSymbolChar {c : Char} (h : isSymbolChar c = true) :
    isBlank c = false := by
  simpa using of_isSymbolChar (p := fun c => !isBlank c) (by decide) h

/-- No symbol is a character of a word. -/
theorem isWordChar_eq_false_of_isSymbolChar {c : Char} (h : isSymbolChar c = true) :
    isWordChar c = false := by
  simpa using of_isSymbolChar (p := fun c => !isWordChar c) (by decide) h

/-- No blank is a character of a symbol. -/
theorem isSymbolChar_eq_false_of_isBlank {c : Char} (h : isBlank c = true) :
    isSymbolChar c = false := by
  by_contra hsymbol
  rw [Bool.not_eq_false] at hsymbol
  simp [isBlank_eq_false_of_isSymbolChar hsymbol] at h

/-- No character of a word is one of a symbol. -/
theorem isSymbolChar_eq_false_of_isWordChar {c : Char} (h : isWordChar c = true) :
    isSymbolChar c = false := by
  by_contra hsymbol
  rw [Bool.not_eq_false] at hsymbol
  simp [isWordChar_eq_false_of_isSymbolChar hsymbol] at h

/-- What is no character of a symbol does not go on with an operator. -/
theorem notMem_of_isSymbolChar_eq_false {c : Char} (h : isSymbolChar c = false) :
    c ∉ ['=', '&', '|'] := by
  intro hmem
  have hall : ∀ c ∈ ['=', '&', '|'], isSymbolChar c = true :=
    List.all_iff_forall_prop.1 (by decide)
  rw [hall c hmem] at h
  cases h

/-- Word characters are ASCII characters behind the blanks among them. -/
theorem toNat_of_isWordChar {c : Char} (h : isWordChar c = true) :
    39 ≤ c.toNat ∧ c.toNat ≤ 122 := by
  have halphanum : c.isAlphanum = (decide (c.val ≥ 'A'.val ∧ c.val ≤ 'Z'.val) ||
      (c.val ≥ 'a'.val && c.val ≤ 'z'.val) || (c.val ≥ '0'.val && c.val ≤ '9'.val)) := rfl
  simp only [isWordChar, halphanum, Bool.or_eq_true, Bool.and_eq_true,
    decide_eq_true_eq, beq_iff_eq, UInt32.le_iff_toNat_le, ge_iff_le] at h
  have htoNat : c.toNat = c.val.toNat := rfl
  have hbounds : 'Z'.val.toNat = 90 ∧ 'z'.val.toNat = 122 ∧ '9'.val.toNat = 57 ∧
      'A'.val.toNat = 65 ∧ 'a'.val.toNat = 97 ∧ '0'.val.toNat = 48 := by decide
  rcases h with (h | rfl) | rfl
  · omega
  · decide
  · decide

/-- No character of a word is a blank. -/
theorem isBlank_eq_false_of_isWordChar {c : Char} (h : isWordChar c = true) :
    isBlank c = false := by
  have hrange := toNat_of_isWordChar h
  simp only [isBlank, blankRanges, List.any_cons, List.any_nil, Bool.or_false, Bool.or_eq_false_iff,
    Bool.and_eq_false_iff, decide_eq_false_iff_not]
  omega

/-- A token that is no literal is spelled with characters of symbols. -/
theorem isSymbolChar_of_mem_spellings {token : Token} {spelling : List Char}
    (hspelling : spelling ∈ token.spellings) (hliteral : ∀ text, token ≠ literal text) :
    spelling ≠ [] ∧ ∀ c ∈ spelling, isSymbolChar c = true := by
  have hall : ∀ op : Operator, ∀ spelling ∈ op.spellings,
      spelling.toList ≠ [] ∧ spelling.toList.all isSymbolChar = true := by
    intro op
    cases op <;> decide
  cases token with
  | literal text => exact absurd rfl (hliteral text)
  | operator op =>
    obtain ⟨text, htext, rfl⟩ := List.mem_map.1 hspelling
    obtain ⟨hne, hchars⟩ := hall op text htext
    exact ⟨hne, List.all_eq_true.1 hchars⟩
  | groupOpen | groupClose =>
    rw [List.mem_singleton.1 hspelling]
    exact ⟨by simp, by simp [isSymbolChar]⟩

/-! ### One lexeme -/

/-- Blanks in front of a text are trimmed away. -/
theorem trimLeft_append_of_blank {blanks cs : List Char} (h : ∀ c ∈ blanks, isBlank c = true) :
    trimLeft (blanks ++ cs) = trimLeft cs :=
  List.dropWhile_append_of_pos h

/-- Of blanks alone nothing is left. -/
theorem trim_of_blank {blanks : List Char} (h : ∀ c ∈ blanks, isBlank c = true) :
    trim blanks = [] := by
  have hleft : trimLeft (blanks ++ []) = trimLeft [] := trimLeft_append_of_blank h
  rw [List.append_nil] at hleft
  rw [trim, hleft]
  rfl

/-- Trimming takes away exactly the blanks around a text that neither begins nor ends with one. -/
theorem trim_append {before text after : List Char} (hbefore : ∀ c ∈ before, isBlank c = true)
    (hafter : ∀ c ∈ after, isBlank c = true) (htext : ∀ c ∈ text, isBlank c = false) :
    trim (before ++ (text ++ after)) = text := by
  cases text with
  | nil =>
    rw [List.nil_append]
    refine trim_of_blank fun c hc => ?_
    rcases List.mem_append.mp hc with hc | hc
    · exact hbefore c hc
    · exact hafter c hc
  | cons first rest =>
    have hfirst := htext first (by simp)
    have hleft : trimLeft (before ++ (first :: rest ++ after)) = first :: rest ++ after := by
      rw [trimLeft_append_of_blank hbefore, trimLeft, List.cons_append,
        List.dropWhile_cons_of_neg (by simp [hfirst])]
    have hright : ((first :: rest).reverse).dropWhile isBlank = (first :: rest).reverse := by
      cases hreverse : (first :: rest).reverse with
      | nil => rfl
      | cons last others =>
        have hlast : last ∈ first :: rest := by
          rw [← List.mem_reverse, hreverse]
          exact List.mem_cons_self
        rw [List.dropWhile_cons_of_neg (by simp [htext last hlast])]
    rw [trim, hleft, trimRight, List.reverse_append,
      List.dropWhile_append_of_pos (by simpa using hafter), hright, List.reverse_reverse]

/-- A text that does not go on with a character of a literal. -/
def EndsRun (cs : List Char) : Prop :=
  ∀ c ∈ cs.head?, isSymbolChar c = true

/-- A word ends where no literal goes on. -/
theorem run_append {word rest : List Char} (hword : ∀ c ∈ word, isSymbolChar c = false)
    (hrest : EndsRun rest) : run (word ++ rest) = word := by
  rw [run, List.takeWhile_append_of_pos (by simpa using hword)]
  cases rest with
  | nil => simp
  | cons c cs => simp [hrest c (by simp)]

/-- Behind a word the text is left at which the word ends. -/
theorem afterRun_append {word rest : List Char} (hword : ∀ c ∈ word, isSymbolChar c = false)
    (hrest : EndsRun rest) : afterRun (word ++ rest) = rest := by
  have happend := run_append_afterRun (word ++ rest)
  rw [run_append hword hrest] at happend
  exact List.append_cancel_left happend

/-- A plain word between blanks is read as one literal, together with the blanks behind it. -/
theorem lexeme?_literal {before word after rest : List Char}
    (hbefore : ∀ c ∈ before, isBlank c = true) (hword : IsPlainWord word)
    (hafter : ∀ c ∈ after, isBlank c = true) (hrest : EndsRun rest) :
    lexeme? (before ++ word ++ (after ++ rest)) =
      some (.token (.literal (String.ofList word)), rest) := by
  obtain ⟨hne, hchars⟩ := hword
  have hblank : ∀ c ∈ word, isBlank c = false :=
    fun c hc => isBlank_eq_false_of_isWordChar (hchars c hc)
  have hsymbol : ∀ c ∈ before ++ (word ++ after), isSymbolChar c = false := by
    intro c hc
    rcases List.mem_append.mp hc with hc | hc
    · exact isSymbolChar_eq_false_of_isBlank (hbefore c hc)
    · rcases List.mem_append.mp hc with hc | hc
      · exact isSymbolChar_eq_false_of_isWordChar (hchars c hc)
      · exact isSymbolChar_eq_false_of_isBlank (hafter c hc)
  have hassoc : before ++ word ++ (after ++ rest) = before ++ (word ++ after) ++ rest := by
    simp only [List.append_assoc]
  have htrim := trim_append hbefore hafter hblank
  have hisWord : isWord word = true := by
    cases word with
    | nil => exact absurd rfl hne
    | cons first others =>
      simp only [isWord, Bool.and_eq_true, List.all_eq_true, Bool.or_eq_true]
      exact ⟨hchars first (by simp), fun c hc => Or.inl (hchars c (by simp [hc]))⟩
  rw [hassoc, lexeme?, run_append hsymbol hrest, afterRun_append hsymbol hrest, htrim,
    if_neg (by simpa using hne)]
  simp only [ofRun, htrim, if_pos hisWord]

/-- Blanks in front of an operator or a parenthesis are skipped. -/
theorem lexeme?_symbol {before cs rest : List Char} {token : Token}
    (hbefore : ∀ c ∈ before, isBlank c = true) (hends : EndsRun cs)
    (hsymbol : symbol? cs = some (token, rest)) :
    lexeme? (before ++ cs) = some (.token token, rest) := by
  have hrun : ∀ c ∈ before, isSymbolChar c = false :=
    fun c hc => isSymbolChar_eq_false_of_isBlank (hbefore c hc)
  rw [lexeme?, run_append hrun hends, afterRun_append hrun hends, trim_of_blank hbefore,
    if_pos (by rfl), hsymbol]
  rfl

/-- The spelling of an operator or a parenthesis is read as that token. A one-character spelling
must not be the beginning of a longer one, which only `=`, `&` and `|` could make it. -/
theorem symbol?_spelling {token : Token} {spelling : List Char} (rest : List Char)
    (hspelling : spelling ∈ token.spellings) (hliteral : ∀ text, token ≠ .literal text)
    (hrest : token.endsOperand = true ∨ ∀ c ∈ rest.head?, c ∉ ['=', '&', '|']) :
    EndsRun (spelling ++ rest) ∧ symbol? (spelling ++ rest) = some (token, rest) := by
  cases token with
  | literal text => exact absurd rfl (hliteral text)
  | groupOpen =>
    simp only [spellings, List.mem_singleton] at hspelling
    subst hspelling
    exact ⟨by simp [EndsRun, isSymbolChar], rfl⟩
  | groupClose =>
    simp only [spellings, List.mem_singleton] at hspelling
    subst hspelling
    exact ⟨by simp [EndsRun, isSymbolChar], rfl⟩
  | operator op =>
    have hnext : ∀ c ∈ rest.head?, c ∉ ['=', '&', '|'] := hrest.resolve_left (by simp [endsOperand])
    cases rest with
    | nil =>
      cases op <;> simp [spellings, Operator.spellings, Operator.symbol] at hspelling <;>
        rcases hspelling with rfl | rfl <;>
        exact ⟨by simp [EndsRun, isSymbolChar], rfl⟩
    | cons c cs =>
      obtain ⟨hequal, hand, hor⟩ : c ≠ '=' ∧ c ≠ '&' ∧ c ≠ '|' := by
        simpa using hnext c (by simp)
      cases op <;> simp [spellings, Operator.spellings, Operator.symbol] at hspelling <;>
        rcases hspelling with rfl | rfl <;>
        refine ⟨by simp [EndsRun, isSymbolChar], ?_⟩ <;> simp [symbol?, hequal, hand, hor]

/-! ### All lexemes -/

/-- A scan gives the first lexeme in its place, and goes on behind it. -/
theorem scanFrom_of_some {start : Nat} {cs rest : List Char} {lexeme : Lexeme}
    (h : lexeme? cs = some (lexeme, rest)) :
    (scanFrom start cs).1 =
      ⟨start, lexeme, start + (byteSize cs - byteSize rest)⟩ ::
        (scanFrom (start + (byteSize cs - byteSize rest)) rest).1 := by
  rw [scanFrom]
  split
  · next hnone => simp [hnone] at h
  · next hsome =>
    rw [hsome] at h
    cases h
    rfl

/-- A scan ends where there is no lexeme. -/
theorem scanFrom_of_none {start : Nat} {cs : List Char} (h : lexeme? cs = none) :
    (scanFrom start cs).1 = [] := by
  rw [scanFrom]
  split
  · rfl
  · next hsome => simp [hsome] at h

/-- The lexemes do not depend on the offset at which a text begins. -/
theorem map_lexeme_scanFrom (start : Nat) (cs : List Char) :
    (scanFrom start cs).1.map Scanned.lexeme = lexemes cs := by
  unfold lexemes
  generalize 0 = other
  induction hlength : cs.length using Nat.strongRecOn generalizing cs start other with
  | ind n ih =>
    subst hlength
    cases hread : lexeme? cs with
    | none => rw [scanFrom_of_none hread, scanFrom_of_none hread]
    | some read =>
      obtain ⟨lexeme, rest⟩ := read
      rw [scanFrom_of_some hread, scanFrom_of_some hread, List.map_cons, List.map_cons]
      congr 1
      exact ih rest.length (length_lexeme?_lt hread) _ rest _ rfl

/-- The lexemes of a text are the first one and those behind it. -/
theorem lexemes_of_some {cs rest : List Char} {lexeme : Lexeme}
    (h : lexeme? cs = some (lexeme, rest)) : lexemes cs = lexeme :: lexemes rest := by
  rw [lexemes, scanFrom_of_some h, List.map_cons, map_lexeme_scanFrom]

/-- A text without a first lexeme has none. -/
theorem lexemes_of_none {cs : List Char} (h : lexeme? cs = none) : lexemes cs = [] := by
  rw [lexemes, scanFrom_of_none h]
  rfl

/-- Blanks alone have no lexemes. -/
theorem lexemes_of_blank {blanks : List Char} (h : ∀ c ∈ blanks, isBlank c = true) :
    lexemes blanks = [] := by
  have hrun : ∀ c ∈ blanks, isSymbolChar c = false :=
    fun c hc => isSymbolChar_eq_false_of_isBlank (h c hc)
  have hends : EndsRun [] := by simp [EndsRun]
  have hsplit := run_append hrun hends
  have hafter := afterRun_append hrun hends
  rw [List.append_nil] at hsplit hafter
  apply lexemes_of_none
  rw [lexeme?, hsplit, hafter, if_pos (by rw [trim_of_blank h]; rfl)]
  rfl

/-- A text that does not go on with a character of a literal does not begin with a blank. -/
theorem trimLeft_of_endsRun {cs : List Char} (h : EndsRun cs) : trimLeft cs = cs := by
  cases cs with
  | nil => rfl
  | cons c cs =>
    rw [trimLeft, List.dropWhile_cons_of_neg (by simp [isBlank_eq_false_of_isSymbolChar (h c rfl)])]

/-- In front of a token that is no literal, a literal ends. -/
theorem endsRun_spelling_append {token : Token} {spelling : List Char}
    (hspelling : spelling ∈ token.spellings)
    (hliteral : ∀ text, token ≠ .literal text) (rest : List Char) : EndsRun (spelling ++ rest) := by
  obtain ⟨hne, hchars⟩ := isSymbolChar_of_mem_spellings hspelling hliteral
  obtain ⟨first, others, rfl⟩ := List.exists_cons_of_ne_nil hne
  rintro c ⟨⟩
  exact hchars _ List.mem_cons_self

/-- Blanks in front of a symbol, or of nothing, do not count. -/
theorem lexemes_blanks_append {blanks cs : List Char} (hblanks : ∀ c ∈ blanks, isBlank c = true)
    (hends : EndsRun cs) : lexemes (blanks ++ cs) = lexemes cs := by
  have hread : ∀ blanks : List Char, (∀ c ∈ blanks, isBlank c = true) →
      lexeme? (blanks ++ cs) = (symbol? cs).map fun read => (.token read.1, read.2) := by
    intro blanks hblanks
    have hrun : ∀ c ∈ blanks, isSymbolChar c = false :=
      fun c hc => isSymbolChar_eq_false_of_isBlank (hblanks c hc)
    rw [lexeme?, run_append hrun hends, afterRun_append hrun hends, trim_of_blank hblanks,
      if_pos (by rfl)]
  have heq : lexeme? (blanks ++ cs) = lexeme? cs :=
    (hread blanks hblanks).trans (hread [] (by simp)).symm
  cases hcs : lexeme? cs with
  | none => rw [lexemes_of_none hcs, lexemes_of_none (heq.trans hcs)]
  | some read => rw [lexemes_of_some hcs, lexemes_of_some (heq.trans hcs)]

/-- A plain word is read as one literal if no literal character follows it, blanks aside. -/
theorem lexemes_literal_append {blanks word rest : List Char}
    (hblanks : ∀ c ∈ blanks, isBlank c = true)
    (hword : IsPlainWord word) (hends : EndsRun (trimLeft rest)) :
    lexemes (blanks ++ word ++ rest) = .token (.literal (String.ofList word)) :: lexemes rest := by
  have hafter : ∀ c ∈ rest.takeWhile isBlank, isBlank c = true :=
    fun c hc => List.all_eq_true.1 List.all_takeWhile c hc
  have hrest : rest.takeWhile isBlank ++ trimLeft rest = rest := List.takeWhile_append_dropWhile
  have hread := lexemes_of_some (lexeme?_literal hblanks hword hafter hends)
  rwa [← lexemes_blanks_append hafter hends, hrest] at hread

/-- The spelling of an operator or a parenthesis is read as that token if what follows does not make
it a longer one. -/
theorem lexemes_symbol_append {token : Token} {blanks spelling rest : List Char}
    (hblanks : ∀ c ∈ blanks, isBlank c = true) (hspelling : spelling ∈ token.spellings)
    (hliteral : ∀ text, token ≠ .literal text)
    (hrest : token.endsOperand = true ∨ ∀ c ∈ rest.head?, c ∉ ['=', '&', '|']) :
    lexemes (blanks ++ spelling ++ rest) = .token token :: lexemes rest := by
  obtain ⟨hends, hsymbol⟩ := symbol?_spelling rest hspelling hliteral hrest
  rw [List.append_assoc, lexemes_of_some (lexeme?_symbol hblanks hends hsymbol)]

/-- In a text whose first token is none that begins an operand a symbol follows the blanks at the
beginning. -/
theorem Written.endsRun_trimLeft {tokens : List Token} {cs : List Char} (h : Written tokens cs)
    (hhead : ∀ token ∈ tokens.head?, token.startsOperand = false) : EndsRun (trimLeft cs) := by
  cases h with
  | nil hblanks =>
    have hnil : trimLeft (cs ++ []) = trimLeft [] := trimLeft_append_of_blank hblanks
    rw [List.append_nil] at hnil
    rw [hnil]
    simp [EndsRun, trimLeft]
  | @cons token tokens blanks spelling rest hblanks hspelling hrest =>
    have hliteral : ∀ text, token ≠ .literal text := by
      rintro text rfl
      exact absurd (hhead _ rfl) (by simp [startsOperand])
    have hends := endsRun_spelling_append hspelling hliteral rest
    rw [List.append_assoc, trimLeft_append_of_blank hblanks, trimLeft_of_endsRun hends]
    exact hends

/-- A token that begins an operand does not begin with `=`, `&` or `|`. -/
theorem exists_spelling_of_startsOperand {token : Token} {spelling : List Char}
    (hstart : token.startsOperand = true) (hspelling : spelling ∈ token.spellings)
    (hplain : PlainLiterals [token]) :
    ∃ c others, spelling = c :: others ∧ c ∉ ['=', '&', '|'] := by
  cases token with
  | literal text =>
    obtain rfl := List.mem_singleton.1 hspelling
    obtain ⟨hne, hchars⟩ := hplain text List.mem_cons_self
    obtain ⟨first, others, htext⟩ := List.exists_cons_of_ne_nil hne
    have hfirst := hchars first (by simp [htext])
    exact ⟨first, others, htext,
      notMem_of_isSymbolChar_eq_false (isSymbolChar_eq_false_of_isWordChar hfirst)⟩
  | groupOpen =>
    obtain rfl := List.mem_singleton.1 hspelling
    exact ⟨'(', [], rfl, by decide⟩
  | groupClose => cases hstart
  | operator op =>
    cases op <;> try cases hstart
    obtain rfl := List.mem_singleton.1 hspelling
    exact ⟨'!', [], rfl, by decide⟩

/-- A text whose first token begins an operand does not begin with `=`, `&` or `|`. -/
theorem Written.head_of_startsOperand {tokens : List Token} {cs : List Char}
    (h : Written tokens cs) (hplain : PlainLiterals tokens)
    (hhead : ∀ token ∈ tokens.head?, token.startsOperand = true) :
    ∀ c ∈ cs.head?, c ∉ ['=', '&', '|'] := by
  have hblank : ∀ c, isBlank c = true → c ∉ ['=', '&', '|'] := fun c hc =>
    notMem_of_isSymbolChar_eq_false (isSymbolChar_eq_false_of_isBlank hc)
  intro c hc
  cases h with
  | nil hblanks => exact hblank c (hblanks c (List.mem_of_mem_head? hc))
  | @cons token tokens blanks spelling rest hblanks hspelling hrest =>
    cases blanks with
    | cons blank blanks =>
      obtain rfl : blank = c := by simpa using hc
      exact hblank blank (hblanks blank (by simp))
    | nil =>
      have hplainHead : PlainLiterals [token] := fun text htext =>
        hplain text (List.mem_cons.2 (.inl (List.mem_singleton.1 htext)))
      obtain ⟨first, others, rfl, hfirst⟩ :=
        exists_spelling_of_startsOperand (hhead token rfl) hspelling hplainHead
      obtain rfl : first = c := by simpa using hc
      exact hfirst

/-- Scanning undoes spelling: tokens that may stand next to each other are read back from every text
in which they are spelled out. -/
theorem lexemes_of_written {tokens : List Token} {cs : List Char} (hwritten : Written tokens cs)
    (hplain : PlainLiterals tokens) (hchain : tokens.IsChain MayPrecede) :
    lexemes cs = tokens.map Lexeme.token := by
  induction htokens : tokens generalizing tokens cs with
  | nil =>
    subst htokens
    cases hwritten with
    | nil hblanks => exact lexemes_of_blank hblanks
  | cons token rest ih =>
    subst htokens
    cases hwritten with
    | @cons _ _ blanks spelling cs hblanks hspelling hrest =>
      have hplainRest : PlainLiterals rest := fun text htext => hplain text (by simp [htext])
      have hchainRest := hchain.tail
      have hnext : ∀ next ∈ rest.head?, MayPrecede token next := by
        intro next hmem
        cases rest with
        | nil => simp at hmem
        | cons second others =>
          obtain rfl : second = next := by simpa using hmem
          exact (List.isChain_cons_cons.mp hchain).1
      rw [List.map_cons, ← ih hrest hplainRest hchainRest rfl]
      by_cases hliteral : ∃ text, token = .literal text
      · obtain ⟨text, rfl⟩ := hliteral
        simp only [spellings, List.mem_singleton] at hspelling
        subst hspelling
        have hends := hrest.endsRun_trimLeft fun next hmem => by
          simpa [MayPrecede, endsOperand] using hnext next hmem
        rw [lexemes_literal_append hblanks (hplain text (by simp)) hends, String.ofList_toList]
      · refine lexemes_symbol_append hblanks hspelling (fun text htext => hliteral ⟨text, htext⟩) ?_
        by_cases hoperand : token.endsOperand = true
        · exact Or.inl hoperand
        · refine Or.inr (hrest.head_of_startsOperand hplainRest fun next hmem => ?_)
          simpa [MayPrecede, hoperand] using hnext next hmem

end Token

end BraceTemplate
