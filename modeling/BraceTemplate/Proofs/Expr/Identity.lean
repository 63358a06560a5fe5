import BraceTemplate.Proofs.Expr.Infix
import BraceTemplate.Proofs.Table

/-!
# Sources that differ in blanks

The id of an expression is its source without blanks. Blanks matter in one place only: between two
characters that together spell one operator. Where no blank stands in such a place the text without
blanks has the lexemes of the text, and as compiling depends on lexemes but not on their offsets,
two such sources with one id are compiled to the same atoms.
-/

namespace BraceTemplate

namespace Token

/-- The text without its blanks. -/
def withoutBlanks (cs : List Char) : List Char :=
  cs.filter fun c => !isBlank c

/-- Whether two characters together spell one operator. -/
def joins (c d : Char) : Bool :=
  [('<', '='), ('>', '='), ('!', '='), ('=', '='), ('&', '&'), ('|', '|')].contains (c, d)

/-- No blanks stand between two characters that together spell one operator. -/
def Unsplit : List Char → Prop
  | [] => True
  | c :: rest =>
    (∀ d ∈ (withoutBlanks rest).head?, joins c d = true → rest.head? = some d) ∧ Unsplit rest

instance decidableUnsplit : (cs : List Char) → Decidable (Unsplit cs)
  | [] => isTrue trivial
  | c :: rest =>
    have := decidableUnsplit rest
    decidable_of_iff
      (((withoutBlanks rest).head?.all fun d => !joins c d || rest.head? == some d) = true ∧
        Unsplit rest)
      (and_congr_left' (by simp [Option.all_eq_true, or_iff_not_imp_left]))

/-- The end of a source has no split operator if the source has none. -/
theorem Unsplit.of_append {before cs : List Char} (h : Unsplit (before ++ cs)) : Unsplit cs := by
  induction before with
  | nil => exact h
  | cons c before ih => exact ih h.2

/-! ### Taking blanks away -/

/-- Blanks are left out of two texts one after the other. -/
@[simp] theorem withoutBlanks_append (before after : List Char) :
    withoutBlanks (before ++ after) = withoutBlanks before ++ withoutBlanks after :=
  List.filter_append ..

/-- A character that is no blank stays. -/
theorem withoutBlanks_cons {c : Char} (h : isBlank c = false) (cs : List Char) :
    withoutBlanks (c :: cs) = c :: withoutBlanks cs :=
  List.filter_cons_of_pos (by rw [h]; rfl)

/-- Only blanks are left out. -/
theorem withoutBlanks_eq_nil_iff {cs : List Char} :
    withoutBlanks cs = [] ↔ ∀ c ∈ cs, isBlank c = true := by
  simp [withoutBlanks]

/-- To drop leading blanks first makes no difference. -/
theorem withoutBlanks_dropWhile (cs : List Char) :
    withoutBlanks (cs.dropWhile isBlank) = withoutBlanks cs := by
  induction cs with
  | nil => rfl
  | cons c cs ih =>
    cases hblank : isBlank c with
    | true =>
      rw [List.dropWhile_cons_of_pos hblank, ih]
      simp [withoutBlanks, hblank]
    | false => rw [List.dropWhile_cons_of_neg (by simp [hblank])]

/-- Trimming takes away blanks only. -/
theorem withoutBlanks_trim (cs : List Char) : withoutBlanks (trim cs) = withoutBlanks cs := by
  have hreverse : ∀ cs, withoutBlanks cs.reverse = (withoutBlanks cs).reverse :=
    fun cs => List.filter_reverse
  rw [trim, trimRight, hreverse, withoutBlanks_dropWhile, hreverse, List.reverse_reverse, trimLeft,
    withoutBlanks_dropWhile]

/-- A text that trimming leaves nothing of is blank. -/
theorem isBlank_of_trim_eq_nil {cs : List Char} (h : trim cs = []) :
    ∀ c ∈ cs, isBlank c = true := by
  rw [← withoutBlanks_eq_nil_iff, ← withoutBlanks_trim, h]
  rfl

/-- A run goes on up to the first character of a symbol. -/
theorem not_isSymbolChar_of_mem_run {c : Char} {cs : List Char} (h : c ∈ run cs) :
    isSymbolChar c = false := by
  have hall := List.all_takeWhile (l := cs) (p := fun c => !isSymbolChar c)
  simpa using List.all_eq_true.1 hall c h

/-- Behind a run no literal goes on. -/
theorem endsRun_afterRun (cs : List Char) : EndsRun (afterRun cs) := by
  intro c hc
  have hnot := List.head?_dropWhile_not (fun c => !isSymbolChar c) cs
  rw [afterRun] at hc
  rw [Option.mem_def.1 hc] at hnot
  simpa using hnot

/-- A symbol in front of the rest of a text stays there. -/
theorem EndsRun.withoutBlanks {cs : List Char} (h : EndsRun cs) : EndsRun (withoutBlanks cs) := by
  cases cs with
  | nil => exact h
  | cons c cs =>
    have hsymbol := h c rfl
    rw [withoutBlanks_cons (isBlank_eq_false_of_isSymbolChar hsymbol)]
    intro d hd
    obtain rfl : c = d := by simpa using hd
    exact hsymbol

/-! ### One lexeme -/

/-- A run that is a literal is a plain word between blanks. -/
theorem isPlainWord_of_isWord {cs : List Char} (h : isWord (trim (run cs)) = true) :
    IsPlainWord (trim (run cs)) ∧ withoutBlanks (run cs) = trim (run cs) := by
  have hne : trim (run cs) ≠ [] := by
    intro hnil
    rw [hnil] at h
    cases h
  have hchars : ∀ c ∈ trim (run cs), isWordChar c = true ∨ c = '-' := by
    cases hword : trim (run cs) with
    | nil => exact absurd hword hne
    | cons first rest =>
      rw [hword] at h
      simp only [isWord, Bool.and_eq_true, List.all_eq_true, Bool.or_eq_true, beq_iff_eq] at h
      intro c hc
      rcases List.mem_cons.1 hc with rfl | hc
      · exact .inl h.1
      · exact h.2 c hc
  have hblank : ∀ c ∈ trim (run cs), isBlank c = false := by
    intro c hc
    rcases hchars c hc with hword | rfl
    · exact isBlank_eq_false_of_isWordChar hword
    · decide
  have hself : withoutBlanks (run cs) = trim (run cs) := by
    rw [← withoutBlanks_trim]
    exact List.filter_eq_self.2 fun c hc => by rw [hblank c hc]; rfl
  refine ⟨⟨hne, fun c hc => (hchars c hc).resolve_right ?_⟩, hself⟩
  rintro rfl
  rw [← hself] at hc
  exact absurd (not_isSymbolChar_of_mem_run (List.mem_filter.1 hc).1) (by decide)

/-- Two characters that spell one operator together are read together. -/
theorem symbol?_of_joins {c d : Char} (h : joins c d = true) :
    ∃ token, ∀ rest, symbol? (c :: d :: rest) = some (token, rest) := by
  simp only [joins, List.contains_iff_mem, List.mem_cons, Prod.mk.injEq, List.not_mem_nil,
    or_false] at h
  rcases h with ⟨rfl, rfl⟩ | ⟨rfl, rfl⟩ | ⟨rfl, rfl⟩ | ⟨rfl, rfl⟩ | ⟨rfl, rfl⟩ | ⟨rfl, rfl⟩
  all_goals exact ⟨_, fun _ => rfl⟩

/-- A symbol that does not spell an operator together with the next character is read alone. -/
theorem symbol?_of_not_joins {c : Char} (hc : isSymbolChar c = true) :
    ∃ token, ∀ rest : List Char, (∀ d ∈ rest.head?, joins c d = false) →
      symbol? (c :: rest) = some (token, rest) := by
  have hread := of_isSymbolChar (p := fun c => (symbol? [c]).map Prod.snd == some []) (by decide) hc
  obtain ⟨⟨token, after⟩, hsingle, rfl⟩ := Option.map_eq_some_iff.1 (beq_iff_eq.1 hread)
  refine ⟨token, fun rest h => ?_⟩
  have hsame : symbol? (c :: rest) = (symbol? [c]).map fun read => (read.1, rest) := by
    cases rest with
    | nil => rw [hsingle]; rfl
    | cons d rest =>
      have hd := h d rfl
      simp only [isSymbolChar, String.reduceToList, List.contains_iff_mem, List.mem_cons,
        List.not_mem_nil, or_false] at hc
      rcases hc with rfl | rfl | rfl | rfl | rfl | rfl | rfl | rfl | rfl | rfl | rfl | rfl | rfl
      all_goals simp [joins] at hd
      all_goals simp [symbol?, hd]
  rw [hsame, hsingle]
  rfl

/-- A text that begins with a symbol has a first lexeme: one character, or two that spell one
operator. -/
theorem symbol?_cons {c : Char} (hc : isSymbolChar c = true) (rest : List Char) :
    ∃ token after, symbol? (c :: rest) = some (token, after) ∧ after <:+ rest ∧
      (Unsplit (c :: rest) →
        symbol? (c :: withoutBlanks rest) = some (token, withoutBlanks after)) := by
  by_cases hjoins : ∃ d ∈ rest.head?, joins c d = true
  · obtain ⟨d, hd, hjoins⟩ := hjoins
    obtain ⟨others, rfl⟩ := List.head?_eq_some_iff.1 (Option.mem_def.1 hd)
    obtain ⟨token, htoken⟩ := symbol?_of_joins hjoins
    refine ⟨token, others, htoken others, List.suffix_cons d others, fun _ => ?_⟩
    have hblank : isBlank d = false := by
      simp only [joins, List.contains_iff_mem, List.mem_cons, Prod.mk.injEq, List.not_mem_nil,
        or_false] at hjoins
      rcases hjoins with ⟨-, rfl⟩ | ⟨-, rfl⟩ | ⟨-, rfl⟩ | ⟨-, rfl⟩ | ⟨-, rfl⟩ | ⟨-, rfl⟩ <;> decide
    rw [withoutBlanks_cons hblank, htoken]
  · have hnot : ∀ d ∈ rest.head?, joins c d = false := by simpa using hjoins
    obtain ⟨token, htoken⟩ := symbol?_of_not_joins hc
    refine ⟨token, rest, htoken rest hnot, List.suffix_refl rest, fun hunsplit => htoken _ ?_⟩
    intro d hd
    by_contra hjoins
    rw [Bool.not_eq_false] at hjoins
    exact absurd hjoins (by simp [hnot d (hunsplit.1 d hd hjoins)])

/-- A text is blank, or it has a first lexeme. If that is a token that blanks do not split, it is
the first lexeme of the text without blanks as well. -/
theorem lexeme?_cases (cs : List Char) :
    (lexeme? cs = none ∧ ∀ c ∈ cs, isBlank c = true) ∨
      ∃ lexeme rest, lexeme? cs = some (lexeme, rest) ∧ rest <:+ cs ∧
        (Unsplit cs → (∃ token, lexeme = .token token) →
          lexeme? (withoutBlanks cs) = some (lexeme, withoutBlanks rest)) := by
  have hends := endsRun_afterRun cs
  have hsplit := run_append_afterRun cs
  have hcs : withoutBlanks cs = withoutBlanks (run cs) ++ withoutBlanks (afterRun cs) := by
    rw [← withoutBlanks_append, hsplit]
  have hnone : ∀ c ∈ ([] : List Char), isBlank c = true := by simp
  have hsuffix : afterRun cs <:+ cs := List.dropWhile_suffix _
  by_cases hrun : trim (run cs) = []
  · have hblank := isBlank_of_trim_eq_nil hrun
    have hread : lexeme? cs =
        (symbol? (afterRun cs)).map fun read => (.token read.1, read.2) := by
      rw [lexeme?, hrun, if_pos (by rfl)]
    cases hafter : afterRun cs with
    | nil =>
      rw [hafter] at hread hsplit
      rw [List.append_nil] at hsplit
      exact .inl ⟨hread, hsplit ▸ hblank⟩
    | cons c others =>
      rw [hafter] at hread hends hsuffix hcs hsplit
      have hc := hends c rfl
      obtain ⟨token, after, hsymbol, hafter, hwithout⟩ := symbol?_cons hc others
      refine .inr ⟨.token token, after, by rw [hread, hsymbol]; rfl,
        (hafter.trans (List.suffix_cons c others)).trans hsuffix, fun hunsplit _ => ?_⟩
      have hunsplit : Unsplit (c :: others) := Unsplit.of_append (hsplit.symm ▸ hunsplit)
      have hcons := withoutBlanks_cons (isBlank_eq_false_of_isSymbolChar hc) others
      rw [hcs, withoutBlanks_eq_nil_iff.2 hblank]
      refine lexeme?_symbol hnone hends.withoutBlanks ?_
      rw [hcons]
      exact hwithout hunsplit
  · have hread : lexeme? cs = some (ofRun (run cs), afterRun cs) := by
      rw [lexeme?, if_neg (by simpa using hrun)]
    refine .inr ⟨_, _, hread, hsuffix, fun _ htoken => ?_⟩
    have hword : isWord (trim (run cs)) = true := by
      by_contra hword
      obtain ⟨token, htoken⟩ := htoken
      simp [ofRun, hword] at htoken
    obtain ⟨hplain, hself⟩ := isPlainWord_of_isWord hword
    have hliteral := @lexeme?_literal [] _ [] _ hnone hplain hnone hends.withoutBlanks
    rw [List.nil_append, List.nil_append] at hliteral
    rw [hcs, hself, hliteral, ofRun, if_pos hword]

/-! ### All lexemes -/

/-- Taking blanks away keeps the lexemes of a text if all of them are tokens that blanks do not
split. -/
theorem lexemes_withoutBlanks {cs : List Char} (hunsplit : Unsplit cs)
    (htokens : ∀ lexeme ∈ lexemes cs, ∃ token, lexeme = .token token) :
    lexemes (withoutBlanks cs) = lexemes cs := by
  -- What is left behind a lexeme is a suffix of the text, in which blanks split nothing either.
  induction hlength : cs.length using Nat.strongRecOn generalizing cs with
  | ind n ih =>
    subst hlength
    rcases lexeme?_cases cs with ⟨hnone, hblank⟩ | ⟨lexeme, rest, hread, hsuffix, hwithout⟩
    · rw [withoutBlanks_eq_nil_iff.2 hblank, lexemes_of_none hnone]
      exact lexemes_of_blank (by simp)
    · rw [lexemes_of_some hread] at htokens ⊢
      have hrest : lexemes (withoutBlanks rest) = lexemes rest := by
        obtain ⟨before, rfl⟩ := hsuffix
        exact ih _ (length_lexeme?_lt hread) hunsplit.of_append
          (fun other hother => htokens other (List.mem_cons_of_mem _ hother)) rfl
      rw [lexemes_of_some (hwithout hunsplit (htokens lexeme List.mem_cons_self)), hrest]

end Token

/-! ### Offsets -/

/-- The lexeme without its place. -/
def Lexeme.unplaced (lexeme : Lexeme) : Scanned :=
  ⟨0, lexeme, 0⟩

/-- The atom without its place. -/
def PlacedAtom.unplaced (placed : PlacedAtom) : PlacedAtom :=
  { placed with offset := 0 }

/-- To change a result changes the value that is taken from it. -/
theorem toOption_map {ε α β : Type} (f : α → β) (result : Except ε α) :
    (result.map f).toOption = result.toOption.map f := by
  cases result <;> rfl

namespace Pending

/-- What waits, without its place. -/
def unplaced : Pending → Pending
  | group _ => group 0
  | operator op _ => operator op 0

/-- Which operators an operator releases does not depend on places. -/
theorem release_unplaced (op : Operator) (stack : List Pending) :
    release op (stack.map unplaced) =
      ((release op stack).1.map PlacedAtom.unplaced, (release op stack).2.map unplaced) := by
  induction stack with
  | nil => rfl
  | cons top stack ih =>
    cases top with
    | group offset => rfl
    | operator top offset =>
      simp only [List.map_cons, unplaced, release]
      split
      · rfl
      · simp only [ih]
        rfl

/-- What an operator releases and leaves on the stack does not depend on places. -/
theorem push_unplaced (op : Operator) (offset : Nat) (stack : List Pending) :
    push op 0 (stack.map unplaced) =
      ((push op offset stack).1.map PlacedAtom.unplaced,
        (push op offset stack).2.map unplaced) := by
  unfold push
  split
  · rfl
  · rw [release_unplaced]
    rfl

/-- What the end of a group releases does not depend on places. -/
theorem closeGroup_unplaced (stack : List Pending) :
    closeGroup (stack.map unplaced) =
      (closeGroup stack).map fun (released, kept) =>
        (released.map PlacedAtom.unplaced, kept.map unplaced) := by
  induction stack with
  | nil => rfl
  | cons top stack ih =>
    cases top with
    | group offset => rfl
    | operator op offset =>
      simp only [List.map_cons, unplaced, closeGroup, ih]
      cases closeGroup stack <;> rfl

/-- Whether the stack can be emptied, and what it releases then, does not depend on places. -/
theorem toOption_drain_unplaced (stack : List Pending) :
    (drain (stack.map unplaced)).toOption =
      (drain stack).toOption.map (List.map PlacedAtom.unplaced) := by
  induction stack with
  | nil => rfl
  | cons top stack ih =>
    cases top with
    | group offset => rfl
    | operator op offset =>
      have hdrain : ∀ (offset : Nat) (stack : List Pending), drain (operator op offset :: stack) =
          (drain stack).map (⟨.operator op, offset⟩ :: ·) := fun _ _ => rfl
      rw [List.map_cons, unplaced, hdrain, hdrain, toOption_map, toOption_map, ih, Option.map_map,
        Option.map_map]
      rfl

end Pending

/-- A closing parenthesis is refused where no group is open. -/
theorem reorder_groupClose_of_none {scanned : Scanned} {rest : List Scanned} {stack : List Pending}
    (h : scanned.lexeme = .token .groupClose) (hclose : Pending.closeGroup stack = none) :
    reorder (scanned :: rest) stack = .error ⟨.unmatchedClose, scanned.start⟩ := by
  rw [reorder, h]
  simp only [hclose]
  rfl

/-- Reordering goes by lexemes. Their offsets go along with the atoms and tell where a fault is. -/
theorem toOption_reorder_unplaced (scanned : List Scanned) (stack : List Pending) :
    (reorder (scanned.map fun found => found.lexeme.unplaced)
      (stack.map Pending.unplaced)).toOption =
      (reorder scanned stack).toOption.map (List.map PlacedAtom.unplaced) := by
  induction scanned generalizing stack with
  | nil => exact Pending.toOption_drain_unplaced stack
  | cons found scanned ih =>
    obtain ⟨start, lexeme, stop⟩ := found
    rw [List.map_cons, Lexeme.unplaced]
    cases lexeme with
    | invalid text lead => rfl
    | token token =>
      cases token with
      | literal text =>
        rw [reorder_literal rfl, reorder_literal rfl, toOption_map, toOption_map, ih,
          Option.map_map, Option.map_map]
        rfl
      | operator op =>
        rw [reorder_operator rfl, reorder_operator rfl, Pending.push_unplaced op start,
          toOption_map, toOption_map, ih, Option.map_map, Option.map_map]
        simp only [Function.comp_def, List.map_append]
      | groupOpen =>
        rw [reorder_groupOpen rfl, reorder_groupOpen rfl]
        exact ih (.group start :: stack)
      | groupClose =>
        cases hclose : Pending.closeGroup stack with
        | none =>
          have hunplaced := Pending.closeGroup_unplaced stack
          rw [hclose] at hunplaced
          rw [reorder_groupClose_of_none rfl hclose, reorder_groupClose_of_none rfl hunplaced]
          rfl
        | some closed =>
          obtain ⟨released, kept⟩ := closed
          have hunplaced := Pending.closeGroup_unplaced stack
          rw [hclose] at hunplaced
          rw [reorder_groupClose rfl hclose, reorder_groupClose rfl hunplaced, toOption_map,
            toOption_map, ih, Option.map_map, Option.map_map]
          simp only [Function.comp_def, List.map_append]

/-- Whether operands are missing does not depend on places. -/
theorem toOption_checkOperands_unplaced (placed : List PlacedAtom) (depth : Nat) :
    (checkOperands (placed.map PlacedAtom.unplaced) depth).toOption =
      (checkOperands placed depth).toOption := by
  induction placed generalizing depth with
  | nil => rfl
  | cons first placed ih =>
    obtain ⟨atom, offset⟩ := first
    cases atom with
    | literal text => exact ih (depth + 1)
    | operator op =>
      simp only [List.map_cons, PlacedAtom.unplaced, checkOperands]
      split
      · rfl
      · exact ih _

/-- Only tokens can be reordered. -/
theorem exists_token_of_reorder {scanned : List Scanned} {stack : List Pending}
    {placed : List PlacedAtom} (h : reorder scanned stack = .ok placed) :
    ∀ lexeme ∈ scanned.map Scanned.lexeme, ∃ token, lexeme = .token token := by
  induction scanned generalizing stack placed with
  | nil => simp
  | cons found scanned ih =>
    have hrest : ∀ {stack : List Pending} {f : List PlacedAtom → List PlacedAtom},
        (reorder scanned stack).map f = .ok placed →
        ∀ lexeme ∈ scanned.map Scanned.lexeme, ∃ token, lexeme = .token token := by
      intro stack f hmap
      cases hrest : reorder scanned stack with
      | error fault =>
        rw [hrest] at hmap
        cases hmap
      | ok placed => exact ih hrest
    rw [List.map_cons, List.forall_mem_cons]
    cases hlexeme : found.lexeme with
    | invalid text lead =>
      rw [reorder, hlexeme] at h
      cases h
    | token token =>
      refine ⟨⟨token, rfl⟩, ?_⟩
      cases token with
      | literal text => exact hrest (reorder_literal hlexeme ▸ h)
      | operator op => exact hrest (reorder_operator hlexeme ▸ h)
      | groupOpen => exact ih (reorder_groupOpen hlexeme ▸ h)
      | groupClose =>
        cases hclose : Pending.closeGroup stack with
        | none =>
          rw [reorder_groupClose_of_none hlexeme hclose] at h
          cases h
        | some closed => exact hrest (reorder_groupClose hlexeme hclose ▸ h)

namespace Expression

/-- The atoms that lexemes are compiled to, if they make up an expression. -/
def atomsOfLexemes? (lexemes : List Lexeme) : Option (List Atom) := do
  let placed ← (reorder (lexemes.map Lexeme.unplaced) []).toOption
  (checkOperands placed 0).toOption
  return placed.map PlacedAtom.atom

/-- The atoms of a source are those of its lexemes. -/
theorem toOption_atomsOf (source : String) :
    (atomsOf source).toOption = atomsOfLexemes? (Token.lexemes source.toList) := by
  have hreorder := toOption_reorder_unplaced (Token.scan source) []
  have hlexemes : (Token.lexemes source.toList).map Lexeme.unplaced =
      (Token.scan source).map fun found => found.lexeme.unplaced := by
    rw [Token.lexemes, List.map_map]
    rfl
  rw [atomsOfLexemes?, hlexemes, ← List.map_nil, hreorder, atomsOf]
  cases reorder (Token.scan source) [] with
  | error fault => rfl
  | ok placed =>
    have hcheck := toOption_checkOperands_unplaced placed 0
    change (checkOperands placed 0 >>= fun _ => .ok (placed.map PlacedAtom.atom)).toOption =
      (checkOperands (placed.map PlacedAtom.unplaced) 0).toOption.bind
        fun _ => some ((placed.map PlacedAtom.unplaced).map PlacedAtom.atom)
    rw [hcheck, List.map_map]
    cases checkOperands placed 0 <;> rfl

/-! ### Expressions with one id -/

/-- A compiled expression holds its source, the id of its source, and the atoms of its source. -/
theorem of_compile {source : String} {expression : Expression}
    (h : compile source = .ok expression) :
    expression.source = source ∧ expression.id = idOf source ∧
      atomsOf source = .ok expression.atoms := by
  unfold compile at h
  cases hatoms : atomsOf source with
  | error fault =>
    rw [hatoms] at h
    cases h
  | ok atoms =>
    rw [hatoms] at h
    cases h
    exact ⟨rfl, rfl, rfl⟩

/-- A source that compiles has tokens only. -/
theorem exists_token_of_compile {source : String} {expression : Expression}
    (h : compile source = .ok expression) :
    ∀ lexeme ∈ Token.lexemes source.toList, ∃ token, lexeme = .token token := by
  have hatoms := (of_compile h).2.2
  cases hreorder : reorder (Token.scan source) [] with
  | error fault =>
    rw [atomsOf, hreorder] at hatoms
    cases hatoms
  | ok placed => exact exists_token_of_reorder hreorder

/-- A compiled expression in whose source no blanks split an operator. -/
structure Unsplit (expression : Expression) : Prop where
  compiles : compile expression.source = .ok expression
  unsplit : Token.Unsplit expression.source.toList

/-- The id of an expression is a source of the same atoms, if no blanks split an operator. -/
theorem Unsplit.atomsOfLexemes?_id {expression : Expression} (h : expression.Unsplit) :
    atomsOfLexemes? (Token.lexemes expression.id.toList) = some expression.atoms := by
  obtain ⟨-, hid, hatoms⟩ := of_compile h.compiles
  have hid : expression.id.toList = Token.withoutBlanks expression.source.toList := by
    rw [hid, idOf, String.toList_ofList]
    rfl
  rw [hid, Token.lexemes_withoutBlanks h.unsplit (exists_token_of_compile h.compiles),
    ← toOption_atomsOf, hatoms]
  rfl

/-- Expressions without split operators that have the same id have the same atoms. -/
theorem Unsplit.atoms_eq {expression other : Expression} (h : expression.Unsplit)
    (hother : other.Unsplit) (hid : expression.id = other.id) : expression.atoms = other.atoms := by
  have hatoms := h.atomsOfLexemes?_id
  rw [hid, hother.atomsOfLexemes?_id] at hatoms
  exact (Option.some.inj hatoms).symm

end Expression

/-! ### Remembered values -/

namespace Memo

/-- All values that are remembered in a scope are those of expressions of some kind. -/
def Recalls (memo : Memo) (scope : Scope) (Known : Expression → Prop) : Prop :=
  ∀ id value, memo.get? id = some value →
    ∃ expression, Known expression ∧ expression.id = id ∧ value = expression.evaluate scope

/-- An empty memory holds no wrong values. -/
theorem recalls_nil (scope : Scope) (Known : Expression → Prop) : Recalls [] scope Known := by
  intro id value h
  cases h

/-- If the id tells the value of an expression, asking a memory for it gives this value, whether it
was remembered or not. The memory keeps being right. -/
theorem Recalls.evaluate {memo : Memo} {scope : Scope} {Known : Expression → Prop}
    (h : memo.Recalls scope Known)
    (hid : ∀ expression other, Known expression → Known other → expression.id = other.id →
      expression.evaluate scope = other.evaluate scope)
    {expression : Expression} (hknown : Known expression) :
    (memo.evaluate expression scope).1 = expression.evaluate scope ∧
      (memo.evaluate expression scope).2.Recalls scope Known := by
  unfold Memo.evaluate
  split
  · next value hvalue =>
    obtain ⟨other, hother, heq, rfl⟩ := h _ _ hvalue
    exact ⟨hid other expression hother hknown heq, h⟩
  · refine ⟨rfl, fun id value hvalue => ?_⟩
    by_cases heq : id = expression.id
    · subst heq
      have hvalue := (Table.get?_insert_self memo expression.id _).symm.trans hvalue
      exact ⟨expression, hknown, rfl, (Option.some.inj hvalue).symm⟩
    · exact h id value ((Table.get?_insert_of_ne memo heq _).symm.trans hvalue)

/-- The values of expressions in one scope, asked for one after another. -/
def values (memo : Memo) (scope : Scope) : List Expression → List Value
  | [] => []
  | expression :: rest =>
    let (value, memo) := memo.evaluate expression scope
    value :: values memo scope rest

/-- A memory gives every expression its own value if expressions with the same id have the same
value. -/
theorem Recalls.values {memo : Memo} {scope : Scope} {Known : Expression → Prop}
    (h : memo.Recalls scope Known)
    (hid : ∀ expression other, Known expression → Known other → expression.id = other.id →
      expression.evaluate scope = other.evaluate scope)
    {expressions : List Expression} (hknown : ∀ expression ∈ expressions, Known expression) :
    memo.values scope expressions =
      expressions.map fun expression => expression.evaluate scope := by
  induction expressions generalizing memo with
  | nil => rfl
  | cons expression rest ih =>
    obtain ⟨hvalue, hafter⟩ := h.evaluate hid (hknown expression List.mem_cons_self)
    have hrest := ih hafter fun other hother => hknown other (List.mem_cons_of_mem _ hother)
    rw [Memo.values, List.map_cons, ← hrest, ← hvalue]

end Memo

end BraceTemplate
