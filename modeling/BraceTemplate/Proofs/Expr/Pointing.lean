import BraceTemplate.Proofs.Expr.Refusing

/-!
# Where faults point to

Every lexeme is read from a part of the source, and the parts follow each other without gaps. A
fault names the offset of the literal that it is about, but of a parenthesis or an operator that at
which its scan begins. Blanks in front of a symbol belong to its scan, unless there is a literal in
front of them, whose run they end. So the offset is that of the symbol exactly if there are no such
blanks.
-/

namespace BraceTemplate

/-! ### Texts at offsets -/

/-- Only the empty text takes no bytes. -/
theorem byteSize_eq_zero_iff {cs : List Char} : byteSize cs = 0 ↔ cs = [] := by
  cases cs with
  | nil => simp
  | cons c cs =>
    have hpos := c.utf8Size_pos
    simp
    omega

/-- A text is cut in one way only at an offset. -/
theorem append_inj_of_byteSize {before after front back : List Char}
    (h : before ++ after = front ++ back)
    (hsize : byteSize before = byteSize front) : before = front ∧ after = back := by
  rcases List.append_eq_append_iff.1 h with ⟨middle, rfl, rfl⟩ | ⟨middle, rfl, rfl⟩
  · rw [byteSize_append, Nat.left_eq_add, byteSize_eq_zero_iff] at hsize
    simp [hsize]
  · rw [byteSize_append, Nat.add_eq_left, byteSize_eq_zero_iff] at hsize
    simp [hsize]

/-- A text stands in a source from a byte offset on. -/
def StandsAt (source : String) (offset : Nat) (text : List Char) : Prop :=
  ∃ before after, source.toList = before ++ text ++ after ∧ byteSize before = offset

/-- The text between the blanks at both ends. -/
theorem exists_eq_append_trim (cs : List Char) :
    ∃ before after, cs = before ++ trim cs ++ after ∧
      byteSize before = byteSize cs - byteSize (trimLeft cs) := by
  have hleft : cs.takeWhile isBlank ++ trimLeft cs = cs := List.takeWhile_append_dropWhile
  have hright : trim cs ++ ((trimLeft cs).reverse.takeWhile isBlank).reverse = trimLeft cs := by
    have hreverse := congrArg List.reverse
      (List.takeWhile_append_dropWhile (p := isBlank) (l := (trimLeft cs).reverse))
    rwa [List.reverse_append, List.reverse_reverse] at hreverse
  refine ⟨cs.takeWhile isBlank, ((trimLeft cs).reverse.takeWhile isBlank).reverse, ?_, ?_⟩
  · rw [List.append_assoc, hright, hleft]
  · have hsize := congrArg byteSize hleft
    rw [byteSize_append] at hsize
    omega

/-! ### What lexemes are read from -/

/-- The text that a lexeme is read from: blanks and a spelling, or a run. -/
inductive Lexeme.ReadFrom : List Char → Lexeme → Prop
  | symbol {token : Token} {blanks spelling : List Char} (hblanks : ∀ c ∈ blanks, isBlank c = true)
      (hspelling : spelling ∈ token.spellings) (hliteral : ∀ text, token ≠ .literal text) :
    ReadFrom (blanks ++ spelling) (.token token)
  | literal {run : List Char} (hword : Token.isWord (trim run) = true) :
    ReadFrom run (.token (.literal (String.ofList (trim run))))
  | invalid {run : List Char} (hnonempty : trim run ≠ [])
      (hword : Token.isWord (trim run) = false) :
    ReadFrom run (.invalid (String.ofList (trim run)) (byteSize run - byteSize (trimLeft run)))

namespace Token

/-- A symbol is read from one of its spellings. -/
theorem exists_spelling_of_symbol? {cs rest : List Char} {token : Token}
    (h : symbol? cs = some (token, rest)) :
    ∃ spelling ∈ token.spellings, cs = spelling ++ rest := by
  unfold symbol? at h
  split at h <;> cases h
  all_goals first | exact ⟨[_, _], by decide, rfl⟩ | exact ⟨[_], by decide, rfl⟩

/-- A text begins behind a symbol or at the beginning of its source, or it begins with a symbol or
is empty. -/
def Behind (before rest : List Char) : Prop :=
  (∀ c ∈ before.getLast?, isSymbolChar c = true) ∨ EndsRun rest

/-- A lexeme is read from the beginning of a text, and the rest begins behind a symbol or with
one. -/
theorem exists_readFrom_of_lexeme? {cs rest : List Char} {lexeme : Lexeme}
    (h : lexeme? cs = some (lexeme, rest)) :
    ∃ middle, middle ≠ [] ∧ cs = middle ++ rest ∧ lexeme.ReadFrom middle ∧ Behind middle rest := by
  have hsplit := run_append_afterRun cs
  unfold lexeme? at h
  split at h
  · next hrun =>
    obtain ⟨⟨token, after⟩, hsymbol, heq⟩ := Option.map_eq_some_iff.1 h
    cases heq
    obtain ⟨spelling, hspelling, hafter⟩ := exists_spelling_of_symbol? hsymbol
    have hliteral := symbol?_ne_literal hsymbol
    obtain ⟨hne, hchars⟩ := isSymbolChar_of_mem_spellings hspelling hliteral
    have hblank := isBlank_of_trim_eq_nil (List.isEmpty_iff.1 hrun)
    refine ⟨run cs ++ spelling, by simp [hne], ?_, .symbol hblank hspelling hliteral,
      .inl fun c hc => ?_⟩
    · rw [List.append_assoc, ← hafter, hsplit]
    · rw [List.getLast?_append_of_ne_nil _ hne] at hc
      exact hchars c (List.mem_of_mem_getLast? hc)
  · next hrun =>
    cases h
    have htrim : trim (run cs) ≠ [] := fun hnil => hrun (List.isEmpty_iff.2 hnil)
    refine ⟨run cs, ?_, hsplit.symm, ?_, .inr (endsRun_afterRun cs)⟩
    · intro hnil
      rw [hnil] at htrim
      exact htrim rfl
    · unfold ofRun
      dsimp only
      split
      · next hword => exact .literal hword
      · next hword => exact .invalid htrim (Bool.eq_false_iff.2 hword)

end Token

/-- A lexeme in its place in a source: what is in front of its scan, what it is read from, and what
is behind. -/
structure Scanned.InPlace (source : List Char) (found : Scanned)
    (front middle back : List Char) : Prop where
  source_eq : source = front ++ middle ++ back
  start_eq : found.start = byteSize front
  stop_eq : found.stop = byteSize (front ++ middle)
  readFrom : found.lexeme.ReadFrom middle
  behind : Token.Behind front (middle ++ back)

namespace Token

/-- Every lexeme that is scanned behind some text is in its place. -/
theorem exists_inPlace_of_mem_scanFrom {before cs : List Char} (hbehind : Behind before cs)
    {found : Scanned} (h : found ∈ (scanFrom (byteSize before) cs).1) :
    ∃ front middle back, found.InPlace (before ++ cs) front middle back := by
  induction hlength : cs.length using Nat.strongRecOn generalizing before cs with
  | ind n ih =>
    subst hlength
    cases hread : lexeme? cs with
    | none =>
      rw [scanFrom_of_none hread] at h
      cases h
    | some read =>
      obtain ⟨lexeme, rest⟩ := read
      obtain ⟨middle, hne, rfl, hmiddle, hrest⟩ := exists_readFrom_of_lexeme? hread
      have hstop : byteSize before + (byteSize (middle ++ rest) - byteSize rest) =
          byteSize (before ++ middle) := by
        rw [byteSize_append, byteSize_append]
        omega
      rw [scanFrom_of_some hread, hstop] at h
      rcases List.mem_cons.1 h with rfl | h
      · exact ⟨before, middle, rest, (List.append_assoc ..).symm, rfl, rfl, hmiddle, hbehind⟩
      · have hnext : Behind (before ++ middle) rest :=
          hrest.imp_left fun hlast c hc =>
            hlast c (by rwa [List.getLast?_append_of_ne_nil _ hne] at hc)
        rw [← List.append_assoc]
        exact ih rest.length (length_lexeme?_lt hread) hnext h rfl

/-- Every lexeme of a source has its place in it. -/
theorem exists_inPlace_of_mem_scan {source : String} {found : Scanned} (h : found ∈ scan source) :
    ∃ front middle back, found.InPlace source.toList front middle back :=
  @exists_inPlace_of_mem_scanFrom [] source.toList (.inl (by simp)) found h

end Token

/-! ### What a fault is about -/

/-- The lexeme that a fault is about: a run that is no word, an opening parenthesis behind which the
parentheses balance, a closing one in front of which they balance, or the first operator of the
reordered atoms that lacks operands. The fault names the offset at which the scan of the lexeme
begins, and that of the run itself. -/
inductive Blames (source : String) : Fault → Scanned → Prop
  | invalidLiteral {found : Scanned} {text : String} {lead : Nat}
      (hfound : found ∈ Token.scan source)
      (hlexeme : found.lexeme = .invalid text lead) :
    Blames source ⟨.invalidLiteral text, found.start + lead⟩ found
  | unmatchedOpen {found : Scanned} {front back : List Scanned}
      (hfound : Token.scan source = front ++ found :: back)
      (hlexeme : found.lexeme = .token .groupOpen)
      (hback : Balanced (back.map Scanned.lexeme)) :
      Blames source ⟨.unmatchedOpen, found.start⟩ found
  | unmatchedClose {found : Scanned} {front back : List Scanned}
      (hfound : Token.scan source = front ++ found :: back)
      (hlexeme : found.lexeme = .token .groupClose)
      (hfront : Balanced (front.map Scanned.lexeme)) :
      Blames source ⟨.unmatchedClose, found.start⟩ found
  | missingOperand {found : Scanned} {op : Operator} {front back : List PlacedAtom}
      (hfound : found ∈ Token.scan source) (hlexeme : found.lexeme = .token (.operator op))
      (hreorder :
        reorder (Token.scan source) [] = .ok (front ++ ⟨.operator op, found.start⟩ :: back))
      (hfront : FindOperands 0 (front.map PlacedAtom.atom))
      (hmissing : totalGain (front.map PlacedAtom.atom) < op.arity) :
    Blames source ⟨.missingOperand op, found.start⟩ found

/-- An operator in its place comes from an operator at which the scan began there. -/
theorem Scanned.of_placed?_eq_some {found : Scanned} {op : Operator} {offset : Nat}
    (h : found.placed? = some ⟨.operator op, offset⟩) :
    found.lexeme = .token (.operator op) ∧ found.start = offset := by
  cases hlexeme : found.lexeme with
  | invalid text lead =>
    rw [placed?, hlexeme] at h
    cases h
  | token token =>
    rw [placed?_of_token hlexeme] at h
    cases token with
    | operator other =>
      simp only [Token.atom?, Option.map_some, Option.some.injEq, PlacedAtom.mk.injEq,
        Atom.operator.injEq] at h
      exact ⟨by rw [h.1], h.2⟩
    | literal text => simp [Token.atom?] at h
    | groupOpen | groupClose => cases h

/-- Every fault but those that are about the source as a whole is about a lexeme. -/
theorem exists_blames_of_compile {source : String} {fault : Fault}
    (h : Expression.compile source = .error fault) (hempty : fault.cause ≠ .empty)
    (hunjoined : fault.cause ≠ .unjoined) :
    ∃ found ∈ Token.scan source, Blames source fault found := by
  rcases Expression.of_compile_error h with hreorder | ⟨placed, hreorder, hcheck⟩
  · have hmem : ∀ {front back : List Scanned} {found : Scanned},
        Token.scan source = front ++ found :: back → found ∈ Token.scan source := by
      intro front back found hscan
      rw [hscan]
      exact List.mem_append_right _ List.mem_cons_self
    cases refuses_of_reorder hreorder with
    | invalid hscan hlexeme => exact ⟨_, hmem hscan, .invalidLiteral (hmem hscan) hlexeme⟩
    | unmatchedClose hscan hlexeme hfront =>
      exact ⟨_, hmem hscan, .unmatchedClose hscan hlexeme hfront⟩
    | unmatchedOpen hscan hlexeme hback => exact ⟨_, hmem hscan, .unmatchedOpen hscan hlexeme hback⟩
    | leftOpen hgroups => simp [Pending.groups] at hgroups
  · rcases exists_of_checkOperands_error hcheck with
      hwhole | ⟨front, op, offset, back, rfl, rfl, hfront, hmissing⟩
    · exact absurd hwhole (by simp [hempty, hunjoined])
    · have hplaced : ⟨.operator op, offset⟩ ∈ (Token.scan source).filterMap Scanned.placed? := by
        have hperm := perm_of_reorder hreorder
        rw [List.filterMap_nil, List.append_nil] at hperm
        exact hperm.subset (List.mem_append_right _ List.mem_cons_self)
      obtain ⟨found, hfound, hatom⟩ := List.mem_filterMap.1 hplaced
      obtain ⟨hlexeme, rfl⟩ := Scanned.of_placed?_eq_some hatom
      exact ⟨found, hfound,
        .missingOperand hfound hlexeme hreorder hfront (by simpa using hmissing)⟩

/-- A symbol does not begin with a blank. -/
theorem standsAt_iff_of_blanks {source : String} {token : Token}
    {front blanks spelling back : List Char}
    (hsource : source.toList = front ++ blanks ++ spelling ++ back)
    (hblanks : ∀ c ∈ blanks, isBlank c = true) (hspelling : spelling ∈ token.spellings)
    (hliteral : ∀ text, token ≠ .literal text) :
    StandsAt source (byteSize front) spelling ↔ blanks = [] := by
  constructor
  · rintro ⟨before, after, hbefore, hsize⟩
    rw [hsource, List.append_assoc, List.append_assoc, List.append_assoc] at hbefore
    obtain ⟨-, hrest⟩ := append_inj_of_byteSize hbefore hsize.symm
    obtain ⟨hne, hchars⟩ := Token.isSymbolChar_of_mem_spellings hspelling hliteral
    cases blanks with
    | nil => rfl
    | cons blank blanks =>
      obtain ⟨first, others, rfl⟩ := List.exists_cons_of_ne_nil hne
      obtain ⟨rfl, -⟩ := List.cons.inj hrest
      have hblank := hblanks blank List.mem_cons_self
      rw [Token.isBlank_eq_false_of_isSymbolChar (hchars blank List.mem_cons_self)] at hblank
      cases hblank
  · rintro rfl
    exact ⟨front, back, by rw [hsource, List.append_nil], rfl⟩

/-- A run that is no word is written where its fault points to. -/
theorem standsAt_of_invalid {source : String} {found : Scanned} {text : String} {lead : Nat}
    (hfound : found ∈ Token.scan source) (hlexeme : found.lexeme = .invalid text lead) :
    StandsAt source (found.start + lead) text.toList := by
  obtain ⟨front, middle, back, hplace⟩ := Token.exists_inPlace_of_mem_scan hfound
  have hread := hplace.readFrom
  rw [hlexeme] at hread
  cases hread with
  | invalid hnonempty hword =>
    obtain ⟨before, after, hmiddle, hlead⟩ := exists_eq_append_trim middle
    refine ⟨front ++ before, after ++ back, ?_, ?_⟩
    · rw [hplace.source_eq, String.toList_ofList]
      conv_lhs => rw [hmiddle]
      simp only [List.append_assoc]
    · rw [byteSize_append, hplace.start_eq, hlead]

/-- Only blanks stand between the place at which the scan of a symbol begins and its spelling. They
follow another symbol or the beginning of the source, and the symbol is written at that place
exactly if there are none. -/
theorem exists_spelling_of_mem_scan {source : String} {found : Scanned} {token : Token}
    (hfound : found ∈ Token.scan source) (hlexeme : found.lexeme = .token token)
    (hliteral : ∀ text, token ≠ .literal text) :
    ∃ front blanks spelling back, source.toList = front ++ blanks ++ spelling ++ back ∧
      found.start = byteSize front ∧ found.stop = byteSize (front ++ blanks ++ spelling) ∧
      (∀ c ∈ blanks, isBlank c = true) ∧ spelling ∈ token.spellings ∧
      (blanks ≠ [] → ∀ c ∈ front.getLast?, Token.isSymbolChar c = true) ∧
      (StandsAt source found.start spelling ↔ blanks = []) := by
  obtain ⟨front, middle, back, hplace⟩ := Token.exists_inPlace_of_mem_scan hfound
  have hread := hplace.readFrom
  rw [hlexeme] at hread
  cases hread with
  | literal hword => exact absurd rfl (hliteral _)
  | @symbol _ blanks spelling hblanks hspelling _ =>
    have hsource : source.toList = front ++ blanks ++ spelling ++ back := by
      rw [hplace.source_eq, ← List.append_assoc front]
    refine ⟨front, blanks, spelling, back, hsource, hplace.start_eq,
      by rw [hplace.stop_eq, List.append_assoc], hblanks, hspelling, fun hne => ?_, ?_⟩
    · refine hplace.behind.resolve_right fun hends => ?_
      -- The scan begins with a blank, which is no symbol.
      obtain ⟨blank, others, rfl⟩ := List.exists_cons_of_ne_nil hne
      have hsymbol := hends blank rfl
      rw [Token.isSymbolChar_eq_false_of_isBlank (hblanks blank List.mem_cons_self)] at hsymbol
      cases hsymbol
    · rw [hplace.start_eq]
      exact standsAt_iff_of_blanks hsource hblanks hspelling hliteral

namespace Expression

/-- A source is refused for a lexeme, unless it has no operands or they are not joined. If that is a
run which is no word, the offset of the fault is the one at which its text is written. If it is a
parenthesis or an operator, only blanks stand between the offset of the fault and its spelling.
These follow another symbol or the beginning of the source, and the symbol is written at the offset
exactly if there are none. -/
theorem compile_error_located {source : String} {fault : Fault} (h : compile source = .error fault)
    (hempty : fault.cause ≠ .empty) (hunjoined : fault.cause ≠ .unjoined) :
    ∃ found ∈ Token.scan source, Blames source fault found ∧
      ((∃ text lead, found.lexeme = .invalid text lead ∧ StandsAt source fault.offset text.toList) ∨
      ∃ token front blanks spelling back, found.lexeme = .token token ∧
        source.toList = front ++ blanks ++ spelling ++ back ∧
        fault.offset = byteSize front ∧ found.stop = byteSize (front ++ blanks ++ spelling) ∧
        (∀ c ∈ blanks, isBlank c = true) ∧ spelling ∈ token.spellings ∧
        (blanks ≠ [] → ∀ c ∈ front.getLast?, Token.isSymbolChar c = true) ∧
        (StandsAt source fault.offset spelling ↔ blanks = [])) := by
  obtain ⟨found, hfound, hblames⟩ := exists_blames_of_compile h hempty hunjoined
  refine ⟨found, hfound, hblames, ?_⟩
  cases hblames with
  | invalidLiteral _ hlexeme => exact .inl ⟨_, _, hlexeme, standsAt_of_invalid hfound hlexeme⟩
  | unmatchedOpen _ hlexeme | unmatchedClose _ hlexeme | missingOperand _ hlexeme =>
    obtain ⟨front, blanks, spelling, back, hplace⟩ :=
      exists_spelling_of_mem_scan hfound hlexeme (by simp)
    exact .inr ⟨_, front, blanks, spelling, back, hlexeme, hplace⟩

/-- The closing parenthesis is two blanks behind the offset of its fault, and the run at the offset
of its own. -/
theorem compile_error_located_blanks :
    (compile "ä &&  )" = .error ⟨.invalidLiteral "ä", 0⟩ ∧
      compile "a &&  )" = .error ⟨.unmatchedClose, 4⟩) ∧
    (∃ found ∈ Token.scan "ä &&  )", Blames "ä &&  )" ⟨.invalidLiteral "ä", 0⟩ found) ∧
    ∃ found ∈ Token.scan "a &&  )", Blames "a &&  )" ⟨.unmatchedClose, 4⟩ found ∧
      ((∃ text lead, found.lexeme = .invalid text lead ∧ StandsAt "a &&  )" 4 text.toList) ∨
      ∃ token front blanks spelling back, found.lexeme = .token token ∧
        "a &&  )".toList = front ++ blanks ++ spelling ++ back ∧
        4 = byteSize front ∧ found.stop = byteSize (front ++ blanks ++ spelling) ∧
        (∀ c ∈ blanks, isBlank c = true) ∧ spelling ∈ token.spellings ∧
        (blanks ≠ [] → ∀ c ∈ front.getLast?, Token.isSymbolChar c = true) ∧
        (StandsAt "a &&  )" 4 spelling ↔ blanks = [])) := by
  have hinvalid : compile "ä &&  )" = .error ⟨.invalidLiteral "ä", 0⟩ := by decide +kernel
  have hclose : compile "a &&  )" = .error ⟨.unmatchedClose, 4⟩ := by decide +kernel
  refine ⟨⟨hinvalid, hclose⟩, ?_, compile_error_located hclose (by simp) (by simp)⟩
  obtain ⟨found, hfound, hblames, -⟩ := compile_error_located hinvalid (by simp) (by simp)
  exact ⟨found, hfound, hblames⟩

/-- A blank in front of the parenthesis that a fault is about keeps the fault from pointing to
it. -/
theorem not_standsAt_behind_blank :
    compile " (a" = .error ⟨.unmatchedOpen, 0⟩ ∧ StandsAt " (a" 1 ['('] ∧
      ¬StandsAt " (a" 0 ['('] := by
  refine ⟨by decide +kernel, ⟨[' '], ['a'], by decide, by decide⟩, ?_⟩
  have hblank : ∀ c ∈ [' '], isBlank c = true := List.all_eq_true.1 (by decide)
  have hiff :=
    @standsAt_iff_of_blanks " (a" .groupOpen [] [' '] ['('] ['a'] (by decide) hblank (by decide)
    (by simp)
  rw [show (0 : Nat) = byteSize [] from rfl, hiff]
  simp

end Expression

end BraceTemplate
