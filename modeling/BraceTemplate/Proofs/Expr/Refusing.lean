import BraceTemplate.Proofs.Expr.Accepting

/-!
# What compiling keeps, and what it refuses

The atoms of an accepted source are its literals in the order of the source and its operators in
some order, each of them once. A source is refused if a run in it is no word, if its parentheses do
not balance, or if its atoms, reordered, do not supply each other with operands. There are no other
reasons.
-/

namespace BraceTemplate

open scoped List

/-- The text of an atom that is a literal. -/
def Atom.literal? : Atom → Option String
  | literal text => some text
  | operator _ => none

/-- The text of a token that is a literal. -/
def Token.literal? : Token → Option String
  | literal text => some text
  | operator _ | groupOpen | groupClose => none

/-- Read inside of some open groups, every closing parenthesis among lexemes ends a group, and none
is left open. -/
def ClosesAll (groups : Nat) (lexemes : List Lexeme) : Prop :=
  lexemes.count (.token .groupClose) = groups + lexemes.count (.token .groupOpen) ∧
    ∀ front, front <+: lexemes →
      front.count (.token .groupClose) ≤ groups + front.count (.token .groupOpen)

/-- The parentheses among lexemes balance: as many close as open, and in no part from the beginning
on more close than open. -/
def Balanced (lexemes : List Lexeme) : Prop :=
  ClosesAll 0 lexemes

/-! ### Literals -/

/-- No literal waits on the stack. -/
theorem literal?_placed_pending (stack : List Pending) :
    ((stack.filterMap Pending.placed?).map PlacedAtom.atom).filterMap Atom.literal? = [] := by
  rw [List.filterMap_eq_nil_iff]
  intro atom hatom
  obtain ⟨placed, hplaced, rfl⟩ := List.mem_map.1 hatom
  obtain ⟨pending, -, hpending⟩ := List.mem_filterMap.1 hplaced
  cases pending with
  | group offset => cases hpending
  | operator op offset =>
    cases hpending
    rfl

/-- The literals among the atoms of tokens are those among the tokens. -/
theorem filterMap_literal?_atom? (tokens : List Token) :
    (tokens.filterMap Token.atom?).filterMap Atom.literal? = tokens.filterMap Token.literal? := by
  rw [List.filterMap_filterMap]
  congr 1
  funext token
  cases token <;> rfl

/-- Reordering keeps the literals in their order. -/
theorem literals_of_reorder {scanned : List Scanned} {stack : List Pending}
    {placed : List PlacedAtom} (h : reorder scanned stack = .ok placed) :
    (placed.map PlacedAtom.atom).filterMap Atom.literal? =
      ((scanned.filterMap Scanned.placed?).map PlacedAtom.atom).filterMap Atom.literal? := by
  -- No literal waits on a stack, so a step releases the literal that it reads and no other one.
  induction scanned generalizing stack placed with
  | nil =>
    have hperm := ((perm_of_reorder h).map PlacedAtom.atom).filterMap Atom.literal?
    rw [List.filterMap_nil, List.nil_append, literal?_placed_pending] at hperm
    exact hperm.eq_nil
  | cons found scanned ih =>
    obtain ⟨token, hfound⟩ := exists_token_of_reorder h found.lexeme List.mem_cons_self
    obtain ⟨released, next, more, hmore, rfl, hperm, -⟩ := exists_step_of_reorder hfound h
    have hperm := (hperm.map PlacedAtom.atom).filterMap Atom.literal?
    simp only [List.map_append, List.filterMap_append, literal?_placed_pending,
      List.append_nil] at hperm
    have hreleased : (released.map PlacedAtom.atom).filterMap Atom.literal? =
        (found.placed?.toList.map PlacedAtom.atom).filterMap Atom.literal? := by
      rw [Scanned.placed?_of_token hfound] at hperm ⊢
      cases token with
      | literal text => exact List.perm_singleton.1 hperm
      | operator op | groupOpen | groupClose => exact List.perm_nil.1 hperm
    rw [Scanned.filterMap_placed?_cons, List.map_append, List.filterMap_append, hreleased, ih hmore,
      List.map_append, List.filterMap_append]

/-! ### Parentheses -/

/-- Where nothing follows, all groups are closed only if none is open. -/
theorem closesAll_nil_iff {groups : Nat} : ClosesAll groups [] ↔ groups = 0 := by
  simp [ClosesAll, eq_comm]

/-- A token in front of lexemes opens or ends a group for them. -/
theorem closesAll_cons_iff {token : Token} {offset : Nat} {groups next : List Nat}
    {lexemes : List Lexeme} (h : token.groupsBehind? offset groups = some next) :
    ClosesAll groups.length (.token token :: lexemes) ↔ ClosesAll next.length lexemes := by
  have hcount : ∀ lexemes : List Lexeme,
      (lexemes.count (.token .groupClose) : Int) - lexemes.count (.token .groupOpen) - next.length =
        ((Lexeme.token token :: lexemes).count (.token .groupClose) : Int) -
          (Lexeme.token token :: lexemes).count (.token .groupOpen) - groups.length := by
    intro lexemes
    rw [List.count_cons, List.count_cons]
    cases token with
    | literal text | operator op =>
      cases h
      simp
    | groupOpen =>
      cases h
      simp
      omega
    | groupClose =>
      cases groups with
      | nil => cases h
      | cons inner outer =>
        cases h
        simp
        omega
  constructor
  · rintro ⟨htotal, hfront⟩
    have hall := hcount lexemes
    refine ⟨by omega, fun front hprefix => ?_⟩
    have hpart := hfront (.token token :: front) (List.cons_prefix_cons.2 ⟨rfl, hprefix⟩)
    have hsome := hcount front
    omega
  · rintro ⟨htotal, hfront⟩
    have hall := hcount lexemes
    refine ⟨by omega, fun front hprefix => ?_⟩
    rcases List.prefix_cons_iff.1 hprefix with rfl | ⟨part, rfl, hpart⟩
    · simp
    · have hle := hfront part hpart
      have hsome := hcount part
      omega

/-- Only lexemes whose parentheses balance can be reordered. -/
theorem closesAll_of_reorder {scanned : List Scanned} {stack : List Pending}
    {placed : List PlacedAtom} (h : reorder scanned stack = .ok placed) :
    ClosesAll (Pending.groups stack).length (scanned.map Scanned.lexeme) := by
  induction scanned generalizing stack placed with
  | nil =>
    obtain ⟨waiting, rfl, -⟩ := Pending.exists_waiting_of_drain h
    have hgroups := waiting.groups_pending_append []
    rw [List.append_nil] at hgroups
    rw [hgroups]
    exact closesAll_nil_iff.2 rfl
  | cons found scanned ih =>
    obtain ⟨token, hfound⟩ := exists_token_of_reorder h found.lexeme List.mem_cons_self
    obtain ⟨released, next, more, hmore, -, -, hgroups⟩ := exists_step_of_reorder hfound h
    rw [List.map_cons, hfound, closesAll_cons_iff hgroups]
    exact ih hmore

/-! ### Faults -/

/-- Why lexemes cannot be reordered inside of open groups, whose offsets are given from the
innermost one on, and what the fault is. -/
inductive Refuses (groups : List Nat) (scanned : List Scanned) : Fault → Prop
  /-- A run is no word. -/
  | invalid {front back : List Scanned} {found : Scanned} {text : String} {lead : Nat}
      (hscanned : scanned = front ++ found :: back) (hfound : found.lexeme = .invalid text lead) :
    Refuses groups scanned ⟨.invalidLiteral text, found.start + lead⟩
  /-- A closing parenthesis in front of which all groups are closed. -/
  | unmatchedClose {front back : List Scanned} {found : Scanned}
      (hscanned : scanned = front ++ found :: back) (hfound : found.lexeme = .token .groupClose)
      (hfront : ClosesAll groups.length (front.map Scanned.lexeme)) :
    Refuses groups scanned ⟨.unmatchedClose, found.start⟩
  /-- An opening parenthesis behind which all parentheses balance. -/
  | unmatchedOpen {front back : List Scanned} {found : Scanned}
      (hscanned : scanned = front ++ found :: back) (hfound : found.lexeme = .token .groupOpen)
      (hback : Balanced (back.map Scanned.lexeme)) :
      Refuses groups scanned ⟨.unmatchedOpen, found.start⟩
  /-- A group that was open before and is left open. -/
  | leftOpen {inner outer : List Nat} {offset : Nat} (hgroups : groups = inner ++ offset :: outer)
      (hscanned : ClosesAll inner.length (scanned.map Scanned.lexeme)) :
    Refuses groups scanned ⟨.unmatchedOpen, offset⟩

/-- Why lexemes cannot be reordered behind a token is why they cannot be with it. -/
theorem Refuses.cons {found : Scanned} {token : Token} {groups next : List Nat}
    {scanned : List Scanned}
    {fault : Fault} (h : Refuses next scanned fault) (hfound : found.lexeme = .token token)
    (hgroups : token.groupsBehind? found.start groups = some next) :
    Refuses groups (found :: scanned) fault := by
  cases h with
  | @invalid front _ _ _ _ hscanned hinvalid =>
    exact @invalid _ _ (found :: front) _ _ _ _ (by rw [hscanned, List.cons_append]) hinvalid
  | @unmatchedClose front _ _ hscanned hclose hfront =>
    refine @unmatchedClose _ _ (found :: front) _ _ (by rw [hscanned, List.cons_append]) hclose ?_
    rw [List.map_cons, hfound]
    exact (closesAll_cons_iff hgroups).2 hfront
  | @unmatchedOpen front _ _ hscanned hopen hback =>
    exact @unmatchedOpen _ _ (found :: front) _ _ (by rw [hscanned, List.cons_append]) hopen hback
  | @leftOpen inner outer offset hnext hscanned =>
    -- The group was open before the token, unless it is the one that the token opens.
    have hkept : ∀ {before : List Nat}, token.groupsBehind? found.start before = some inner →
        groups = before ++ offset :: outer →
          Refuses groups (found :: scanned) ⟨.unmatchedOpen, offset⟩ := by
      intro before hbefore hsplit
      refine leftOpen hsplit ?_
      rw [List.map_cons, hfound]
      exact (closesAll_cons_iff hbefore).2 hscanned
    cases token with
    | literal text | operator op =>
      cases hgroups
      exact hkept rfl hnext
    | groupOpen =>
      cases hgroups
      cases inner with
      | nil =>
        obtain ⟨rfl, -⟩ := List.cons.inj hnext
        exact @unmatchedOpen _ _ [] _ _ rfl hfound hscanned
      | cons first inner =>
        obtain ⟨rfl, houter⟩ := List.cons.inj hnext
        exact hkept rfl houter
    | groupClose =>
      cases groups with
      | nil => cases hgroups
      | cons first groups =>
        cases hgroups
        exact @hkept (first :: inner) rfl (congrArg (first :: ·) hnext)

/-- The stack cannot be emptied if a group is open, and the fault is about the innermost one. -/
theorem Pending.exists_of_drain_error {stack : List Pending} {fault : Fault}
    (h : drain stack = .error fault) :
    ∃ offset outer, groups stack = offset :: outer ∧ fault = ⟨.unmatchedOpen, offset⟩ := by
  induction stack with
  | nil => cases h
  | cons top stack ih =>
    cases top with
    | group offset =>
      cases h
      exact ⟨offset, groups stack, rfl, rfl⟩
    | operator op offset =>
      cases hdrain : drain stack with
      | error other =>
        rw [drain, hdrain] at h
        cases h
        exact ih hdrain
      | ok released =>
        rw [drain, hdrain] at h
        cases h

/-- A fault of reordering has one of the reasons. -/
theorem refuses_of_reorder {scanned : List Scanned} {stack : List Pending} {fault : Fault}
    (h : reorder scanned stack = .error fault) : Refuses (Pending.groups stack) scanned fault := by
  induction scanned generalizing stack with
  | nil =>
    obtain ⟨offset, outer, hgroups, rfl⟩ := Pending.exists_of_drain_error h
    exact @Refuses.leftOpen _ _ [] outer offset hgroups (closesAll_nil_iff.2 rfl)
  | cons found scanned ih =>
    cases hfound : found.lexeme with
    | invalid text lead =>
      rw [reorder, hfound] at h
      cases h
      exact @Refuses.invalid _ _ [] _ _ _ _ rfl hfound
    | token token =>
      rcases reorder_token hfound stack with
        ⟨rfl, hnone, herror⟩ | ⟨released, next, hreorder, -, hgroups⟩
      · rw [herror] at h
        cases h
        refine @Refuses.unmatchedClose _ _ [] _ _ rfl hfound ?_
        rw [hnone]
        exact closesAll_nil_iff.2 rfl
      · rw [hreorder] at h
        cases hmore : reorder scanned next with
        | error other =>
          rw [hmore] at h
          cases h
          exact (ih hmore).cons hfound hgroups
        | ok placed =>
          rw [hmore] at h
          cases h

/-- Where no group is open before, every reason is a run that is no word or parentheses that do not
balance. -/
theorem Refuses.not_balanced {scanned : List Scanned} {fault : Fault}
    (h : Refuses [] scanned fault) :
    (∃ text lead, Lexeme.invalid text lead ∈ scanned.map Scanned.lexeme) ∨
      ¬Balanced (scanned.map Scanned.lexeme) := by
  cases h with
  | @invalid front back found text lead hscanned hfound =>
    refine .inl ⟨text, lead, hfound ▸ List.mem_map_of_mem ?_⟩
    rw [hscanned]
    exact List.mem_append_right _ List.mem_cons_self
  | @unmatchedClose front back found hscanned hfound hfront =>
    refine .inr fun hbalanced => ?_
    have hprefix :
        front.map Scanned.lexeme ++ [.token .groupClose] <+: scanned.map Scanned.lexeme :=
      ⟨back.map Scanned.lexeme, by simp [hscanned, hfound]⟩
    have hle := hbalanced.2 _ hprefix
    have htotal := hfront.1
    simp only [List.count_append, List.count_singleton, List.length_nil] at hle htotal
    simp at hle
    omega
  | @unmatchedOpen front back found hscanned hfound hback =>
    refine .inr fun hbalanced => ?_
    have hprefix : front.map Scanned.lexeme <+: scanned.map Scanned.lexeme :=
      ⟨(found :: back).map Scanned.lexeme, by rw [hscanned, List.map_append]⟩
    have hle := hbalanced.2 _ hprefix
    have htotal := hbalanced.1
    have hrest := hback.1
    rw [hscanned, List.map_append, List.map_cons, hfound] at htotal
    simp only [List.count_append, List.count_cons] at htotal
    simp at htotal
    omega
  | @leftOpen inner outer offset hgroups => simp at hgroups

/-- Where the operand check fails, the atoms leave no value or more than one, or there is a first
operator that lacks operands. -/
theorem exists_of_checkOperands_error {placed : List PlacedAtom} {depth : Nat} {fault : Fault}
    (h : checkOperands placed depth = .error fault) :
    (fault.cause = .empty ∨ fault.cause = .unjoined) ∨
      ∃ front op offset back, placed = front ++ ⟨.operator op, offset⟩ :: back ∧
        fault = ⟨.missingOperand op, offset⟩ ∧ FindOperands depth (front.map PlacedAtom.atom) ∧
        depth + totalGain (front.map PlacedAtom.atom) < op.arity := by
  induction placed generalizing depth with
  | nil =>
    match depth with
    | 0 =>
      cases h
      exact .inl (.inl rfl)
    | 1 => cases h
    | depth + 2 =>
      cases h
      exact .inl (.inr rfl)
  | cons first placed ih =>
    obtain ⟨atom, offset⟩ := first
    -- What the first atom leaves is in front of the others.
    have hrest : ∀ {next : Nat}, (next : Int) = depth + atom.gain →
        (∀ op, atom = .operator op → op.arity ≤ depth) → checkOperands placed next = .error fault →
        (fault.cause = .empty ∨ fault.cause = .unjoined) ∨
          ∃ front op place back, ⟨atom, offset⟩ :: placed = front ++ ⟨.operator op, place⟩ :: back ∧
            fault = ⟨.missingOperand op, place⟩ ∧ FindOperands depth (front.map PlacedAtom.atom) ∧
            depth + totalGain (front.map PlacedAtom.atom) < op.arity := by
      intro next hnext hfirst hcheck
      refine (ih hcheck).imp_right ?_
      rintro ⟨front, op, place, back, rfl, hfault, hfind, hmissing⟩
      refine ⟨⟨atom, offset⟩ :: front, op, place, back, rfl, hfault,
        (findOperands_cons_iff hnext).2 ⟨hfirst, hfind⟩, ?_⟩
      rw [List.map_cons, totalGain]
      dsimp only
      omega
    cases atom with
    | literal text => exact hrest (gain_literal depth text) (by simp) h
    | operator op =>
      rw [checkOperands] at h
      split at h
      · next hlt =>
        cases h
        exact .inr ⟨[], op, offset, placed, rfl, rfl, findOperands_nil depth, by
          rw [List.map_nil, totalGain]; omega⟩
      · next hlt =>
        have hle := Nat.le_of_not_lt hlt
        exact hrest (gain_of_arity_le hle) (by simp [hle]) h

namespace Expression

/-- A source that is refused cannot be reordered or does not pass the operand check. -/
theorem of_compile_error {source : String} {fault : Fault} (h : compile source = .error fault) :
    reorder (Token.scan source) [] = .error fault ∨
      ∃ placed, reorder (Token.scan source) [] = .ok placed ∧
        checkOperands placed 0 = .error fault := by
  cases hreorder : reorder (Token.scan source) [] with
  | error other =>
    rw [compile, atomsOf, hreorder] at h
    cases h
    exact .inl rfl
  | ok placed =>
    refine .inr ⟨placed, rfl, ?_⟩
    cases hcheck : checkOperands placed 0 with
    | error other =>
      simp only [compile, atomsOf, hreorder, bind, Except.bind, hcheck] at h
      cases h
      rfl
    | ok _ =>
      simp only [compile, atomsOf, hreorder, bind, Except.bind, hcheck] at h
      cases h

/-- An accepted source, infix or not, consists of tokens. Its atoms are those of the tokens and no
others, each once, the literals in the order of the source; read from the first one on, every
operator finds its operands, and one value is left. A source is refused exactly if a run in it is no
word, its parentheses do not balance, or its reordered atoms do not supply each other with operands
like that. -/
theorem compile_conserves (source : String) :
    (∀ expression, compile source = .ok expression →
      ∃ tokens : List Token, Token.lexemes source.toList = tokens.map Lexeme.token ∧
        expression.atoms ~ tokens.filterMap Token.atom? ∧
        expression.atoms.filterMap Atom.literal? = tokens.filterMap Token.literal? ∧
        Supplied 0 expression.atoms) ∧
    ((∃ fault, compile source = .error fault) ↔
      (∃ text lead, Lexeme.invalid text lead ∈ Token.lexemes source.toList) ∨
      ¬Balanced (Token.lexemes source.toList) ∨
      ∃ placed, reorder (Token.scan source) [] = .ok placed ∧
        ¬Supplied 0 (placed.map PlacedAtom.atom)) := by
  refine ⟨fun expression hcompile => ?_, ?_⟩
  · obtain ⟨tokens, htokens, hperm, -⟩ := exists_tokens_of_compile hcompile
    obtain ⟨placed, hreorder, hcheck, hatoms⟩ := exists_placed_of_atomsOf (of_compile hcompile).2.2
    have hscan : (Token.scan source).map Scanned.lexeme = tokens.map Lexeme.token := htokens
    have hliterals := literals_of_reorder hreorder
    rw [map_atom_filterMap_placed? hscan, filterMap_literal?_atom?, ← hatoms] at hliterals
    exact ⟨tokens, htokens, hperm, hliterals, hatoms ▸ checkOperands_eq_ok_iff_supplied.1 hcheck⟩
  · constructor
    · rintro ⟨fault, hcompile⟩
      rcases of_compile_error hcompile with hreorder | ⟨placed, hreorder, hcheck⟩
      · rcases (refuses_of_reorder hreorder).not_balanced with hinvalid | hbalanced
        · exact .inl hinvalid
        · exact .inr (.inl hbalanced)
      · refine .inr (.inr ⟨placed, hreorder, fun hsupplied => ?_⟩)
        rw [checkOperands_eq_ok_iff_supplied.2 hsupplied] at hcheck
        cases hcheck
    · intro hreason
      cases hcompile : compile source with
      | error fault => exact ⟨fault, rfl⟩
      | ok expression =>
        obtain ⟨placed, hreorder, hcheck, -⟩ := exists_placed_of_atomsOf (of_compile hcompile).2.2
        rcases hreason with ⟨text, lead, hinvalid⟩ | hbalanced | ⟨other, hother, hsupplied⟩
        · obtain ⟨token, htoken⟩ := exists_token_of_compile hcompile _ hinvalid
          cases htoken
        · exact absurd (closesAll_of_reorder hreorder) hbalanced
        · rw [hreorder] at hother
          cases hother
          exact absurd (checkOperands_eq_ok_iff_supplied.1 hcheck) hsupplied

/-- A source that is accepted although it is no infix expression, and one for each reason to
refuse. -/
theorem compile_conserves_reasons :
    (∃ (expression : Expression) (tokens : List Token), compile "(a)(b*c)-" = .ok expression ∧
      Token.lexemes "(a)(b*c)-".toList = tokens.map Lexeme.token ∧
      expression.atoms ~ tokens.filterMap Token.atom? ∧
      expression.atoms.filterMap Atom.literal? = tokens.filterMap Token.literal? ∧
      Supplied 0 expression.atoms) ∧
    ∀ source ∈ ["a b", "(a", "a+"], ∃ fault, compile source = .error fault := by
  have haccepted : compile "(a)(b*c)-" = .ok ⟨"(a)(b*c)-", "(a)(b*c)-",
      [.literal "a", .literal "b", .literal "c", .operator .mul, .operator .sub]⟩ := by
    decide +kernel
  constructor
  · obtain ⟨tokens, htokens⟩ := (compile_conserves "(a)(b*c)-").1 _ haccepted
    exact ⟨_, tokens, haccepted, htokens⟩
  · have hplaced : reorder (Token.scan "a+") [] = .ok [⟨.literal "a", 0⟩, ⟨.operator .add, 1⟩] := by
      decide +kernel
    have hmissing : ¬Supplied 0 [.literal "a", .operator .add] := fun hsupplied =>
      absurd hsupplied.2 (by decide)
    rw [List.forall_mem_cons, List.forall_mem_cons, List.forall_mem_singleton]
    refine ⟨(compile_conserves _).2.2 (.inl ⟨"a b", 0, by decide +kernel⟩),
      (compile_conserves _).2.2 (.inr (.inl fun hbalanced => ?_)),
      (compile_conserves _).2.2 (.inr (.inr ⟨_, hplaced, hmissing⟩))⟩
    exact absurd hbalanced.1 (by decide +kernel)

end Expression

end BraceTemplate
