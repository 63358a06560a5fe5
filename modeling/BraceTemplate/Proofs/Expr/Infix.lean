import BraceTemplate.Expr.Eval
import BraceTemplate.Proofs.Expr.Spelling

/-!
# Infix expressions

The syntax trees of the expression language and the grammar that says which token lists denote which
tree. Reordering with a stack of pending operators turns the tokens of a tree into its atoms in
post-order, and evaluating those from the last one backwards gives the value of the tree. Together:
an infix expression, however it is spelled, is compiled and evaluated as its tree.
-/

namespace BraceTemplate

/-- A syntax tree. The operator between two operands is none that stands in front of a single
one. -/
inductive Tree where
  | literal (text : String)
  | negation (operand : Tree)
  | binary (op : Operator) (hbinary : op.isPrefix = false) (left right : Tree)

namespace Tree

/-- The atoms of a tree in post-order. -/
def atoms : Tree → List Atom
  | literal text => [.literal text]
  | negation operand => operand.atoms ++ [.operator .not]
  | binary op _ left right => left.atoms ++ (right.atoms ++ [.operator op])

/-- The value of a tree in a scope. -/
def value (scope : Scope) : Tree → Value
  | literal text => literalValue scope text
  | negation operand => .bool (!(operand.value scope).truthy)
  | binary op _ left right => op.apply (left.value scope) (right.value scope)

end Tree

/-- The binding strength of operands: words, groups and negations bind tighter than any operator
between two operands. -/
def operandStrength : Nat := 5

/-- The operators of one level of the infix grammar. The comparisons bind loosest, products
tightest. -/
def levelOperators : (strength : Nat) → List Operator
  | 1 => [.equal, .notEqual, .less, .greater, .lessEq, .greaterEq]
  | 2 => [.and, .or]
  | 3 => [.add, .sub]
  | 4 => [.mul, .div, .mod]
  | _ => []

/-- The infix grammar. Outside of parentheses, tokens of some strength have operators of that level
and of stronger ones only. The operators of one level group to the left: the left operand may be of
the same strength, the right one has to be stronger. -/
inductive Infix : (strength : Nat) → Tree → List Token → Prop
  | word {text : String} (hplain : Token.IsPlainWord text.toList) :
      Infix operandStrength (.literal text) [.literal text]
  | group {tree : Tree} {tokens : List Token} (hinner : Infix 1 tree tokens) :
      Infix operandStrength tree (.groupOpen :: (tokens ++ [.groupClose]))
  | negation {tree : Tree} {tokens : List Token} (hoperand : Infix operandStrength tree tokens) :
      Infix operandStrength (.negation tree) (.operator .not :: tokens)
  | binary {strength : Nat} {op : Operator} {left right : Tree}
      {leftTokens rightTokens : List Token} (hlevel : op ∈ levelOperators strength)
      (hbinary : op.isPrefix = false) (hleft : Infix strength left leftTokens)
      (hright : Infix (strength + 1) right rightTokens) :
      Infix strength (.binary op hbinary left right) (leftTokens ++ .operator op :: rightTokens)
  | stronger {strength : Nat} {tree : Tree} {tokens : List Token}
      (hinner : Infix (strength + 1) tree tokens) : Infix strength tree tokens

/-- The levels of the grammar are the ranks by which operators are released. -/
theorem precedence_of_mem_levelOperators {strength : Nat} {op : Operator}
    (h : op ∈ levelOperators strength) : op.precedence = strength := by
  revert op
  unfold levelOperators
  split
  case h_5 => exact fun h => absurd h List.not_mem_nil
  all_goals decide

namespace Infix

/-! ### Neighbours in an infix expression -/

/-- Whether tokens that stand next to each other in an infix expression may do so, and an operand
stands at both ends. -/
structure WellPlaced (tokens : List Token) : Prop where
  chain : tokens.IsChain Token.MayPrecede
  head : ∀ token ∈ tokens.head?, token.startsOperand = true
  last : ∀ token ∈ tokens.getLast?, token.endsOperand = true
  ne_nil : tokens ≠ []

/-- No operator between operands begins one. -/
theorem startsOperand_binary {op : Operator} (h : op.isPrefix = false) :
    (Token.operator op).startsOperand = false := by
  cases op <;> first | rfl | simp [Operator.isPrefix] at h

/-- In an infix expression operands stand at both ends, and none stands directly behind another
one. -/
theorem wellPlaced {strength : Nat} {tree : Tree} {tokens : List Token}
    (h : Infix strength tree tokens) : WellPlaced tokens := by
  induction h with
  | word => exact ⟨by simp, by simp [Token.startsOperand], by simp [Token.endsOperand], by simp⟩
  | @group tree tokens _ ih =>
    refine ⟨?_, by simp [Token.startsOperand], ?_, by simp⟩
    · refine List.isChain_cons.mpr ⟨fun next hnext => ?_, List.isChain_append.mpr ⟨ih.chain,
        by simp, fun last hlast next hnext => ?_⟩⟩
      · rw [List.head?_append_of_ne_nil _ ih.ne_nil] at hnext
        simpa [Token.MayPrecede, Token.endsOperand] using ih.head next hnext
      · obtain rfl : Token.groupClose = next := by simpa using hnext
        simp [Token.MayPrecede, ih.last last hlast, Token.startsOperand]
    · rw [← List.cons_append, List.getLast?_append]
      simp [Token.endsOperand]
  | @negation tree tokens _ ih =>
    refine ⟨?_, by simp [Token.startsOperand], ?_, by simp⟩
    · refine List.isChain_cons.mpr ⟨fun next hnext => ?_, ih.chain⟩
      simpa [Token.MayPrecede, Token.endsOperand] using ih.head next hnext
    · rw [List.getLast?_cons_of_ne_nil ih.ne_nil]
      exact ih.last
  | @binary strength op left right leftTokens rightTokens hlevel hbinary _ _ ihleft ihright =>
    have hstart := startsOperand_binary hbinary
    refine ⟨?_, ?_, ?_, by simp⟩
    · refine List.isChain_append.mpr ⟨ihleft.chain, List.isChain_cons.mpr
        ⟨fun next hnext => ?_, ihright.chain⟩, fun last hlast next hnext => ?_⟩
      · simpa [Token.MayPrecede, Token.endsOperand] using ihright.head next hnext
      · obtain rfl : Token.operator op = next := by simpa using hnext
        simp [Token.MayPrecede, ihleft.last last hlast, hstart]
    · rw [List.head?_append_of_ne_nil _ ihleft.ne_nil]
      exact ihleft.head
    · rw [List.getLast?_append_of_ne_nil _ (by simp), List.getLast?_cons_of_ne_nil ihright.ne_nil]
      exact ihright.last
  | stronger _ ih => exact ih

/-- The operands of an infix expression are plain words. -/
theorem plainLiterals {strength : Nat} {tree : Tree} {tokens : List Token}
    (h : Infix strength tree tokens) : Token.PlainLiterals tokens := by
  induction h with
  | @word word hplain =>
    intro text htext
    obtain rfl : text = word := by simpa using htext
    exact hplain
  | group _ ih => exact fun text htext => ih text (by simpa using htext)
  | negation _ ih => exact fun text htext => ih text (by simpa using htext)
  | binary _ _ _ _ ihleft ihright =>
    intro text htext
    rcases List.mem_append.mp htext with htext | htext
    · exact ihleft text htext
    · exact ihright text (by simpa using htext)
  | stronger _ ih => exact ih

end Infix

/-! ### Operators that wait on the stack -/

/-- Operators that wait on the stack, the topmost one first, with the offsets of their scan. -/
abbrev Waiting := List (Operator × Nat)

namespace Waiting

/-- Waiting operators as the upper part of a stack. -/
def pending (waiting : Waiting) : List Pending :=
  waiting.map fun (op, offset) => .operator op offset

/-- Waiting operators as atoms, in the order in which they are released. -/
def placed (waiting : Waiting) : List PlacedAtom :=
  waiting.map fun (op, offset) => ⟨.operator op, offset⟩

/-- Every waiting operator binds at least as strongly as `strength`. -/
def Binds (strength : Nat) (waiting : Waiting) : Prop :=
  ∀ entry ∈ waiting, strength ≤ entry.1.precedence

/-- One more operator of the strength may wait below the others. -/
theorem Binds.concat {strength : Nat} {waiting : Waiting} {entry : Operator × Nat}
    (h : waiting.Binds strength) (hentry : strength ≤ entry.1.precedence) :
    Binds strength (waiting ++ [entry]) := by
  intro other hother
  rcases List.mem_append.mp hother with hother | hother
  · exact h other hother
  · rw [List.mem_singleton.mp hother]
    exact hentry

/-- What binds strongly binds weakly. -/
theorem Binds.mono {weaker stronger : Nat} {waiting : Waiting} (h : waiting.Binds stronger)
    (hle : weaker ≤ stronger) : waiting.Binds weaker :=
  fun entry hentry => Nat.le_trans hle (h entry hentry)

/-- An operator releases those that wait and bind as strongly, and stops at a stack that it releases
nothing from. -/
theorem release_pending {op : Operator} {waiting : Waiting} {stack : List Pending}
    (hbinds : waiting.Binds op.precedence) (hstack : Pending.release op stack = ([], stack)) :
    Pending.release op (waiting.pending ++ stack) = (waiting.placed, stack) := by
  induction waiting with
  | nil => exact hstack
  | cons entry waiting ih =>
    obtain ⟨top, offset⟩ := entry
    have htop : ¬top.precedence < op.precedence := Nat.not_lt.mpr (hbinds _ List.mem_cons_self)
    have hrest := ih fun entry hentry => hbinds entry (List.mem_cons_of_mem _ hentry)
    simp only [pending, List.map_cons, List.cons_append, Pending.release, if_neg htop]
    rw [← pending, hrest]
    rfl

/-- The end of a group releases all operators that wait in it. -/
theorem closeGroup_pending (waiting : Waiting) (offset : Nat) (stack : List Pending) :
    Pending.closeGroup (waiting.pending ++ .group offset :: stack) =
      some (waiting.placed, stack) := by
  induction waiting with
  | nil => rfl
  | cons entry waiting ih =>
    simp only [pending, List.map_cons, List.cons_append, Pending.closeGroup]
    rw [← pending, ih]
    rfl

/-- In the end all operators that wait are released. -/
theorem drain_pending (waiting : Waiting) : Pending.drain waiting.pending = .ok waiting.placed := by
  induction waiting with
  | nil => rfl
  | cons entry waiting ih =>
    simp only [pending, List.map_cons, Pending.drain]
    rw [← pending, ih]
    rfl

end Waiting

/-- A stack that no operator of the given strength makes release anything. -/
def Settled (strength : Nat) (stack : List Pending) : Prop :=
  ∀ op : Operator, op.isPrefix = false → strength ≤ op.precedence →
    Pending.release op stack = ([], stack)

/-- A stack that a weak operator releases nothing from is left alone by a strong one. -/
theorem Settled.mono {weaker stronger : Nat} {stack : List Pending} (h : Settled weaker stack)
    (hle : weaker ≤ stronger) : Settled stronger stack :=
  fun op hop hstrength => h op hop (Nat.le_trans hle hstrength)

/-- From an empty stack nothing is released. -/
theorem settled_nil (strength : Nat) : Settled strength [] :=
  fun _ _ _ => rfl

/-- From below the beginning of a group nothing is released. -/
theorem settled_group (strength offset : Nat) (stack : List Pending) :
    Settled strength (.group offset :: stack) :=
  fun _ _ _ => rfl

/-- An operator on top of the stack stays there as long as only stronger ones follow. -/
theorem settled_operator (op : Operator) (offset : Nat) (stack : List Pending) :
    Settled (op.precedence + 1) (.operator op offset :: stack) := by
  intro next _ hnext
  rw [Pending.release, if_pos (by omega)]

/-- No operator between two operands is as strong as an operand. -/
theorem settled_operand (stack : List Pending) : Settled operandStrength stack := by
  intro op hop hstrength
  cases op <;> simp [operandStrength, Operator.precedence, Operator.isPrefix] at hop hstrength

/-! ### Reordering -/

section Reorder

variable {scanned : Scanned} {rest : List Scanned} {stack : List Pending}

/-- A literal is released at once. -/
theorem reorder_literal {text : String} (h : scanned.lexeme = .token (.literal text)) :
    reorder (scanned :: rest) stack =
      (reorder rest stack).map (⟨.literal text, scanned.start⟩ :: ·) := by
  rw [reorder, h]
  rfl

/-- An operator releases what it has to and waits. -/
theorem reorder_operator {op : Operator} (h : scanned.lexeme = .token (.operator op)) :
    reorder (scanned :: rest) stack =
      (reorder rest (Pending.push op scanned.start stack).2).map
        ((Pending.push op scanned.start stack).1 ++ ·) := by
  rw [reorder, h]
  rfl

/-- The beginning of a group waits for its end. -/
theorem reorder_groupOpen (h : scanned.lexeme = .token .groupOpen) :
    reorder (scanned :: rest) stack = reorder rest (.group scanned.start :: stack) := by
  rw [reorder, h]

/-- The end of a group releases what waits in it. -/
theorem reorder_groupClose {released : List PlacedAtom} {kept : List Pending}
    (h : scanned.lexeme = .token .groupClose)
    (hclose : Pending.closeGroup stack = some (released, kept)) :
    reorder (scanned :: rest) stack = (reorder rest kept).map (released ++ ·) := by
  rw [reorder, h]
  simp only [hclose]
  rfl

end Reorder

/-- Mapping over a result twice is mapping once. -/
theorem Except.map_map' {ε α β γ : Type} (f : α → β) (g : β → γ) (x : Except ε α) :
    (x.map f).map g = x.map fun value => g (f value) := by
  cases x <;> rfl

/-- Reordering scanned tokens in front of others: the atoms that are released meanwhile and the
operators that are left waiting make up the atoms of a tree. -/
def ReordersTo (strength : Nat) (tree : Tree) (scanned rest : List Scanned) (stack : List Pending) :
    Prop :=
  ∃ (released : List PlacedAtom) (waiting : Waiting),
    (released ++ waiting.placed).map PlacedAtom.atom = tree.atoms ∧ waiting.Binds strength ∧
    reorder (scanned ++ rest) stack =
      (reorder rest (waiting.pending ++ stack)).map (released ++ ·)

namespace ReordersTo

variable {strength : Nat} {tree left right : Tree} {first middle last : Scanned}
  {inner before after rest : List Scanned} {stack : List Pending}

/-- A literal is released at once. -/
theorem word {text : String} (hfirst : first.lexeme = .token (.literal text)) :
    ReordersTo strength (.literal text) [first] rest stack :=
  ⟨[⟨.literal text, first.start⟩], [], rfl, by simp [Waiting.Binds], reorder_literal hfirst⟩

/-- The end of a group releases the operators that wait within it. -/
theorem group (hfirst : first.lexeme = .token .groupOpen)
    (hlast : last.lexeme = .token .groupClose)
    (h : ReordersTo 1 tree inner ([last] ++ rest) (.group first.start :: stack)) :
    ReordersTo strength tree (first :: (inner ++ [last])) rest stack := by
  obtain ⟨released, waiting, hatoms, -, hreorder⟩ := h
  refine ⟨released ++ waiting.placed, [], by simpa [Waiting.placed] using hatoms,
    by simp [Waiting.Binds], ?_⟩
  rw [List.cons_append, reorder_groupOpen hfirst, List.append_assoc, hreorder,
    List.singleton_append, reorder_groupClose hlast (waiting.closeGroup_pending _ _),
    Except.map_map']
  simp only [List.append_assoc]
  rfl

/-- A negation waits below the operators of its operand. -/
theorem negation (hfirst : first.lexeme = .token (.operator .not))
    (h : ReordersTo operandStrength tree inner rest (.operator .not first.start :: stack)) :
    ReordersTo operandStrength (.negation tree) (first :: inner) rest stack := by
  obtain ⟨released, waiting, hatoms, hbinds, hreorder⟩ := h
  have hnot : operandStrength ≤ (Operator.not, first.start).1.precedence := Nat.le_refl 5
  refine ⟨released, waiting ++ [(.not, first.start)], ?_, hbinds.concat hnot, ?_⟩
  · simp only [Tree.atoms, ← hatoms, Waiting.placed, List.map_append, List.append_assoc]
    rfl
  · rw [List.cons_append, reorder_operator hfirst]
    simp only [Pending.push, Operator.isPrefix, if_true, hreorder, Except.map_map',
      Waiting.pending, List.map_append, List.map_cons, List.map_nil, List.append_assoc]
    rfl

/-- An operator releases those of its left operand, and waits below those of its right one. -/
theorem binary {op : Operator} (hbinary : op.isPrefix = false)
    (hmiddle : middle.lexeme = .token (.operator op)) (hstack : Settled op.precedence stack)
    (hleft : ReordersTo op.precedence left before (middle :: (after ++ rest)) stack)
    (hright : ReordersTo (op.precedence + 1) right after rest
      (.operator op middle.start :: stack)) :
    ReordersTo op.precedence (.binary op hbinary left right) (before ++ middle :: after) rest
      stack := by
  obtain ⟨leftOut, leftWaiting, hleftAtoms, hleftBinds, hleft⟩ := hleft
  obtain ⟨rightOut, rightWaiting, hrightAtoms, hrightBinds, hright⟩ := hright
  have hpush : Pending.push op middle.start (leftWaiting.pending ++ stack) =
      (leftWaiting.placed, .operator op middle.start :: stack) := by
    rw [Pending.push, if_neg (by simp [hbinary]),
      Waiting.release_pending hleftBinds (hstack op hbinary (Nat.le_refl _))]
  have hop : op.precedence ≤ (op, middle.start).1.precedence := Nat.le_refl _
  have hbinds := (hrightBinds.mono (Nat.le_succ _)).concat hop
  refine ⟨leftOut ++ (leftWaiting.placed ++ rightOut), rightWaiting ++ [(op, middle.start)],
    ?_, hbinds, ?_⟩
  · rw [List.map_append] at hleftAtoms hrightAtoms
    simp only [Tree.atoms, ← hleftAtoms, ← hrightAtoms, Waiting.placed, List.map_append,
      List.append_assoc]
    rfl
  · rw [List.append_assoc, List.cons_append, hleft, reorder_operator hmiddle, hpush]
    simp only [hright, Except.map_map', Waiting.pending, List.map_append, List.map_cons,
      List.map_nil, List.append_assoc]
    rfl

/-- Operators that bind more strongly than asked for will do. -/
theorem mono {stronger : Nat} (h : ReordersTo stronger tree inner rest stack)
    (hle : strength ≤ stronger) : ReordersTo strength tree inner rest stack := by
  obtain ⟨released, waiting, hatoms, hbinds, hreorder⟩ := h
  exact ⟨released, waiting, hatoms, hbinds.mono hle, hreorder⟩

end ReordersTo

/-- The tokens of a tree are reordered to its atoms on every settled stack. The induction is on the
grammar, where a stack that is settled for an expression is settled for its left operand. -/
theorem reordersTo_of_infix {strength : Nat} {tree : Tree} {tokens : List Token}
    (h : Infix strength tree tokens) (scanned rest : List Scanned) (stack : List Pending)
    (hscanned : scanned.map Scanned.lexeme = tokens.map Lexeme.token)
    (hstack : Settled strength stack) : ReordersTo strength tree scanned rest stack := by
  induction h generalizing scanned rest stack with
  | word =>
    rw [List.map_singleton] at hscanned
    obtain ⟨first, rfl, hfirst⟩ := List.map_eq_singleton_iff.mp hscanned
    exact .word hfirst
  | group _ ih =>
    simp only [List.map_cons, List.map_append, List.map_nil] at hscanned
    obtain ⟨first, others, rfl, hfirst, hothers⟩ := List.map_eq_cons_iff.mp hscanned
    obtain ⟨inner, closing, rfl, hinner, hclosing⟩ := List.map_eq_append_iff.mp hothers
    obtain ⟨last, rfl, hlast⟩ := List.map_eq_singleton_iff.mp hclosing
    exact .group hfirst hlast (ih inner _ _ hinner (settled_group 1 first.start stack))
  | negation _ ih =>
    simp only [List.map_cons] at hscanned
    obtain ⟨first, inner, rfl, hfirst, hinner⟩ := List.map_eq_cons_iff.mp hscanned
    exact .negation hfirst (ih inner rest _ hinner (settled_operand _))
  | @binary strength op left right leftTokens rightTokens hlevel hbinary _ _ ihleft ihright =>
    obtain rfl := precedence_of_mem_levelOperators hlevel
    simp only [List.map_append, List.map_cons] at hscanned
    obtain ⟨before, others, rfl, hbefore, hothers⟩ := List.map_eq_append_iff.mp hscanned
    obtain ⟨middle, after, rfl, hmiddle, hafter⟩ := List.map_eq_cons_iff.mp hothers
    exact .binary hbinary hmiddle hstack (ihleft before _ _ hbefore hstack)
      (ihright after rest _ hafter (settled_operator op middle.start stack))
  | stronger _ ih =>
    exact (ih scanned rest stack hscanned (hstack.mono (Nat.le_succ _))).mono (Nat.le_succ _)

/-! ### The operand check and evaluation -/

/-- Counting operands through the atoms of a tree adds the one value that the tree has. -/
theorem checkOperands_tree (tree : Tree) (placed rest : List PlacedAtom) (depth : Nat)
    (hplaced : placed.map PlacedAtom.atom = tree.atoms) :
    checkOperands (placed ++ rest) depth = checkOperands rest (depth + 1) := by
  induction tree generalizing placed rest depth with
  | literal text =>
    obtain ⟨⟨_, offset⟩, rfl, rfl⟩ := List.map_eq_singleton_iff.mp hplaced
    rfl
  | negation operand ih =>
    obtain ⟨inner, last, rfl, hinner, hlast⟩ := List.map_eq_append_iff.mp hplaced
    obtain ⟨⟨_, offset⟩, rfl, rfl⟩ := List.map_eq_singleton_iff.mp hlast
    rw [List.append_assoc, ih inner _ depth hinner, List.singleton_append, checkOperands,
      if_neg (by simp [Operator.arity])]
    rfl
  | binary op hbinary left right ihleft ihright =>
    obtain ⟨before, others, rfl, hbefore, hothers⟩ := List.map_eq_append_iff.mp hplaced
    obtain ⟨after, last, rfl, hafter, hlast⟩ := List.map_eq_append_iff.mp hothers
    obtain ⟨⟨_, offset⟩, rfl, rfl⟩ := List.map_eq_singleton_iff.mp hlast
    have harity : op.arity = 2 := by cases op <;> first | rfl | simp [Operator.isPrefix] at hbinary
    rw [List.append_assoc, ihleft before _ depth hbefore, List.append_assoc,
      ihright after _ (depth + 1) hafter, List.singleton_append, checkOperands,
      if_neg (by omega), harity]
    rfl

/-- Evaluating from the last atom backwards takes exactly the atoms of a tree and gives its
value. -/
theorem takeOperand_tree (scope : Scope) (tree : Tree) (rest : List Atom) :
    (takeOperand scope (tree.atoms.reverse ++ rest)).val = (tree.value scope, rest) := by
  induction tree generalizing rest with
  | literal text =>
    rw [Tree.atoms, List.reverse_singleton, List.singleton_append, takeOperand]
    rfl
  | negation operand ih =>
    rw [Tree.atoms, List.reverse_append, List.reverse_singleton, List.singleton_append,
      List.cons_append, takeOperand]
    simp only [ih, Tree.value]
  | binary op hbinary left right ihleft ihright =>
    rw [Tree.atoms, List.reverse_append, List.reverse_append, List.reverse_singleton,
      List.singleton_append, List.cons_append, List.cons_append, List.append_assoc, takeOperand]
    · have hright := ihright (left.atoms.reverse ++ rest)
      generalize takeOperand scope (right.atoms.reverse ++ (left.atoms.reverse ++ rest)) = taken
        at hright
      obtain ⟨⟨b, middle⟩, hmiddle⟩ := taken
      obtain ⟨rfl, rfl⟩ := Prod.mk.inj hright
      simp only [ihleft, Tree.value]
    · rintro rfl
      simp [Operator.isPrefix] at hbinary

namespace Expression

/-- The atoms of a source whose tokens make up an infix expression are those of its tree. -/
theorem atomsOf_infix {tree : Tree} {tokens : List Token} {source : String}
    (h : Infix 1 tree tokens) (hlexemes : Token.lexemes source.toList = tokens.map Lexeme.token) :
    atomsOf source = .ok tree.atoms := by
  have hscan : (Token.scan source).map Scanned.lexeme = tokens.map Lexeme.token := by
    rw [← hlexemes]
    rfl
  obtain ⟨released, waiting, hatoms, -, hreorder⟩ :=
    reordersTo_of_infix h (Token.scan source) [] [] hscan (settled_nil 1)
  have hplaced : reorder (Token.scan source) [] = .ok (released ++ waiting.placed) := by
    rw [List.append_nil, List.append_nil, reorder, waiting.drain_pending] at hreorder
    exact hreorder
  have hcheck : checkOperands (released ++ waiting.placed) 0 = .ok () := by
    have hcount := checkOperands_tree tree _ [] 0 hatoms
    rw [List.append_nil] at hcount
    exact hcount
  rw [atomsOf, hplaced]
  simp only [bind, Except.bind, hcheck, hatoms]
  rfl

/-- An infix expression, spelled with any blanks between its tokens and with either spelling of an
operator that has two, is compiled to the post-order of its syntax tree; in every scope it has the
value of that tree. -/
theorem compile_infix {tree : Tree} {tokens : List Token} {source : String}
    (hgrammar : Infix 1 tree tokens) (hwritten : Token.Written tokens source.toList) :
    ∃ expression, compile source = .ok expression ∧ expression.atoms = tree.atoms ∧
      ∀ scope, expression.evaluate scope = tree.value scope := by
  have hlexemes :=
    Token.lexemes_of_written hwritten hgrammar.plainLiterals hgrammar.wellPlaced.chain
  refine ⟨⟨source, idOf source, tree.atoms⟩, ?_, rfl, fun scope => ?_⟩
  · rw [compile, atomsOf_infix hgrammar hlexemes]
    rfl
  · have htake := takeOperand_tree scope tree []
    rw [List.append_nil] at htake
    rw [evaluate, evaluateAtoms, htake]

/-- The source `!a + b || c`, written with fewer blanks and a single bar. -/
theorem compile_infix_negated_sum :
    let sum : Tree := .binary .add rfl (.negation (.literal "a")) (.literal "b")
    let tree : Tree := .binary .or rfl sum (.literal "c")
    Infix 1 tree [.operator .not, .literal "a", .operator .add, .literal "b", .operator .or,
        .literal "c"] ∧
      Token.Written [.operator .not, .literal "a", .operator .add, .literal "b", .operator .or,
        .literal "c"] "!a+ b |c".toList ∧
      ∃ expression, compile "!a+ b |c" = .ok expression ∧
        expression.atoms = [.literal "a", .operator .not, .literal "b", .operator .add,
          .literal "c", .operator .or] ∧
        ∀ scope, expression.evaluate scope = tree.value scope := by
  intro sum tree
  have hword : ∀ word ∈ ["a", "b", "c"], Token.IsPlainWord word.toList := by decide
  have ha : Infix 5 (.literal "a") [.literal "a"] := .word (hword "a" (by decide))
  have hb : Infix 5 (.literal "b") [.literal "b"] := .word (hword "b" (by decide))
  have hc : Infix 5 (.literal "c") [.literal "c"] := .word (hword "c" (by decide))
  have hsum : Infix 3 sum [.operator .not, .literal "a", .operator .add, .literal "b"] :=
    @Infix.binary 3 .add _ _ _ _ (by decide) rfl (.stronger (.stronger (.negation ha)))
      (.stronger hb)
  have htree : Infix 2 tree [.operator .not, .literal "a", .operator .add, .literal "b",
      .operator .or, .literal "c"] :=
    @Infix.binary 2 .or _ _ _ _ (by decide) rfl (.stronger hsum) (.stronger (.stronger hc))
  have hnone : ∀ c ∈ ([] : List Char), isBlank c = true := by simp
  have hone : ∀ c ∈ [' '], isBlank c = true := List.all_eq_true.1 (by decide)
  have hwritten : Token.Written [.operator .not, .literal "a", .operator .add, .literal "b",
      .operator .or, .literal "c"] "!a+ b |c".toList :=
    @Token.Written.cons _ _ [] ['!'] _ hnone (by decide) <|
    @Token.Written.cons _ _ [] ['a'] _ hnone (by decide) <|
    @Token.Written.cons _ _ [] ['+'] _ hnone (by decide) <|
    @Token.Written.cons _ _ [' '] ['b'] _ hone (by decide) <|
    @Token.Written.cons _ _ [' '] ['|'] _ hone (by decide) <|
    @Token.Written.cons _ _ [] ['c'] _ hnone (by decide) <|
    @Token.Written.nil [] hnone
  exact ⟨.stronger htree, hwritten, compile_infix (.stronger htree) hwritten⟩

end Expression

end BraceTemplate
