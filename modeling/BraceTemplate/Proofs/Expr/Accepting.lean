import Mathlib.Data.Set.List
import BraceTemplate.Proofs.Expr.Identity

/-!
# Sources that are accepted

Reordering releases the atoms of a source in another order but loses none, and the operand check
counts only how many values they leave. So the check cannot tell where an operator stands: a source
may be accepted although its tokens are in no infix order. As long as no operand begins directly
behind the end of another one the count decides after all. Then operands and operators have to
alternate for exactly one value to be left, and tokens that alternate within balanced parentheses
make up an infix expression.
-/

namespace BraceTemplate

open scoped List

/-- The atom that a token is compiled to. Parentheses leave none. -/
def Token.atom? : Token → Option Atom
  | literal text => some (.literal text)
  | operator op => some (.operator op)
  | groupOpen | groupClose => none

/-- The atom that waits on the stack. -/
def Pending.atom? : Pending → Option Atom
  | group _ => none
  | operator op _ => some (.operator op)

/-- The atom of a lexeme, in the place at which its scan began. -/
def Scanned.placed? (found : Scanned) : Option PlacedAtom :=
  match found.lexeme with
  | .token token => token.atom?.map fun atom => ⟨atom, found.start⟩
  | .invalid .. => none

/-- The atom that waits on the stack, in its place. -/
def Pending.placed? : Pending → Option PlacedAtom
  | group _ => none
  | operator op offset => some ⟨.operator op, offset⟩

/-- The offset of a group on the stack. -/
def Pending.group? : Pending → Option Nat
  | group offset => some offset
  | operator .. => none

/-- The offsets of the groups on a stack that are open, the innermost one first. -/
def Pending.groups (stack : List Pending) : List Nat :=
  stack.filterMap Pending.group?

/-- The groups that are open behind a token, given those in front of it; `none` if it ends a group
although none is open. -/
def Token.groupsBehind? (offset : Nat) (groups : List Nat) : Token → Option (List Nat)
  | groupOpen => some (offset :: groups)
  | groupClose => groups.tail?
  | literal _ | operator _ => some groups

/-- The number of groups on a stack that are open. -/
def Pending.openGroups (stack : List Pending) : Nat :=
  stack.countP fun pending => pending.atom?.isNone

/-- The number of values that an atom leaves less the number of those that it takes. -/
def Atom.gain : Atom → Int
  | literal _ => 1
  | operator op => 1 - op.arity

/-- The number of values that atoms leave in total, those that they take subtracted. -/
def totalGain : List Atom → Int
  | [] => 0
  | atom :: atoms => atom.gain + totalGain atoms

/-- No operand begins directly behind the end of another one. -/
def Token.Apart (first second : Token) : Prop :=
  first.endsOperand = true → second.startsOperand = false

instance (first second : Token) : Decidable (Token.Apart first second) :=
  inferInstanceAs (Decidable (first.endsOperand = true → second.startsOperand = false))

/-! ### What the stack releases -/

/-- The atom of the first lexeme comes in front of those of the others. -/
theorem Scanned.filterMap_placed?_cons (found : Scanned) (scanned : List Scanned) :
    (found :: scanned).filterMap placed? = found.placed?.toList ++ scanned.filterMap placed? := by
  rw [List.filterMap_cons]
  cases found.placed? <;> rfl

/-- The groups that are counted on a stack are those whose offsets are listed. -/
theorem Pending.openGroups_eq (stack : List Pending) :
    openGroups stack = (groups stack).length := by
  rw [openGroups, groups, List.length_filterMap_eq_countP]
  congr 1
  funext pending
  cases pending <;> rfl

/-- A lexeme that is a token is placed as the atom of that token. -/
theorem Scanned.placed?_of_token {found : Scanned} {token : Token}
    (h : found.lexeme = .token token) :
    found.placed? = token.atom?.map fun atom => ⟨atom, found.start⟩ := by
  rw [placed?, h]

/-- An opening parenthesis adds one group to the stack, a closing one takes one away, and no other
token changes their number. -/
theorem Pending.openGroups_add_of_groupsBehind? {token : Token} {offset : Nat}
    {stack next : List Pending}
    (h : token.groupsBehind? offset (groups stack) = some (groups next)) :
    openGroups next + (if token = .groupClose then 1 else 0) =
      openGroups stack + if token = .groupOpen then 1 else 0 := by
  rw [openGroups_eq, openGroups_eq]
  cases token with
  | literal text | operator op | groupOpen => simp [← Option.some.inj h]
  | groupClose =>
    cases hgroups : groups stack with
    | nil =>
      rw [hgroups] at h
      cases h
    | cons inner outer =>
      rw [hgroups] at h
      simp [← Option.some.inj h]

namespace Waiting

/-- What waits on the stack is released as the atoms that wait. -/
theorem filterMap_placed?_pending (waiting : Waiting) :
    waiting.pending.filterMap Pending.placed? = waiting.placed := by
  induction waiting with
  | nil => rfl
  | cons entry waiting ih => exact congrArg (⟨.operator entry.1, entry.2⟩ :: ·) ih

/-- Waiting operators open no group. -/
theorem groups_pending_append (waiting : Waiting) (stack : List Pending) :
    Pending.groups (waiting.pending ++ stack) = Pending.groups stack := by
  have hnone : Pending.groups waiting.pending = [] := by
    rw [Pending.groups, List.filterMap_eq_nil_iff]
    intro pending hpending
    obtain ⟨entry, -, rfl⟩ := List.mem_map.1 hpending
    rfl
  rw [Pending.groups, List.filterMap_append, ← Pending.groups, ← Pending.groups, hnone,
    List.nil_append]

end Waiting

namespace Pending

/-- What an operator makes release are the operators on top of the stack, from the topmost one
on. -/
theorem exists_waiting_push (op : Operator) (offset : Nat) (stack : List Pending) :
    ∃ (waiting : Waiting) (kept : List Pending), stack = waiting.pending ++ kept ∧
      push op offset stack = (waiting.placed, operator op offset :: kept) := by
  have hrelease : ∃ (waiting : Waiting) (kept : List Pending), stack = waiting.pending ++ kept ∧
      release op stack = (waiting.placed, kept) := by
    induction stack with
    | nil => exact ⟨[], [], rfl, rfl⟩
    | cons top stack ih =>
      cases top with
      | group place => exact ⟨[], .group place :: stack, rfl, rfl⟩
      | operator top place =>
        rw [release]
        split
        · exact ⟨[], .operator top place :: stack, rfl, rfl⟩
        · obtain ⟨waiting, kept, rfl, hrelease⟩ := ih
          rw [hrelease]
          exact ⟨(top, place) :: waiting, kept, rfl, rfl⟩
  rw [push]
  split
  · exact ⟨[], stack, rfl, rfl⟩
  · obtain ⟨waiting, kept, hstack, hrelease⟩ := hrelease
    exact ⟨waiting, kept, hstack, by rw [hrelease]⟩

/-- The end of a group releases the operators that wait on top of the innermost open group. -/
theorem exists_waiting_of_closeGroup {stack kept : List Pending} {released : List PlacedAtom}
    (h : closeGroup stack = some (released, kept)) :
    ∃ (waiting : Waiting) (offset : Nat), stack = waiting.pending ++ .group offset :: kept ∧
      released = waiting.placed := by
  induction stack generalizing released with
  | nil => cases h
  | cons top stack ih =>
    cases top with
    | group offset =>
      cases h
      exact ⟨[], offset, rfl, rfl⟩
    | operator op place =>
      obtain ⟨⟨more, left⟩, hclose, heq⟩ := Option.bind_eq_some_iff.1 h
      cases heq
      obtain ⟨waiting, offset, rfl, rfl⟩ := ih hclose
      exact ⟨(op, place) :: waiting, offset, rfl, rfl⟩

/-- The end of a group is refused only if no group is open. -/
theorem groups_eq_nil_of_closeGroup {stack : List Pending} (h : closeGroup stack = none) :
    groups stack = [] := by
  induction stack with
  | nil => rfl
  | cons top stack ih =>
    cases top with
    | group offset => cases h
    | operator op place =>
      cases hclose : closeGroup stack with
      | none => exact ih hclose
      | some closed =>
        rw [closeGroup, hclose] at h
        cases h

/-- At the end of a source the stack is emptied only if operators alone are left on it. -/
theorem exists_waiting_of_drain {stack : List Pending} {released : List PlacedAtom}
    (h : drain stack = .ok released) :
    ∃ waiting : Waiting, stack = waiting.pending ∧ released = waiting.placed := by
  induction stack generalizing released with
  | nil =>
    cases h
    exact ⟨[], rfl, rfl⟩
  | cons top stack ih =>
    cases top with
    | group offset => cases h
    | operator op offset =>
      cases hdrain : drain stack with
      | error fault =>
        rw [drain, hdrain] at h
        cases h
      | ok more =>
        rw [drain, hdrain] at h
        cases h
        obtain ⟨waiting, rfl, rfl⟩ := ih hdrain
        exact ⟨(op, offset) :: waiting, rfl, rfl⟩

end Pending

/-- A mapped result that is given comes from a result that is given. -/
theorem exists_of_map_eq_ok {ε α β : Type} {f : α → β} {result : Except ε α} {b : β}
    (h : result.map f = .ok b) : ∃ a, result = .ok a ∧ b = f a := by
  cases result with
  | error e => cases h
  | ok a => exact ⟨a, rfl, (Except.ok.inj h).symm⟩

/-- One step of reordering. A token that ends a group although none is open is a fault. With any
other one some atoms are released, and with those that wait on the next stack they are the atom of
the token and those that waited before, in their places; parentheses open and close groups. -/
theorem reorder_token {found : Scanned} {token : Token} (hfound : found.lexeme = .token token)
    (stack : List Pending) :
    (token = .groupClose ∧ Pending.groups stack = [] ∧
      ∀ scanned, reorder (found :: scanned) stack = .error ⟨.unmatchedClose, found.start⟩) ∨
    ∃ (released : List PlacedAtom) (next : List Pending),
      (∀ scanned, reorder (found :: scanned) stack = (reorder scanned next).map (released ++ ·)) ∧
      released ++ next.filterMap Pending.placed? ~
        found.placed?.toList ++ stack.filterMap Pending.placed? ∧
      token.groupsBehind? found.start (Pending.groups stack) = some (Pending.groups next) := by
  rw [Scanned.placed?_of_token hfound]
  cases token with
  | literal text =>
    exact .inr ⟨[⟨.literal text, found.start⟩], stack, fun _ => reorder_literal hfound,
      .refl _, rfl⟩
  | operator op =>
    obtain ⟨waiting, kept, rfl, hpush⟩ := Pending.exists_waiting_push op found.start stack
    refine .inr ⟨waiting.placed, .operator op found.start :: kept, fun _ => ?_, ?_, ?_⟩
    · rw [reorder_operator hfound, hpush]
    · rw [List.filterMap_append, waiting.filterMap_placed?_pending]
      exact List.perm_middle
    · rw [waiting.groups_pending_append]
      rfl
  | groupOpen =>
    refine .inr ⟨[], .group found.start :: stack, fun scanned => ?_, .refl _, rfl⟩
    rw [reorder_groupOpen hfound]
    cases reorder scanned (.group found.start :: stack) <;> rfl
  | groupClose =>
    cases hclose : Pending.closeGroup stack with
    | none =>
      exact .inl ⟨rfl, Pending.groups_eq_nil_of_closeGroup hclose,
        fun _ => reorder_groupClose_of_none hfound hclose⟩
    | some closed =>
      obtain ⟨released, kept⟩ := closed
      obtain ⟨waiting, offset, rfl, rfl⟩ := Pending.exists_waiting_of_closeGroup hclose
      refine .inr ⟨waiting.placed, kept, fun _ => reorder_groupClose hfound hclose, ?_, ?_⟩
      · rw [List.filterMap_append, waiting.filterMap_placed?_pending]
        exact .refl _
      · rw [waiting.groups_pending_append]
        rfl

/-- What the first step leads to, if reordering succeeds. -/
theorem exists_step_of_reorder {found : Scanned} {scanned : List Scanned} {stack : List Pending}
    {placed : List PlacedAtom} {token : Token} (hfound : found.lexeme = .token token)
    (h : reorder (found :: scanned) stack = .ok placed) :
    ∃ (released : List PlacedAtom) (next : List Pending) (more : List PlacedAtom),
      reorder scanned next = .ok more ∧ placed = released ++ more ∧
      released ++ next.filterMap Pending.placed? ~
        found.placed?.toList ++ stack.filterMap Pending.placed? ∧
      token.groupsBehind? found.start (Pending.groups stack) = some (Pending.groups next) := by
  rcases reorder_token hfound stack with ⟨-, -, herror⟩ | ⟨released, next, hreorder, hperm, hgroups⟩
  · rw [herror] at h
    cases h
  · rw [hreorder] at h
    obtain ⟨more, hmore, rfl⟩ := exists_of_map_eq_ok h
    exact ⟨released, next, more, hmore, rfl, hperm, hgroups⟩

/-- Reordering loses no atom and adds none, and every atom keeps its place. -/
theorem perm_of_reorder {scanned : List Scanned} {stack : List Pending} {placed : List PlacedAtom}
    (h : reorder scanned stack = .ok placed) :
    placed ~ scanned.filterMap Scanned.placed? ++ stack.filterMap Pending.placed? := by
  induction scanned generalizing stack placed with
  | nil =>
    obtain ⟨waiting, rfl, rfl⟩ := Pending.exists_waiting_of_drain h
    rw [waiting.filterMap_placed?_pending]
    exact .refl _
  | cons found scanned ih =>
    obtain ⟨token, hfound⟩ := exists_token_of_reorder h found.lexeme List.mem_cons_self
    obtain ⟨released, next, more, hmore, rfl, hperm, -⟩ := exists_step_of_reorder hfound h
    rw [Scanned.filterMap_placed?_cons]
    calc released ++ more
      _ ~ released ++ (next.filterMap Pending.placed? ++ scanned.filterMap Scanned.placed?) :=
        ((ih hmore).trans List.perm_append_comm).append_left _
      _ ~ found.placed?.toList ++ stack.filterMap Pending.placed? ++
          scanned.filterMap Scanned.placed? := by
        rw [← List.append_assoc]
        exact hperm.append_right _
      _ ~ found.placed?.toList ++ scanned.filterMap Scanned.placed? ++
          stack.filterMap Pending.placed? := by
        rw [List.append_assoc, List.append_assoc]
        exact List.perm_append_comm.append_left _

/-- The atoms of scanned lexemes are those of the tokens they are. -/
theorem map_atom_filterMap_placed? {scanned : List Scanned} {tokens : List Token}
    (hscanned : scanned.map Scanned.lexeme = tokens.map Lexeme.token) :
    (scanned.filterMap Scanned.placed?).map PlacedAtom.atom = tokens.filterMap Token.atom? := by
  induction scanned generalizing tokens with
  | nil =>
    obtain rfl : tokens = [] := List.map_eq_nil_iff.1 hscanned.symm
    rfl
  | cons found scanned ih =>
    obtain ⟨token, tokens, rfl, hfound, hscanned⟩ := List.map_eq_cons_iff.1 hscanned.symm
    rw [List.filterMap_cons, List.filterMap_cons, Scanned.placed?_of_token hfound.symm]
    cases token.atom? with
    | none => exact ih hscanned.symm
    | some atom => exact congrArg (atom :: ·) (ih hscanned.symm)

/-! ### Counting values -/

/-- The order of atoms does not matter for the number of values they leave. -/
theorem totalGain_perm {atoms others : List Atom} (h : atoms ~ others) :
    totalGain atoms = totalGain others := by
  induction h with
  | nil => rfl
  | cons atom h ih => rw [totalGain, totalGain, ih]
  | swap first second atoms =>
    simp only [totalGain]
    omega
  | trans h h' ih ih' => rw [ih, ih']

/-- The gain of tokens is that of the first one and that of the others. -/
theorem totalGain_filterMap_cons (token : Token) (tokens : List Token) :
    totalGain ((token :: tokens).filterMap Token.atom?) =
      (token.atom?.map Atom.gain).getD 0 + totalGain (tokens.filterMap Token.atom?) := by
  rw [List.filterMap_cons]
  cases token.atom? with
  | none => simp
  | some atom => rfl

/-- Every operator among atoms finds its operands, where `depth` values lie in front of the first
atom. -/
def FindOperands (depth : Nat) (atoms : List Atom) : Prop :=
  ∀ front op back, atoms = front ++ .operator op :: back →
    (op.arity : Int) ≤ depth + totalGain front

/-- Every operator among atoms finds its operands, and exactly one value is left in the end. -/
def Supplied (depth : Nat) (atoms : List Atom) : Prop :=
  FindOperands depth atoms ∧ depth + totalGain atoms = 1

/-- Without atoms nothing is missing. -/
theorem findOperands_nil (depth : Nat) : FindOperands depth [] := by
  intro front op back hatoms
  simp at hatoms

/-- The first atom finds its operands, and it leaves values for the others. -/
theorem findOperands_cons_iff {depth next : Nat} {atom : Atom} {atoms : List Atom}
    (hnext : (next : Int) = depth + atom.gain) :
    FindOperands depth (atom :: atoms) ↔
      (∀ op, atom = .operator op → op.arity ≤ depth) ∧ FindOperands next atoms := by
  constructor
  · intro hoperands
    refine ⟨fun op hop => ?_, fun front op back hatoms => ?_⟩
    · have hfirst := hoperands [] op atoms (by rw [hop, List.nil_append])
      rw [totalGain] at hfirst
      omega
    · have hlater := hoperands (atom :: front) op back (by rw [hatoms, List.cons_append])
      rw [totalGain] at hlater
      omega
  · rintro ⟨hfirst, hoperands⟩ front op back hatoms
    cases front with
    | nil =>
      have hle := hfirst op (List.cons.inj hatoms).1
      rw [totalGain]
      omega
    | cons head front =>
      obtain ⟨rfl, htail⟩ := List.cons.inj hatoms
      have hle := hoperands front op back htail
      rw [totalGain]
      omega

/-- A literal leaves one value more. -/
theorem gain_literal (depth : Nat) (text : String) :
    ((depth + 1 : Nat) : Int) = depth + (Atom.literal text).gain :=
  rfl

/-- An operator that finds its operands leaves one value in their place. -/
theorem gain_of_arity_le {depth : Nat} {op : Operator} (h : op.arity ≤ depth) :
    ((depth - op.arity + 1 : Nat) : Int) = depth + (Atom.operator op).gain := by
  rw [Atom.gain]
  omega

/-- The operand check accepts just the atoms that are supplied. -/
theorem checkOperands_eq_ok_iff_supplied {placed : List PlacedAtom} {depth : Nat} :
    checkOperands placed depth = .ok () ↔ Supplied depth (placed.map PlacedAtom.atom) := by
  induction placed generalizing depth with
  | nil =>
    rw [List.map_nil, Supplied, and_iff_right (findOperands_nil depth)]
    match depth with
    | 0 => exact iff_of_false (by rintro ⟨⟩) (by decide)
    | 1 => exact iff_of_true rfl rfl
    | depth + 2 => exact iff_of_false (by rintro ⟨⟩) (by simp only [totalGain]; omega)
  | cons first placed ih =>
    obtain ⟨atom, offset⟩ := first
    rw [List.map_cons, Supplied]
    cases atom with
    | literal text =>
      have hgain := gain_literal depth text
      rw [checkOperands, ih, Supplied, findOperands_cons_iff hgain, totalGain, hgain, Int.add_assoc]
      simp
    | operator op =>
      rw [checkOperands]
      split
      · next hlt =>
        refine iff_of_false (by rintro ⟨⟩) fun hsupplied => ?_
        have hle := hsupplied.1 [] op _ rfl
        rw [totalGain] at hle
        omega
      · next hlt =>
        have hle := Nat.le_of_not_lt hlt
        have hgain := gain_of_arity_le hle
        rw [ih, Supplied, findOperands_cons_iff hgain, totalGain, hgain, Int.add_assoc]
        simp [hle]

/-! ### Operands and operators that alternate -/

/-- Tokens inside of some groups that are read up to the end of the outermost one. An operand is
expected unless one ends directly in front of the tokens. -/
inductive Alternates : (groups : Nat) → (behindOperand : Bool) → List Token → Prop
  | done : Alternates 0 true []
  | literal {groups : Nat} {text : String} {tokens : List Token}
      (hrest : Alternates groups true tokens) : Alternates groups false (.literal text :: tokens)
  | negation {groups : Nat} {tokens : List Token} (hrest : Alternates groups false tokens) :
    Alternates groups false (.operator .not :: tokens)
  | groupOpen {groups : Nat} {tokens : List Token} (hrest : Alternates (groups + 1) false tokens) :
    Alternates groups false (.groupOpen :: tokens)
  | binary {groups : Nat} {op : Operator} {tokens : List Token} (hbinary : op.isPrefix = false)
      (hrest : Alternates groups false tokens) : Alternates groups true (.operator op :: tokens)
  | groupClose {groups : Nat} {tokens : List Token} (hrest : Alternates groups true tokens) :
    Alternates (groups + 1) true (.groupClose :: tokens)

/-- A negation leaves as many values as it takes, and every other operator leaves one value less. -/
theorem gain_operator (op : Operator) :
    (op = .not ∧ (Atom.operator op).gain = 0) ∨
      (op.isPrefix = false ∧ (Atom.operator op).gain = -1) := by
  cases op <;> simp [Operator.isPrefix, Atom.gain, Operator.arity]

/-- Tokens leave one value at most, counting an operand that ends in front of them. They leave one
only if operands and operators alternate. -/
def LeavesOne (groups : Nat) (behind : Bool) (tokens : List Token) : Prop :=
  totalGain (tokens.filterMap Token.atom?) + behind.toNat ≤ 1 ∧
    (totalGain (tokens.filterMap Token.atom?) + behind.toNat = 1 → Alternates groups behind tokens)

namespace LeavesOne

variable {groups : Nat} {tokens : List Token}

/-- At the end there is the value of the operand that ends there. -/
theorem nil (behind : Bool) : LeavesOne 0 behind [] := by
  cases behind with
  | false => exact ⟨by decide, fun hone => absurd hone (by decide)⟩
  | true => exact ⟨by decide, fun _ => .done⟩

/-- A literal is an operand. -/
theorem literal (h : LeavesOne groups true tokens) (text : String) :
    LeavesOne groups false (.literal text :: tokens) := by
  obtain ⟨hle, halternates⟩ := h
  rw [LeavesOne, totalGain_filterMap_cons]
  simp only [Token.atom?, Option.map_some, Option.getD_some, Atom.gain, Bool.toNat_true,
    Bool.toNat_false] at hle halternates ⊢
  exact ⟨by omega, fun hone => .literal (halternates (by omega))⟩

/-- A negation leaves as many values as its operand does. -/
theorem negation (h : LeavesOne groups false tokens) :
    LeavesOne groups false (.operator .not :: tokens) := by
  obtain ⟨hle, halternates⟩ := h
  have hgain : (Atom.operator .not).gain = 0 := rfl
  rw [LeavesOne, totalGain_filterMap_cons]
  simp only [Token.atom?, Option.map_some, Option.getD_some, hgain] at hle halternates ⊢
  exact ⟨by omega, fun hone => .negation (halternates (by omega))⟩

/-- An operator between operands takes a value. If there is none in front of it, one is missing. -/
theorem binary {op : Operator} (hbinary : op.isPrefix = false)
    (hgain : (Atom.operator op).gain = -1) (h : LeavesOne groups false tokens) (behind : Bool) :
    LeavesOne groups behind (.operator op :: tokens) := by
  obtain ⟨hle, halternates⟩ := h
  rw [LeavesOne, totalGain_filterMap_cons]
  simp only [Token.atom?, Option.map_some, Option.getD_some, hgain, Bool.toNat_false]
    at hle halternates ⊢
  cases behind with
  | false =>
    rw [Bool.toNat_false]
    exact ⟨by omega, fun hone => by omega⟩
  | true =>
    rw [Bool.toNat_true]
    exact ⟨by omega, fun hone => .binary hbinary (halternates (by omega))⟩

/-- A group is an operand that ends where the group does. -/
theorem groupOpen (h : LeavesOne (groups + 1) false tokens) :
    LeavesOne groups false (.groupOpen :: tokens) := by
  obtain ⟨hle, halternates⟩ := h
  rw [LeavesOne, totalGain_filterMap_cons]
  simp only [Token.atom?, Option.map_none, Option.getD_none, Int.zero_add]
  exact ⟨hle, fun hone => .groupOpen (halternates hone)⟩

/-- Behind the end of a group an operand has ended. If none has in front of it, one is missing. -/
theorem groupClose (h : LeavesOne groups true tokens) (behind : Bool) :
    LeavesOne (groups + 1) behind (.groupClose :: tokens) := by
  obtain ⟨hle, halternates⟩ := h
  rw [LeavesOne, totalGain_filterMap_cons]
  simp only [Token.atom?, Option.map_none, Option.getD_none, Bool.toNat_true, Int.zero_add]
    at hle halternates ⊢
  cases behind with
  | false =>
    rw [Bool.toNat_false]
    exact ⟨by omega, fun hone => by omega⟩
  | true => exact ⟨hle, fun hone => .groupClose (halternates hone)⟩

end LeavesOne

/-- Tokens that can be reordered leave one value at most if no operand begins directly behind the
end of another one. They leave one only if operands and operators alternate. -/
theorem leavesOne_of_reorder {scanned : List Scanned} {tokens : List Token} {stack : List Pending}
    {placed : List PlacedAtom} {behind : Bool}
    (hscanned : scanned.map Scanned.lexeme = tokens.map Lexeme.token)
    (hreorder : reorder scanned stack = .ok placed) (hapart : tokens.IsChain Token.Apart)
    (hhead : ∀ token ∈ tokens.head?, behind = true → token.startsOperand = false) :
    LeavesOne (Pending.openGroups stack) behind tokens := by
  --  Where an operator or the end of a group comes too early a value is missing, and no token makes
  -- up for it later, as an operand cannot follow another one.
  induction scanned generalizing tokens stack placed behind with
  | nil =>
    obtain rfl : tokens = [] := List.map_eq_nil_iff.1 hscanned.symm
    obtain ⟨waiting, rfl, rfl⟩ := Pending.exists_waiting_of_drain hreorder
    have hgroups := waiting.groups_pending_append []
    rw [List.append_nil] at hgroups
    rw [Pending.openGroups_eq, hgroups]
    exact .nil behind
  | cons found scanned ih =>
    obtain ⟨token, tokens, rfl, hfound, hscanned⟩ := List.map_eq_cons_iff.1 hscanned.symm
    obtain ⟨released, next, more, hmore, -, -, hgroups⟩ :=
      exists_step_of_reorder hfound.symm hreorder
    have hgroups := Pending.openGroups_add_of_groupsBehind? hgroups
    rw [List.isChain_cons] at hapart
    have hstep : ∀ behind : Bool, (behind = true → token.endsOperand = true) →
        LeavesOne (Pending.openGroups next) behind tokens := fun behind hends =>
      ih hscanned.symm hmore hapart.2 fun second hsecond hbehind =>
        hapart.1 second hsecond (hends hbehind)
    have hstart := hhead token rfl
    cases token with
    | literal text =>
      obtain rfl : behind = false := by simpa [Token.startsOperand] using hstart
      have hsame : Pending.openGroups next = Pending.openGroups stack := by simpa using hgroups
      exact hsame ▸ (hstep true fun _ => rfl).literal text
    | operator op =>
      have hrest := hstep false (by simp)
      have hsame : Pending.openGroups next = Pending.openGroups stack := by simpa using hgroups
      rw [hsame] at hrest
      rcases gain_operator op with ⟨rfl, -⟩ | ⟨hbinary, hgain⟩
      · obtain rfl : behind = false := by simpa [Token.startsOperand] using hstart
        exact hrest.negation
      · exact hrest.binary hbinary hgain behind
    | groupOpen =>
      obtain rfl : behind = false := by simpa [Token.startsOperand] using hstart
      have hmore : Pending.openGroups next = Pending.openGroups stack + 1 := by simpa using hgroups
      exact (hmore ▸ hstep false (by simp)).groupOpen
    | groupClose =>
      have hfewer : Pending.openGroups next + 1 = Pending.openGroups stack := by simpa using hgroups
      exact hfewer ▸ (hstep true fun _ => rfl).groupClose behind

/-! ### Operands between operators -/

/-- Tokens in which every operand has its operator in front of it. -/
def joined (operands : List (Operator × List Token)) : List Token :=
  operands.flatMap fun (op, operand) => .operator op :: operand

/-- An operator between operands, and behind it the tokens of an operand. -/
def IsOperation (entry : Operator × List Token) : Prop :=
  entry.1.isPrefix = false ∧ ∃ tree, Infix operandStrength tree entry.2

/-- A binary operator is weaker than an operand and stands on the level of its precedence. -/
theorem precedence_lt_of_binary {op : Operator} (h : op.isPrefix = false) :
    op.precedence < operandStrength ∧ op ∈ levelOperators op.precedence := by
  cases op <;> first | decide | cases h

/-- Operands with operators between them make up an infix expression of the strength of the weakest
operator. The last operator of that strength is the one at the root of its tree. -/
theorem exists_infix_of_operands {strength : Nat} (hstrength : strength ≤ operandStrength)
    {first : List Token} (hfirst : ∃ tree, Infix operandStrength tree first)
    {operands : List (Operator × List Token)}
    (hoperands : ∀ entry ∈ operands, IsOperation entry ∧ strength ≤ entry.1.precedence) :
    ∃ tree, Infix strength tree (first ++ joined operands) := by
  induction hstrength using Nat.decreasingInduction generalizing first operands with
  | self =>
    cases operands with
    | nil =>
      rw [joined, List.flatMap_nil, List.append_nil]
      exact hfirst
    | cons entry operands =>
      obtain ⟨hentry, hle⟩ := hoperands entry List.mem_cons_self
      have hlt := (precedence_lt_of_binary hentry.1).1
      omega
  | of_succ strength hlt ih =>
    -- The operands behind the last operator of this strength are kept apart.
    suffices hsplit : ∀ init tail : List (Operator × List Token),
        (∀ entry ∈ init, IsOperation entry ∧ strength ≤ entry.1.precedence) →
        (∀ entry ∈ tail, IsOperation entry ∧ strength + 1 ≤ entry.1.precedence) →
        ∃ tree, Infix strength tree (first ++ joined (init ++ tail)) by
      have hall := hsplit operands [] hoperands (by simp)
      rwa [List.append_nil] at hall
    intro init tail hinit htail
    induction init using List.reverseRecOn generalizing tail with
    | nil =>
      obtain ⟨tree, htree⟩ := ih hfirst htail
      exact ⟨tree, .stronger htree⟩
    | append_singleton init entry ihInit =>
      obtain ⟨op, operand⟩ := entry
      have hrest : ∀ entry ∈ init, IsOperation entry ∧ strength ≤ entry.1.precedence :=
        fun entry hentry => hinit entry (List.mem_append_left _ hentry)
      obtain ⟨⟨hbinary, hoperand⟩, hle⟩ := hinit (op, operand) (by simp)
      rw [List.append_assoc, List.singleton_append]
      by_cases heq : op.precedence = strength
      · obtain ⟨left, hleft⟩ := ihInit [] hrest (by simp)
        obtain ⟨right, hright⟩ := ih hoperand htail
        have hlevel := (precedence_lt_of_binary hbinary).2
        rw [heq] at hlevel
        refine ⟨.binary op hbinary left right, ?_⟩
        have htokens := Infix.binary hlevel hbinary hleft hright
        simpa [joined] using htokens
      · refine ihInit ((op, operand) :: tail) hrest (List.forall_mem_cons.2 ⟨?_, htail⟩)
        exact ⟨⟨hbinary, hoperand⟩, by dsimp only at hle ⊢; omega⟩

/-- What stands behind an operand inside of some groups: further operands up to the end of each
group. -/
inductive Continues : (groups : Nat) → List Token → Prop
  | last {operands : List (Operator × List Token)}
      (hoperands : ∀ entry ∈ operands, IsOperation entry) :
    Continues 0 (joined operands)
  | group {groups : Nat} {operands : List (Operator × List Token)} {rest : List Token}
      (hoperands : ∀ entry ∈ operands, IsOperation entry) (hrest : Continues groups rest) :
    Continues (groups + 1) (joined operands ++ .groupClose :: rest)

/-- One more operation may stand in front of those that follow an operand. -/
theorem Continues.cons {groups : Nat} {rest : List Token} (h : Continues groups rest)
    {entry : Operator × List Token} (hentry : IsOperation entry) :
    Continues groups (joined [entry] ++ rest) := by
  cases h with
  | @last operands hoperands =>
    rw [joined, joined, ← List.flatMap_append]
    exact .last (List.forall_mem_cons.2 ⟨hentry, hoperands⟩)
  | @group groups operands rest hoperands hrest =>
    rw [← List.append_assoc, joined, joined, ← List.flatMap_append]
    exact .group (List.forall_mem_cons.2 ⟨hentry, hoperands⟩) hrest

/-- An infix expression up to the end of the group that it stands in. -/
theorem exists_infix_of_isOperation {first : List Token}
    (hfirst : ∃ tree, Infix operandStrength tree first) {operands : List (Operator × List Token)}
    (hoperands : ∀ entry ∈ operands, IsOperation entry) :
    ∃ tree, Infix 1 tree (first ++ joined operands) := by
  have hpos : ∀ op : Operator, 1 ≤ op.precedence := by
    intro op
    cases op <;> decide
  exact exists_infix_of_operands (by decide) hfirst fun entry hentry =>
    ⟨hoperands entry hentry, hpos entry.1⟩

/-- Tokens that alternate begin with an operand, or go on behind one. -/
theorem Alternates.continues {groups : Nat} {behind : Bool} {tokens : List Token}
    (h : Alternates groups behind tokens) (hplain : Token.PlainLiterals tokens) :
    if behind then Continues groups tokens
    else ∃ operand rest, tokens = operand ++ rest ∧ (∃ tree, Infix operandStrength tree operand) ∧
      Continues groups rest := by
  induction h with
  | done => exact @Continues.last [] (by simp)
  | @literal groups text tokens hrest ih =>
    refine ⟨[.literal text], tokens, rfl, ⟨_, .word (hplain text List.mem_cons_self)⟩, ?_⟩
    exact ih fun other hother => hplain other (List.mem_cons_of_mem _ hother)
  | @negation groups tokens hrest ih =>
    obtain ⟨operand, rest, rfl, ⟨tree, htree⟩, hcontinues⟩ :=
      ih fun other hother => hplain other (List.mem_cons_of_mem _ hother)
    exact ⟨.operator .not :: operand, rest, rfl, ⟨_, .negation htree⟩, hcontinues⟩
  | @groupOpen groups tokens hrest ih =>
    obtain ⟨first, rest, rfl, hfirst, hcontinues⟩ :=
      ih fun other hother => hplain other (List.mem_cons_of_mem _ hother)
    cases hcontinues with
    | @group _ operands rest hoperands hcontinues =>
      obtain ⟨tree, htree⟩ := exists_infix_of_isOperation hfirst hoperands
      refine ⟨.groupOpen :: (first ++ joined operands ++ [.groupClose]), rest, by simp,
        ⟨tree, .group htree⟩, hcontinues⟩
  | @binary groups op tokens hbinary hrest ih =>
    obtain ⟨operand, rest, rfl, hoperand, hcontinues⟩ :=
      ih fun other hother => hplain other (List.mem_cons_of_mem _ hother)
    have hentry : IsOperation (op, operand) := ⟨hbinary, hoperand⟩
    simpa [joined] using hcontinues.cons hentry
  | @groupClose groups tokens hrest ih =>
    exact @Continues.group groups [] tokens (by simp)
      (ih fun other hother => hplain other (List.mem_cons_of_mem _ hother))

/-- Tokens of which operands and operators alternate are an infix expression. -/
theorem Alternates.exists_infix {tokens : List Token} (h : Alternates 0 false tokens)
    (hplain : Token.PlainLiterals tokens) : ∃ tree, Infix 1 tree tokens := by
  obtain ⟨first, rest, rfl, hfirst, hcontinues⟩ := h.continues hplain
  cases hcontinues with
  | last hoperands => exact exists_infix_of_isOperation hfirst hoperands

/-! ### Sources -/

namespace Token

/-- What is read as a symbol is no literal. -/
theorem symbol?_ne_literal {cs rest : List Char} {token : Token}
    (h : symbol? cs = some (token, rest)) (text : String) : token ≠ literal text := by
  unfold symbol? at h
  split at h <;> cases h <;> simp

/-- A literal is a plain word, as hyphens never stand in a run. -/
theorem isPlainWord_of_lexeme? {cs rest : List Char} {text : String}
    (h : lexeme? cs = some (.token (.literal text), rest)) : IsPlainWord text.toList := by
  unfold lexeme? at h
  split at h
  · obtain ⟨⟨token, after⟩, hsymbol, heq⟩ := Option.map_eq_some_iff.1 h
    simp only [Prod.mk.injEq, Lexeme.token.injEq] at heq
    exact absurd heq.1 (symbol?_ne_literal hsymbol text)
  · have hrun : ofRun (run cs) = .token (.literal text) := (Prod.mk.inj (Option.some.inj h)).1
    unfold ofRun at hrun
    dsimp only at hrun
    split at hrun
    · next hword =>
      simp only [Lexeme.token.injEq, literal.injEq] at hrun
      rw [← hrun, String.toList_ofList]
      exact (isPlainWord_of_isWord hword).1
    · cases hrun

/-- The literals among scanned tokens are plain words. -/
theorem plainLiterals_of_lexemes {cs : List Char} {tokens : List Token}
    (h : lexemes cs = tokens.map Lexeme.token) : PlainLiterals tokens := by
  induction hlength : cs.length using Nat.strongRecOn generalizing cs tokens with
  | ind n ih =>
    subst hlength
    intro text htext
    cases hread : lexeme? cs with
    | none =>
      rw [lexemes_of_none hread] at h
      rw [List.map_eq_nil_iff.1 h.symm] at htext
      cases htext
    | some read =>
      obtain ⟨lexeme, rest⟩ := read
      rw [lexemes_of_some hread] at h
      obtain ⟨token, tokens, rfl, rfl, hrest⟩ := List.map_eq_cons_iff.1 h.symm
      rcases List.mem_cons.1 htext with rfl | htext
      · exact isPlainWord_of_lexeme? hread
      · exact ih rest.length (length_lexeme?_lt hread) hrest.symm rfl text htext

end Token

namespace Expression

/-- The tokens of a source are an infix expression with the given syntax tree. -/
def IsInfix (source : String) (tree : Tree) : Prop :=
  ∃ tokens : List Token, Token.lexemes source.toList = tokens.map Lexeme.token ∧ Infix 1 tree tokens

/-- No operand of a source begins directly behind the end of another one. -/
def OperandsApart (source : String) : Prop :=
  ∀ tokens : List Token, Token.lexemes source.toList = tokens.map Lexeme.token →
    tokens.IsChain Token.Apart

/-- Tokens that are the same lexemes are the same. -/
theorem eq_of_map_token {tokens others : List Token}
    (h : tokens.map Lexeme.token = others.map Lexeme.token) : tokens = others :=
  List.map_injective_iff.2 (fun _ _ heq => Lexeme.token.inj heq) h

/-- A source has its operands apart if the tokens that are scanned from it have. -/
theorem operandsApart_of_lexemes {source : String} {tokens : List Token}
    (htokens : Token.lexemes source.toList = tokens.map Lexeme.token)
    (hchain : tokens.IsChain Token.Apart) : OperandsApart source := by
  intro others hothers
  rwa [← eq_of_map_token (htokens.symm.trans hothers)]

/-- In an infix expression an operator stands between any two operands. -/
theorem IsInfix.operandsApart {source : String} {tree : Tree} (h : IsInfix source tree) :
    OperandsApart source := by
  obtain ⟨tokens, htokens, hinfix⟩ := h
  refine operandsApart_of_lexemes htokens ?_
  refine hinfix.wellPlaced.chain.imp fun first second hmay hends => ?_
  rw [Token.MayPrecede] at hmay
  rw [hmay, hends]
  rfl

/-- The atoms of an infix expression are those of its syntax tree. -/
theorem IsInfix.atomsOf_eq {source : String} {tree : Tree} (h : IsInfix source tree) :
    atomsOf source = .ok tree.atoms := by
  obtain ⟨tokens, htokens, hinfix⟩ := h
  exact atomsOf_infix hinfix htokens

/-- Atoms come from a source only by reordering and by passing the operand check. -/
theorem exists_placed_of_atomsOf {source : String} {atoms : List Atom}
    (h : atomsOf source = .ok atoms) :
    ∃ placed, reorder (Token.scan source) [] = .ok placed ∧ checkOperands placed 0 = .ok () ∧
      atoms = placed.map PlacedAtom.atom := by
  unfold atomsOf at h
  cases hreorder : reorder (Token.scan source) [] with
  | error fault =>
    rw [hreorder] at h
    cases h
  | ok placed =>
    rw [hreorder] at h
    cases hcheck : checkOperands placed 0 with
    | error fault =>
      simp only [bind, Except.bind, hcheck] at h
      cases h
    | ok _ =>
      simp only [bind, Except.bind, hcheck] at h
      cases h
      exact ⟨placed, rfl, hcheck, rfl⟩

/-- A compiled source consists of tokens. Its atoms are those of the tokens, in some order, and they
leave one value. -/
theorem exists_tokens_of_compile {source : String} {expression : Expression}
    (h : compile source = .ok expression) :
    ∃ tokens : List Token, Token.lexemes source.toList = tokens.map Lexeme.token ∧
      expression.atoms ~ tokens.filterMap Token.atom? ∧ totalGain expression.atoms = 1 := by
  obtain ⟨tokens, htokens⟩ : Token.lexemes source.toList ∈ Set.range (List.map Lexeme.token) := by
    rw [Set.range_list_map]
    exact fun lexeme hlexeme => (exists_token_of_compile h lexeme hlexeme).imp fun _ => Eq.symm
  have hscan : (Token.scan source).map Scanned.lexeme = tokens.map Lexeme.token := htokens.symm
  obtain ⟨placed, hreorder, hcheck, hatoms⟩ := exists_placed_of_atomsOf (of_compile h).2.2
  have hperm := (perm_of_reorder hreorder).map PlacedAtom.atom
  rw [List.filterMap_nil, List.append_nil, map_atom_filterMap_placed? hscan] at hperm
  refine ⟨tokens, htokens.symm, hatoms ▸ hperm, ?_⟩
  have htotal := (checkOperands_eq_ok_iff_supplied.1 hcheck).2
  rw [hatoms]
  simpa using htotal

/-- The operand check decides whether a source is an infix expression, if its operands are apart. -/
theorem exists_isInfix_of_compile {source : String} {expression : Expression}
    (h : compile source = .ok expression) (hapart : OperandsApart source) :
    ∃ tree, IsInfix source tree := by
  obtain ⟨tokens, htokens, hperm, hone⟩ := exists_tokens_of_compile h
  obtain ⟨placed, hreorder, -⟩ := exists_placed_of_atomsOf (of_compile h).2.2
  have hgain : totalGain (tokens.filterMap Token.atom?) = 1 :=
    (totalGain_perm hperm).symm.trans hone
  have halternates : Alternates 0 false tokens :=
    (leavesOne_of_reorder htokens hreorder (hapart tokens htokens) (by simp)).2
    (by simpa using hgain)
  obtain ⟨tree, hinfix⟩ := halternates.exists_infix (Token.plainLiterals_of_lexemes htokens)
  exact ⟨tree, tokens, htokens, hinfix⟩

/-- A source is an infix expression exactly if it is accepted and no operand begins directly behind
the end of another one. The atoms are those of its syntax tree then. Every other source whose
operands are apart is a fault. Of any source that is accepted the operand check tells that it
consists of tokens whose atoms leave one value. -/
theorem accepted_iff_isInfix (source : String) :
    ((∃ expression, compile source = .ok expression) ∧ OperandsApart source ↔
      ∃ tree, IsInfix source tree) ∧
    (OperandsApart source → (¬∃ tree, IsInfix source tree) →
      ∃ fault, compile source = .error fault) ∧
    ∀ expression, compile source = .ok expression →
      (∀ tree, IsInfix source tree → expression.atoms = tree.atoms) ∧
      ∃ tokens : List Token, Token.lexemes source.toList = tokens.map Lexeme.token ∧
        expression.atoms ~ tokens.filterMap Token.atom? ∧ totalGain expression.atoms = 1 := by
  refine ⟨⟨?_, ?_⟩, ?_, ?_⟩
  · rintro ⟨⟨expression, hcompile⟩, hapart⟩
    exact exists_isInfix_of_compile hcompile hapart
  · rintro ⟨tree, htree⟩
    refine ⟨⟨⟨source, idOf source, tree.atoms⟩, ?_⟩, htree.operandsApart⟩
    rw [compile, htree.atomsOf_eq]
    rfl
  · intro hapart hnot
    cases hcompile : compile source with
    | error fault => exact ⟨fault, rfl⟩
    | ok expression => exact absurd (exists_isInfix_of_compile hcompile hapart) hnot
  · intro expression hcompile
    refine ⟨fun tree htree => ?_, exists_tokens_of_compile hcompile⟩
    have hatoms := (of_compile hcompile).2.2
    rw [htree.atomsOf_eq] at hatoms
    exact (Except.ok.inj hatoms).symm

/-- An operator in front of the end of its group, beside a source that is an infix expression. -/
theorem accepted_iff_isInfix_negated_group :
    (∃ tree, IsInfix "!(a+b)" tree) ∧ OperandsApart "(a+)" ∧ (¬∃ tree, IsInfix "(a+)" tree) ∧
      ∃ fault, compile "(a+)" = .error fault := by
  have haccepted : ∃ expression, compile "!(a+b)" = .ok expression :=
    ⟨⟨"!(a+b)", "!(a+b)", [.literal "a", .literal "b", .operator .add, .operator .not]⟩,
      by decide +kernel⟩
  have hrefused : compile "(a+)" = .error ⟨.missingOperand .add, 2⟩ := by decide +kernel
  have hgroup : OperandsApart "!(a+b)" := @operandsApart_of_lexemes _
    [.operator .not, .groupOpen, .literal "a", .operator .add, .literal "b", .groupClose]
    (by decide +kernel) (by decide)
  have hopen : OperandsApart "(a+)" := @operandsApart_of_lexemes _
    [.groupOpen, .literal "a", .operator .add, .groupClose] (by decide +kernel) (by decide)
  have hnot : ¬∃ tree, IsInfix "(a+)" tree := by
    intro htree
    obtain ⟨⟨expression, hcompile⟩, -⟩ := (accepted_iff_isInfix "(a+)").1.2 htree
    rw [hrefused] at hcompile
    cases hcompile
  exact ⟨(accepted_iff_isInfix "!(a+b)").1.1 ⟨haccepted, hgroup⟩, hopen, hnot,
    (accepted_iff_isInfix "(a+)").2.1 hopen hnot⟩

/-- Where an operand begins directly behind the end of another one the operand check may be content
with a source that is no infix expression, such as one with an operator behind both of its
operands. -/
theorem compile_operator_behind_operands :
    (∃ expression, compile "(a)(b)+" = .ok expression) ∧ ¬∃ tree, IsInfix "(a)(b)+" tree := by
  constructor
  · exact ⟨⟨"(a)(b)+", "(a)(b)+", [.literal "a", .literal "b", .operator .add]⟩, by decide +kernel⟩
  · rintro ⟨tree, htree⟩
    have hchain := htree.operandsApart
      [.groupOpen, .literal "a", .groupClose, .groupOpen, .literal "b", .groupClose, .operator .add]
      (by decide +kernel)
    exact absurd hchain (by decide)

end Expression

end BraceTemplate
