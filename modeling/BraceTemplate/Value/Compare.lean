import BraceTemplate.Value.Basic

/-!
# Comparing values

Strict equality distinguishes the kinds of values and takes scopes as sets of bindings. Loose
equality and loose order are those of the expression language: they compare across kinds.
-/

namespace BraceTemplate

namespace Value

mutual

/-- Strict equality. NaN differs from itself, and the order of bindings does not matter. -/
def same : Value → Value → Bool
  | null, null => true
  | bool a, bool b => a == b
  | number x, number y => x == y
  | string s, string t => s == t
  | list as, list bs => sameItems as bs
  | _, _ => false

/-- Strict equality item by item. -/
def sameItems : List (List (String × Value)) → List (List (String × Value)) → Bool
  | [], [] => true
  | a :: as, b :: bs => a.length == b.length && bindsAll b a && sameItems as bs
  | _, _ => false

/-- Whether the first scope binds every name of the second one to the same value. -/
def bindsAll (scope : List (String × Value)) : List (String × Value) → Bool
  | [] => true
  | (name, value) :: rest =>
    (match List.lookup name scope with
      | some found => same value found
      | none => false) && bindsAll scope rest

end

/-- Loose equality. Booleans compare by truth and null is equal to what is not true. A list is equal
to a number that is its length. Numbers and numerals compare as numbers, all else as texts. -/
def looseEq : Value → Value → Bool
  | bool b, v => b == v.truthy
  | v, bool b => b == v.truthy
  | null, v => !v.truthy
  | v, null => !v.truthy
  | list as, list bs => sameItems as bs
  | list items, v => v.numeric? == some (lengthNumber items)
  | v, list items => v.numeric? == some (lengthNumber items)
  | v, w =>
    match v.numeric?, w.numeric? with
    | some x, some y => x == y
    | _, _ => v.display == w.display

/-- The order of two doubles; `none` if one of them is NaN. -/
def orderNumbers? (x y : Float) : Option Ordering :=
  if x < y then some .lt else if x == y then some .eq else if y < x then some .gt else none

/-- Loose order. Two texts compare by code points unless both are numerals; all else compares as
numbers, and with NaN not at all. -/
def looseCmp? (v w : Value) : Option Ordering :=
  match v, w with
  | string s, string t =>
    match numberOf? s, numberOf? t with
    | some x, some y => orderNumbers? x y
    | _, _ => some (compare s t)
  | v, w => orderNumbers? v.toNumber w.toNumber

end Value

end BraceTemplate
