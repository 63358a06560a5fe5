import BraceTemplate.Proofs.Decimal.Digits
import BraceTemplate.Template.Placeholder

/-!
# The texts of placeholders

A placeholder is read back from its text whatever its key is: the tag ends at the first colon and
the index begins behind the last one, so colons, braces and blanks in the key do no harm. All other
texts that are read as the placeholder write its index with leading zeros or a plus sign, and no
text stands for two placeholders.
-/

namespace BraceTemplate

/-- A text is split at a mark that stands nowhere in front. -/
theorem splitFirst?_append {mark : Char} {before : List Char} (h : mark ∉ before)
    (after : List Char) : splitFirst? mark (before ++ mark :: after) = some (before, after) := by
  induction before with
  | nil => rw [List.nil_append, splitFirst?, if_pos rfl]
  | cons c before ih =>
    rw [List.mem_cons, not_or] at h
    rw [List.cons_append, splitFirst?, if_neg fun heq => h.1 heq.symm, ih h.2]
    rfl

/-- A text without the mark is not split. -/
theorem splitLast?_of_notMem {mark : Char} {cs : List Char} (h : mark ∉ cs) :
    splitLast? mark cs = none := by
  induction cs with
  | nil => rfl
  | cons c cs ih =>
    rw [List.mem_cons, not_or] at h
    rw [splitLast?, ih h.2]
    exact if_neg fun heq => h.1 heq.symm

/-- A text is split at a mark that stands nowhere behind. -/
theorem splitLast?_append {mark : Char} (before : List Char) {after : List Char}
    (h : mark ∉ after) : splitLast? mark (before ++ mark :: after) = some (before, after) := by
  induction before with
  | nil =>
    rw [List.nil_append, splitLast?, splitLast?_of_notMem h]
    exact if_pos rfl
  | cons c before ih => rw [List.cons_append, splitLast?, ih]

/-! ### Numerals of an index -/

/-- No digit is one of the characters that a placeholder is put together with. -/
theorem Digit.toChar_notMem (digit : Digit) :
    digit.toChar ∉ ['+', ':', '\x7b', '\x7d'] := by
  revert digit
  decide

/-- Among digits there is none of the characters that a placeholder is put together with. -/
theorem Digit.notMem_map_toChar {c : Char} (h : c ∈ ['+', ':', '\x7b', '\x7d'])
    (digits : List Digit) : c ∉ digits.map Digit.toChar := by
  intro hmem
  obtain ⟨digit, -, rfl⟩ := List.mem_map.1 hmem
  exact digit.toChar_notMem h

/-- Every digit has a character of its own. -/
theorem Digit.toChar_injective : Function.Injective Digit.toChar := by
  intro digit other h
  have hread := congrArg Digit.ofChar? h
  rwa [Digit.ofChar?_toChar, Digit.ofChar?_toChar, Option.some.injEq] at hread

/-- The numerals of an index: its decimal text behind any zeros, and a plus sign in front or
none. -/
inductive IndexText (index : Nat) : List Char → Prop
  | unsigned (zeros : Nat) : IndexText index (List.replicate zeros '0' ++ index.repr.toList)
  | signed (zeros : Nat) :
    IndexText index ('+' :: (List.replicate zeros '0' ++ index.repr.toList))

/-- A numeral of an index is digits of that value, with a plus sign in front of them or none. -/
theorem indexText_iff {index : Nat} {cs : List Char} :
    IndexText index cs ↔ ∃ digits : List Digit, digits ≠ [] ∧ Digit.value digits = index ∧
      (cs = digits.map Digit.toChar ∨ cs = '+' :: digits.map Digit.toChar) := by
  have hzeros : ∀ zeros, (List.replicate zeros 0 ++ Digit.ofNat index).map Digit.toChar =
      List.replicate zeros '0' ++ index.repr.toList := by
    intro zeros
    rw [List.map_append, List.map_replicate, Digit.map_toChar_ofNat]
    rfl
  have hne : ∀ zeros, List.replicate zeros 0 ++ Digit.ofNat index ≠ [] := fun zeros =>
    List.append_ne_nil_of_right_ne_nil _ (Digit.ofNat_ne_nil index)
  have hvalue : ∀ zeros, Digit.value (List.replicate zeros 0 ++ Digit.ofNat index) = index := by
    intro zeros
    rw [Digit.value_replicate_zero_append, Digit.value_ofNat]
  constructor
  · rintro (zeros | zeros)
    · exact ⟨_, hne zeros, hvalue zeros, .inl (hzeros zeros).symm⟩
    · exact ⟨_, hne zeros, hvalue zeros, .inr (by rw [hzeros])⟩
  · rintro ⟨digits, hdigits, heq, hcs⟩
    obtain ⟨zeros, hsplit⟩ := Digit.exists_eq_replicate_append_ofNat hdigits
    rw [hsplit, heq, hzeros] at hcs
    rcases hcs with rfl | rfl
    · exact .unsigned zeros
    · exact .signed zeros

/-- There is no colon in a numeral. -/
theorem IndexText.colon_notMem {index : Nat} {cs : List Char} (h : IndexText index cs) :
    ':' ∉ cs := by
  obtain ⟨digits, -, -, hcs⟩ := indexText_iff.1 h
  have hdigits := Digit.notMem_map_toChar (c := ':') (by decide) digits
  rcases hcs with rfl | rfl
  · exact hdigits
  · exact List.not_mem_cons_of_ne_of_not_mem (by decide) hdigits

/-- A plus sign is not the first of any digits. -/
theorem plus_cons_ne_map_toChar (cs : List Char) (digits : List Digit) :
    '+' :: cs ≠ digits.map Digit.toChar := by
  intro h
  have hplus := Digit.notMem_map_toChar (c := '+') (by decide) digits
  rw [← h] at hplus
  exact hplus List.mem_cons_self

/-- The digits of an index are a numeral of it. -/
theorem indexText_digits (index : Nat) :
    IndexText index ((Digit.ofNat index).map Digit.toChar) := by
  have hnumeral : IndexText index (List.replicate 0 '0' ++ index.repr.toList) := .unsigned 0
  rwa [List.replicate_zero, List.nil_append, ← Digit.map_toChar_ofNat] at hnumeral

/-- A text is a numeral of one index only. -/
theorem IndexText.unique {index other : Nat} {cs : List Char} (h : IndexText index cs)
    (hother : IndexText other cs) : index = other := by
  obtain ⟨digits, -, rfl, hcs⟩ := indexText_iff.1 h
  obtain ⟨digits', -, rfl, hcs'⟩ := indexText_iff.1 hother
  have hsame : digits.map Digit.toChar = digits'.map Digit.toChar := by
    rcases hcs with rfl | rfl <;> rcases hcs' with hcs' | hcs'
    · exact hcs'
    · exact absurd hcs'.symm (plus_cons_ne_map_toChar _ _)
    · exact absurd hcs' (plus_cons_ne_map_toChar _ _)
    · exact (List.cons.inj hcs').2
  rw [(List.map_inj_right Digit.toChar_injective).1 hsame]

/-- What is read as an index are the numerals of the numbers below `2 ^ 64`. -/
theorem readIndex?_eq_some_iff {index : Nat} {cs : List Char} :
    readIndex? cs = some index ↔ index < 2 ^ 64 ∧ IndexText index cs := by
  rw [indexText_iff]
  constructor
  · intro h
    unfold readIndex? at h
    dsimp only at h
    split at h
    · next digit digits hspan =>
      obtain ⟨hlt, hvalue⟩ := Option.ite_none_right_eq_some.1 h
      cases hvalue
      refine ⟨hlt, digit :: digits, List.cons_ne_nil _ _, rfl, ?_⟩
      have hdigits := Digit.eq_of_span hspan
      rw [List.append_nil] at hdigits
      split at hdigits
      · exact .inr (by rw [hdigits])
      · exact .inl hdigits
    · cases h
  · rintro ⟨hlt, digits, hne, rfl, hcs⟩
    have hspan : Digit.span (digits.map Digit.toChar) = (digits, []) := by
      have hends : NoDigit [] := by simp [NoDigit]
      have hall := Digit.span_map_toChar digits hends
      rwa [List.append_nil] at hall
    obtain ⟨digit, digits, rfl⟩ := List.exists_cons_of_ne_nil hne
    rcases hcs with rfl | rfl
    · rw [readIndex?]
      · rw [hspan]
        exact if_pos hlt
      · exact fun cs heq => plus_cons_ne_map_toChar cs _ heq.symm
    · rw [readIndex?, hspan]
      exact if_pos hlt

/-! ### Placeholders -/

/-- There is no colon in the tag of a kind. -/
theorem PlaceholderKind.colon_notMem_tag (kind : PlaceholderKind) : ':' ∉ kind.tag.toList := by
  cases kind <;> decide

/-- Every kind has a tag of its own. -/
theorem PlaceholderKind.tag_injective : Function.Injective PlaceholderKind.tag := by
  intro kind other
  cases kind <;> cases other <;> decide

namespace Placeholder

open PlaceholderKind (colon_notMem_tag tag_injective)

/-- A placeholder is made of a kind, a key that is not empty, and an index that can be read. -/
theorem ofParts_eq_some_iff {found : PlaceholderKind} {key numeral : List Char}
    {placeholder : Placeholder} :
    (if key.isEmpty = true then none else
      (readIndex? numeral).bind fun n => some (⟨found, String.ofList key, n⟩ : Placeholder)) =
        some placeholder ↔
      found = placeholder.kind ∧ key = placeholder.key.toList ∧ key ≠ [] ∧
        readIndex? numeral = some placeholder.index := by
  obtain ⟨kind, name, index⟩ := placeholder
  by_cases hempty : key = []
  · simp [hempty]
  · have hname : String.ofList key = name ↔ key = name.toList := by
      rw [← String.toList_inj, String.toList_ofList]
    rw [if_neg (by simpa using hempty), Option.bind_eq_some_iff]
    simp only [Option.some.injEq, mk.injEq, hname, ne_eq, hempty, not_false_eq_true, true_and]
    constructor
    · rintro ⟨n, hread, hfound, hkey, rfl⟩
      exact ⟨hfound, hkey, hread⟩
    · rintro ⟨hfound, hkey, hread⟩
      exact ⟨index, hread, hfound, hkey, rfl⟩

/-- What stands in front of the first colon is the tag, what stands behind the last one is the
index, and what stands between the two is the key. -/
theorem ofContent?_of_split {cs tag rest key numeral : List Char} {placeholder : Placeholder}
    (hfirst : splitFirst? ':' cs = some (tag, rest))
    (hlast : splitLast? ':' rest = some (key, numeral)) :
    ofContent? cs = some placeholder ↔ tag = placeholder.kind.tag.toList ∧
      key = placeholder.key.toList ∧ key ≠ [] ∧ readIndex? numeral = some placeholder.index := by
  rw [ofContent?, hfirst]
  simp only [Option.bind_eq_bind, Option.bind_some]
  rw [hlast]
  dsimp only [Option.bind_some]
  have htag : ∀ found : PlaceholderKind,
      found.tag.toList = placeholder.kind.tag.toList ↔ found = placeholder.kind := fun found => by
    rw [String.toList_inj, tag_injective.eq_iff]
  split
  · next hconditional =>
    rw [hconditional]
    exact ofParts_eq_some_iff.trans (and_congr_left' (htag .conditional).symm)
  · next hconditional =>
    split
    · next hrepetition =>
      rw [hrepetition]
      exact ofParts_eq_some_iff.trans (and_congr_left' (htag .repetition).symm)
    · next hrepetition =>
      refine iff_of_false (by simp) fun h => ?_
      cases hkind : placeholder.kind with
      | conditional => exact hconditional (h.1.trans (by rw [hkind]; rfl))
      | repetition => exact hrepetition (h.1.trans (by rw [hkind]; rfl))

/-- What is read as a marker without its braces is a tag, a key that is not empty, and a numeral of
an index below `2 ^ 64`. The key may have colons, for the tag has none and the numeral has none. -/
theorem ofContent?_eq_some_iff {cs : List Char} {placeholder : Placeholder} :
    ofContent? cs = some placeholder ↔
      placeholder.key ≠ "" ∧ placeholder.index < 2 ^ 64 ∧
        ∃ numeral, IndexText placeholder.index numeral ∧
          cs = placeholder.kind.tag.toList ++ ':' :: placeholder.key.toList ++ ':' :: numeral := by
  constructor
  · intro h
    obtain ⟨⟨tag, rest⟩, hfirst, hrest⟩ := Option.bind_eq_some_iff.1 h
    obtain ⟨⟨key, numeral⟩, hlast, -⟩ := Option.bind_eq_some_iff.1 hrest
    obtain ⟨htag, hkey, hne, hread⟩ := (ofContent?_of_split hfirst hlast).1 h
    obtain ⟨hindex, hnumeral⟩ := readIndex?_eq_some_iff.1 hread
    refine ⟨?_, hindex, numeral, hnumeral, ?_⟩
    · intro hempty
      exact hne (by rw [hkey, hempty]; rfl)
    · rw [eq_of_splitFirst? hfirst, eq_of_splitLast? hlast, htag, hkey]
      simp
  · rintro ⟨hkey, hindex, numeral, hnumeral, rfl⟩
    rw [List.append_assoc, List.cons_append,
      ofContent?_of_split (splitFirst?_append (colon_notMem_tag _) _)
        (splitLast?_append _ hnumeral.colon_notMem)]
    exact ⟨rfl, rfl, by simpa using hkey, readIndex?_eq_some_iff.2 ⟨hindex, hnumeral⟩⟩

/-- A marker is what is read without its braces, in braces. -/
theorem ofText?_eq_some_iff_content {text : String} {placeholder : Placeholder} :
    ofText? text = some placeholder ↔
      ∃ content, text.toList = '\x7b' :: content ++ ['\x7d'] ∧
        ofContent? content = some placeholder := by
  constructor
  · intro h
    unfold ofText? at h
    split at h
    · next rest htext =>
      split at h
      · next reversed hrest =>
        refine ⟨reversed.reverse, ?_, h⟩
        rw [htext, ← List.reverse_reverse rest, hrest, List.reverse_cons, List.cons_append]
      · cases h
    · cases h
  · rintro ⟨content, htext, hcontent⟩
    have hreverse : (content ++ ['\x7d']).reverse = '\x7d' :: content.reverse := by
      rw [List.reverse_append]
      rfl
    rw [ofText?, htext, List.cons_append]
    simp only [hreverse, List.reverse_reverse, hcontent]

/-- A text spells a placeholder if it is the tag of its kind, its key and a numeral of its index,
with colons between them and braces around them. -/
def SpelledBy (placeholder : Placeholder) (text : String) : Prop :=
  ∃ numeral, IndexText placeholder.index numeral ∧
    text.toList = '\x7b' :: (placeholder.kind.tag.toList ++ ':' :: placeholder.key.toList ++
      ':' :: numeral) ++ ['\x7d']

/-- The text of a placeholder spells it. -/
theorem spelledBy_text (placeholder : Placeholder) :
    placeholder.SpelledBy (String.ofList placeholder.text) :=
  ⟨_, indexText_digits placeholder.index, by rw [String.toList_ofList]; rfl⟩

/-- What is read as a marker are the texts that spell a placeholder with a key and an index below
`2 ^ 64`. -/
theorem ofText?_eq_some_iff {text : String} {placeholder : Placeholder} :
    ofText? text = some placeholder ↔
      placeholder.key ≠ "" ∧ placeholder.index < 2 ^ 64 ∧ placeholder.SpelledBy text := by
  rw [ofText?_eq_some_iff_content]
  constructor
  · rintro ⟨content, htext, hcontent⟩
    obtain ⟨hkey, hindex, numeral, hnumeral, rfl⟩ := ofContent?_eq_some_iff.1 hcontent
    exact ⟨hkey, hindex, numeral, hnumeral, htext⟩
  · rintro ⟨hkey, hindex, numeral, hnumeral, htext⟩
    exact ⟨_, htext, ofContent?_eq_some_iff.2 ⟨hkey, hindex, numeral, hnumeral, rfl⟩⟩

/-- No text spells two placeholders, even if their keys are empty or their indexes too large to be
read: the first colon ends the tag, and the last one the key. -/
theorem SpelledBy.unique {placeholder other : Placeholder} {text : String}
    (h : placeholder.SpelledBy text) (hother : other.SpelledBy text) : placeholder = other := by
  obtain ⟨numeral, hnumeral, htext⟩ := h
  obtain ⟨numeral', hnumeral', htext'⟩ := hother
  have hcontent := htext.symm.trans htext'
  rw [List.append_cancel_right_eq, List.cons.injEq, List.append_assoc,
    List.append_assoc] at hcontent
  have hfirst := congrArg (splitFirst? ':') hcontent.2
  rw [List.cons_append, List.cons_append, splitFirst?_append (colon_notMem_tag _),
    splitFirst?_append (colon_notMem_tag _), Option.some.injEq, Prod.mk.injEq] at hfirst
  have hlast := congrArg (splitLast? ':') hfirst.2
  rw [splitLast?_append _ hnumeral.colon_notMem, splitLast?_append _ hnumeral'.colon_notMem,
    Option.some.injEq, Prod.mk.injEq] at hlast
  have hkind : placeholder.kind = other.kind := tag_injective (String.toList_inj.1 hfirst.1)
  have hkey : placeholder.key = other.key := String.toList_inj.1 hlast.1
  have hindex : placeholder.index = other.index := by
    rw [hlast.2] at hnumeral
    exact hnumeral.unique hnumeral'
  cases placeholder
  cases other
  rw [mk.injEq]
  exact ⟨hkind, hkey, hindex⟩

/-- Placeholders and their texts determine each other. The text of a placeholder is read as that
placeholder if its key is not empty and its index is below `2 ^ 64`. What is read as a placeholder
is spelled by its tag, its key and a numeral of its index, and nothing else is read. No text spells
two placeholders. -/
theorem text_round_trip :
    (∀ placeholder : Placeholder, placeholder.key ≠ "" → placeholder.index < 2 ^ 64 →
      ofText? (String.ofList placeholder.text) = some placeholder) ∧
    (∀ (text : String) (placeholder : Placeholder), ofText? text = some placeholder ↔
      placeholder.key ≠ "" ∧ placeholder.index < 2 ^ 64 ∧ placeholder.SpelledBy text) ∧
    (∀ (text : String) (placeholder other : Placeholder), placeholder.SpelledBy text →
      other.SpelledBy text → placeholder = other) ∧
    Function.Injective text := by
  refine ⟨?_, fun _ _ => ofText?_eq_some_iff, fun _ _ _ h hother => h.unique hother, ?_⟩
  · intro placeholder hkey hindex
    exact ofText?_eq_some_iff.2 ⟨hkey, hindex, spelledBy_text placeholder⟩
  · intro placeholder other h
    have hother := spelledBy_text other
    rw [← h] at hother
    exact (spelledBy_text placeholder).unique hother

/-- A placeholder whose key has colons, braces and a blank. -/
def delimited : Placeholder :=
  ⟨.repetition, "a:\x7d \x7bif:b:", 7⟩

/-- The key of a text goes on to its last colon, so the text does not spell a shorter key. -/
theorem text_round_trip_delimited :
    delimited.key ≠ "" ∧ delimited.index < 2 ^ 64 ∧
      ofText? (String.ofList delimited.text) = some delimited ∧
      delimited.SpelledBy "\x7bfor:a:\x7d \x7bif:b::+007\x7d" ∧
      ofText? "\x7bfor:a:\x7d \x7bif:b::+007\x7d" = some delimited ∧
      ¬ SpelledBy ⟨.repetition, "a:\x7d \x7bif:b", 7⟩ "\x7bfor:a:\x7d \x7bif:b::+007\x7d" := by
  have hkey : delimited.key ≠ "" := by decide
  have hindex : delimited.index < 2 ^ 64 := by decide
  have hspelled : delimited.SpelledBy "\x7bfor:a:\x7d \x7bif:b::+007\x7d" :=
    ⟨_, .signed 2, by decide⟩
  refine ⟨hkey, hindex, text_round_trip.1 delimited hkey hindex, hspelled,
    (text_round_trip.2.1 _ delimited).2 ⟨hkey, hindex, hspelled⟩, fun hshorter => ?_⟩
  exact absurd (text_round_trip.2.2.1 _ _ _ hshorter hspelled) (by decide)

end Placeholder

end BraceTemplate
