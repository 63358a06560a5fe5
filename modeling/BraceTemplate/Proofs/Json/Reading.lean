import BraceTemplate.Json.Parser
import BraceTemplate.Proofs.Json.Printing

/-!
# Reading undoes printing

A printed value is a list of tokens, and reading these tokens from any state that expects a value
leads to the state behind that value. Both facts are shown in front of any rest of the text. So
every well-formed value is read back from its printed form.
-/

namespace BraceTemplate

namespace Json

mutual

/-- The tokens of a value. -/
def tokens : Json → List Token
  | null => [.null]
  | bool b => [.bool b]
  | number numeral => [.number numeral]
  | string text => [.string (some text)]
  | array [] => [.openArray, .closeArray]
  | array (item :: items) => .openArray :: (tokens item ++ itemsTokens items)
  | object [] => [.openObject, .closeObject]
  | object ((name, value) :: members) =>
    .openObject :: .string (some name) :: .colon :: (tokens value ++ membersTokens members)
  | illFormed => [.string none]

/-- The tokens of the items behind the first one and of the closing bracket. -/
def itemsTokens : List Json → List Token
  | [] => [.closeArray]
  | item :: items => .comma :: (tokens item ++ itemsTokens items)

/-- The tokens of the members behind the first one and of the closing brace. -/
def membersTokens : List (String × Json) → List Token
  | [] => [.closeObject]
  | (name, value) :: members =>
    .comma :: .string (some name) :: .colon :: (tokens value ++ membersTokens members)

end

/-- All numerals of a value are well-formed and all strings are texts. -/
inductive WellFormed : Json → Prop
  | null : WellFormed null
  | bool (b : Bool) : WellFormed (bool b)
  | number {numeral : Numeral} (h : numeral.WellFormed) : WellFormed (number numeral)
  | string (text : String) : WellFormed (string text)
  | array {items : List Json} (h : ∀ item ∈ items, WellFormed item) : WellFormed (array items)
  | object {members : List (String × Json)} (h : ∀ member ∈ members, WellFormed member.2) :
      WellFormed (object members)

namespace WellFormed

/-- The empty object is well-formed. -/
theorem objectNil : (Json.object []).WellFormed :=
  .object (by simp)

/-- A member with a well-formed value may come in front. -/
theorem objectCons {name : String} {value : Json} {members : List (String × Json)}
    (hvalue : value.WellFormed) (hmembers : (Json.object members).WellFormed) :
    (Json.object ((name, value) :: members)).WellFormed := by
  cases hmembers with
  | object h => exact .object (List.forall_mem_cons.2 ⟨hvalue, h⟩)

/-- An array is well-formed if all that is encoded in it is. -/
theorem arrayMap {α : Type} {encode : α → Json} {values : List α}
    (h : ∀ value ∈ values, (encode value).WellFormed) :
    (Json.array (values.map encode)).WellFormed :=
  .array (List.forall_mem_map.2 h)

/-- An object is well-formed if all that is encoded in it is. -/
theorem objectMap {α : Type} {encode : α → Json} {entries : List (String × α)}
    (h : ∀ entry ∈ entries, (encode entry.2).WellFormed) :
    (Json.object (entries.map fun entry => (entry.1, encode entry.2))).WellFormed :=
  .object (List.forall_mem_map.2 h)

end WellFormed

/-! ### Tokens of the printed text -/

namespace Token

/-- There are no tokens in an empty text. -/
theorem tokens?_nil : tokens? [] = some [] := by
  rw [tokens?]

/-- What is read as a token is taken off the text. -/
theorem tokens?_of_read? {c : Char} {cs rest : List Char} {token : Token}
    (hspace : isSpace c = false) (h : read? (c :: cs) = some (token, rest)) :
    tokens? (c :: cs) = (tokens? rest).map (token :: ·) := by
  rw [tokens?, if_neg (by simp [hspace])]
  split
  · next hnone => simp [h] at hnone
  · next hsome =>
    rw [h] at hsome
    cases hsome
    rfl

/-- A quoted text is read as one token. -/
theorem tokens?_quote (text : String) (rest : List Char) :
    tokens? (quote text ++ rest) = (tokens? rest).map (string (some text) :: ·) := by
  have hread := read?_quote text rest
  simp only [quote, List.cons_append] at hread ⊢
  exact tokens?_of_read? (by decide) hread

/-- A numeral is read as one token where no digit goes on behind it. -/
theorem tokens?_numeral {numeral : Numeral} (h : numeral.WellFormed) {rest : List Char}
    (hrest : Numeral.Ends rest) :
    tokens? (numeral.text ++ rest) = (tokens? rest).map (number numeral :: ·) := by
  have hread := read?_numeral h hrest
  obtain ⟨c, cs, hcs, hspace⟩ : ∃ c cs, numeral.text = c :: cs ∧ isSpace c = false := by
    obtain ⟨digit, digits, hwhole⟩ := List.exists_cons_of_ne_nil h.whole_ne_nil
    rw [Numeral.text_eq, Numeral.unsignedText, hwhole]
    cases numeral.negative with
    | true => exact ⟨'-', _, rfl, by decide⟩
    | false =>
      have hall : ∀ digit : Digit, isSpace digit.toChar = false := by decide
      exact ⟨digit.toChar, _, rfl, hall digit⟩
  rw [hcs, List.cons_append] at hread ⊢
  exact tokens?_of_read? hspace hread

/-- A text of tokens begins with one, unless it begins with space. -/
theorem read?_isSome_of_tokens? {c : Char} {cs : List Char} (hspace : isSpace c = false)
    (h : (tokens? (c :: cs)).isSome) : (read? (c :: cs)).isSome := by
  rw [tokens?, if_neg (by simp [hspace])] at h
  split at h
  · simp at h
  · next hsome =>
    rw [hsome]
    rfl

/-- The text of a numeral that is no token is no list of tokens either, unless it is empty. -/
theorem wellFormed_of_tokens? {numeral : Numeral} {tokens : List Token}
    (h : tokens? numeral.text = some tokens) (hne : tokens ≠ []) : numeral.WellFormed := by
  refine Numeral.wellFormed_of_readUnsigned? ?_
  rw [Numeral.text_eq] at h
  cases hnegative : numeral.negative with
  | true =>
    have hsome : (tokens? ('-' :: numeral.unsignedText)).isSome := by
      rw [hnegative] at h
      exact Option.isSome_of_eq_some h
    have hread := read?_isSome_of_tokens? (by decide) hsome
    rw [read?, Option.isSome_map] at hread
    exact hread
  | false =>
    rw [hnegative] at h
    simp only [Bool.false_eq_true, if_false, List.nil_append] at h
    cases htext : numeral.unsignedText with
    | nil =>
      rw [htext, tokens?_nil] at h
      exact absurd (Option.some.inj h).symm hne
    | cons c cs =>
      obtain ⟨hspace, hspecial⟩ := numeral.head_unsignedText c (by rw [htext]; rfl)
      have hread := read?_isSome_of_tokens? hspace (Option.isSome_of_eq_some (htext ▸ h))
      rw [read?_unsigned cs hspecial, Option.isSome_map] at hread
      exact hread

end Token

/-- Behind an item no numeral goes on. -/
theorem ends_itemsChars (items : List Json) (rest : List Char) :
    Numeral.Ends (itemsChars items ++ rest) := by
  cases items <;> simp [itemsChars, Numeral.Ends]

/-- Behind a member no numeral goes on. -/
theorem ends_membersChars (members : List (String × Json)) (rest : List Char) :
    Numeral.Ends (membersChars members ++ rest) := by
  cases members <;> simp [membersChars, Numeral.Ends]

mutual

/-- The printed text of a value is scanned as the tokens of that value. -/
theorem tokens?_chars : (json : Json) → json.WellFormed → (rest : List Char) →
    Numeral.Ends rest →
    Token.tokens? (json.chars ++ rest) = (Token.tokens? rest).map (json.tokens ++ ·)
  | .null, _, rest, _ => Token.tokens?_of_read? (by decide) rfl
  | .bool true, _, rest, _ => Token.tokens?_of_read? (by decide) rfl
  | .bool false, _, rest, _ => Token.tokens?_of_read? (by decide) rfl
  | .number numeral, .number h, rest, hrest => Token.tokens?_numeral h hrest
  | .string text, _, rest, _ => Token.tokens?_quote text rest
  | .array [], _, rest, _ => by
    have hopen : Token.tokens? ('[' :: ']' :: rest) =
        (Token.tokens? (']' :: rest)).map (.openArray :: ·) :=
      Token.tokens?_of_read? (by decide) rfl
    have hclose : Token.tokens? (']' :: rest) = (Token.tokens? rest).map (.closeArray :: ·) :=
      Token.tokens?_of_read? (by decide) rfl
    simp only [chars, tokens, List.cons_append, List.nil_append, hopen, hclose, Option.map_map,
      Function.comp_def]
  | .array (item :: items), .array h, rest, hrest => by
    have hopen : ∀ cs, Token.tokens? ('[' :: cs) = (Token.tokens? cs).map (.openArray :: ·) :=
      fun cs => Token.tokens?_of_read? (by decide) rfl
    have hitem := tokens?_chars item (h item (by simp)) _ (ends_itemsChars items rest)
    have hitems := tokens?_itemsChars items (fun other hmem => h other (by simp [hmem])) rest
    simp only [chars, tokens, List.cons_append, List.append_assoc, hopen, hitem, hitems,
      Option.map_map, Function.comp_def]
  | .object [], _, rest, _ => by
    have hopen : Token.tokens? ('\x7b' :: '\x7d' :: rest) =
        (Token.tokens? ('\x7d' :: rest)).map (.openObject :: ·) :=
      Token.tokens?_of_read? (by decide) rfl
    have hclose : Token.tokens? ('\x7d' :: rest) = (Token.tokens? rest).map (.closeObject :: ·) :=
      Token.tokens?_of_read? (by decide) rfl
    simp only [chars, tokens, List.cons_append, List.nil_append, hopen, hclose, Option.map_map,
      Function.comp_def]
  | .object ((name, value) :: members), .object h, rest, hrest => by
    have hopen : ∀ cs, Token.tokens? ('\x7b' :: cs) = (Token.tokens? cs).map (.openObject :: ·) :=
      fun cs => Token.tokens?_of_read? (by decide) rfl
    have hcolon : ∀ cs, Token.tokens? (':' :: cs) = (Token.tokens? cs).map (.colon :: ·) :=
      fun cs => Token.tokens?_of_read? (by decide) rfl
    have hvalue :=
      tokens?_chars value (h (name, value) (by simp)) _ (ends_membersChars members rest)
    have hmembers := tokens?_membersChars members (fun other hmem => h other (by simp [hmem])) rest
    simp only [chars, tokens, List.cons_append, List.append_assoc, hopen, Token.tokens?_quote,
      hcolon, hvalue, hmembers, Option.map_map, Function.comp_def]

/-- The items behind the first one, as they are printed, are read as their tokens. -/
theorem tokens?_itemsChars : (items : List Json) → (∀ item ∈ items, item.WellFormed) →
    (rest : List Char) →
    Token.tokens? (itemsChars items ++ rest) = (Token.tokens? rest).map (itemsTokens items ++ ·)
  | [], _, rest => Token.tokens?_of_read? (by decide) rfl
  | item :: items, h, rest => by
    have hcomma : ∀ cs, Token.tokens? (',' :: cs) = (Token.tokens? cs).map (.comma :: ·) :=
      fun cs => Token.tokens?_of_read? (by decide) rfl
    have hitem := tokens?_chars item (h item (by simp)) _ (ends_itemsChars items rest)
    have hitems := tokens?_itemsChars items (fun other hmem => h other (by simp [hmem])) rest
    simp only [itemsChars, itemsTokens, List.cons_append, List.append_assoc, hcomma, hitem, hitems,
      Option.map_map, Function.comp_def]

/-- The members behind the first one, as they are printed, are read as their tokens. -/
theorem tokens?_membersChars : (members : List (String × Json)) →
    (∀ member ∈ members, member.2.WellFormed) → (rest : List Char) →
    Token.tokens? (membersChars members ++ rest) =
      (Token.tokens? rest).map (membersTokens members ++ ·)
  | [], _, rest => Token.tokens?_of_read? (by decide) rfl
  | (name, value) :: members, h, rest => by
    have hcomma : ∀ cs, Token.tokens? (',' :: cs) = (Token.tokens? cs).map (.comma :: ·) :=
      fun cs => Token.tokens?_of_read? (by decide) rfl
    have hcolon : ∀ cs, Token.tokens? (':' :: cs) = (Token.tokens? cs).map (.colon :: ·) :=
      fun cs => Token.tokens?_of_read? (by decide) rfl
    have hvalue :=
      tokens?_chars value (h (name, value) (by simp)) _ (ends_membersChars members rest)
    have hmembers := tokens?_membersChars members (fun other hmem => h other (by simp [hmem])) rest
    simp only [membersChars, membersTokens, List.cons_append, List.append_assoc, hcomma,
      Token.tokens?_quote, hcolon, hvalue, hmembers, Option.map_map, Function.comp_def]

end

/-! ### The way through the tokens -/

/-- Where a value is expected the next token begins it. -/
theorem step?_value (frames : List Frame) (token : Token) :
    step? (frames, .value) token = begin? frames token := by
  simp only [step?]

/-- Behind an opening brace the name of a member may come. -/
theorem step?_firstName (frames : List Frame) (name : Option String) :
    step? (frames, .firstName) (.string name) = some (frames, .colon (some []) name) := by
  simp only [step?]

/-- Behind a comma in an object the name of a member comes. -/
theorem step?_name (frames : List Frame) (members : Members) (name : Option String) :
    step? (frames, .name members) (.string name) = some (frames, .colon members name) := by
  simp only [step?]

/-- Behind the colon of a member its value is expected. -/
theorem step?_colon (frames : List Frame) (members : Members) (name : Option String) :
    step? (frames, .colon members name) .colon = some (.object members name :: frames, .value) := by
  simp only [step?]

/-- A run takes one step at a time. -/
theorem run?_of_step? {state next : List Frame × Phase} {token : Token} (rest : List Token)
    (h : step? state token = some next) : run? state (token :: rest) = run? next rest := by
  rw [run?, h]

/-- In an array that has just been opened, the first item is read like any other value. -/
theorem run?_firstItem_tokens (frames : List Frame) (json : Json) (rest : List Token) :
    run? (.array [] :: frames, .firstItem) (json.tokens ++ rest) =
      run? (.array [] :: frames, .value) (json.tokens ++ rest) := by
  cases json with
  | null | bool | number | string | illFormed => rfl
  | array items => cases items <;> rfl
  | object members => cases members <;> rfl

mutual

/-- The tokens of a value lead from a state that expects one to the state behind it. -/
theorem run?_tokens : (json : Json) → (frames : List Frame) → (rest : List Token) →
    run? (frames, .value) (json.tokens ++ rest) = run? (frames, .after json) rest
  | .null, _, _ | .bool _, _, _ | .number _, _, _ | .string _, _, _ | .illFormed, _, _ =>
    run?_of_step? _ (step?_value _ _)
  | .array [], _, _ => (run?_of_step? _ (step?_value _ _)).trans (run?_of_step? _ rfl)
  | .object [], _, _ =>
    (run?_of_step? _ (step?_value _ _)).trans (run?_of_step? _ (by simp [step?]))
  | .array (item :: items), frames, rest => by
    calc run? (frames, .value) ((array (item :: items)).tokens ++ rest)
      _ = run? (.array [] :: frames, .firstItem) (item.tokens ++ (itemsTokens items ++ rest)) := by
        rw [tokens, List.cons_append, List.append_assoc]
        exact run?_of_step? _ (step?_value _ _)
      _ = run? (.array [] :: frames, .after item) (itemsTokens items ++ rest) := by
        rw [run?_firstItem_tokens, run?_tokens item]
      _ = run? (frames, .after (.array (item :: items))) rest := by
        rw [run?_itemsTokens items]
        rfl
  | .object ((name, value) :: members), frames, rest => by
    calc run? (frames, .value) ((object ((name, value) :: members)).tokens ++ rest)
      _ = run? (.object (some []) name :: frames, .value)
          (value.tokens ++ (membersTokens members ++ rest)) := by
        rw [tokens, List.cons_append, List.cons_append, List.cons_append, List.append_assoc]
        rw [run?_of_step? _ (step?_value _ _), run?_of_step? _ (step?_firstName _ _),
          run?_of_step? _ (step?_colon _ _ _)]
      _ = run? (.object (some []) name :: frames, .after value) (membersTokens members ++ rest) :=
        run?_tokens value _ _
      _ = run? (frames, .after (.object ((name, value) :: members))) rest := by
        rw [run?_membersTokens members]
        rfl

/-- The tokens of the items that are left finish the array. -/
theorem run?_itemsTokens : (items : List Json) → (done : List Json) → (item : Json) →
    (frames : List Frame) → (rest : List Token) →
    run? (.array done :: frames, .after item) (itemsTokens items ++ rest) =
      run? (frames, .after (.array (done.reverse ++ item :: items))) rest
  | [], done, item, frames, rest => by
    rw [← List.reverse_cons]
    exact run?_of_step? _ (by simp only [step?])
  | next :: items, done, item, frames, rest => by
    calc run? (.array done :: frames, .after item) (itemsTokens (next :: items) ++ rest)
      _ = run? (.array (item :: done) :: frames, .value)
          (next.tokens ++ (itemsTokens items ++ rest)) := by
        rw [itemsTokens, List.cons_append, List.append_assoc]
        exact run?_of_step? _ (by simp only [step?])
      _ = run? (frames, .after (.array ((item :: done).reverse ++ next :: items))) rest := by
        rw [run?_tokens next, run?_itemsTokens items]
      _ = run? (frames, .after (.array (done.reverse ++ item :: next :: items))) rest := by
        rw [List.reverse_cons, List.append_assoc, List.singleton_append]

/-- The tokens of the members that are left finish the object. -/
theorem run?_membersTokens : (members : List (String × Json)) → (done : List (String × Json)) →
    (name : String) → (value : Json) → (frames : List Frame) → (rest : List Token) →
    run? (.object (some done) (some name) :: frames, .after value)
        (membersTokens members ++ rest) =
      run? (frames, .after (.object (done.reverse ++ (name, value) :: members))) rest
  | [], done, name, value, frames, rest => by
    rw [← List.reverse_cons]
    exact run?_of_step? _ rfl
  | (next, other) :: members, done, name, value, frames, rest => by
    calc run? (.object (some done) (some name) :: frames, .after value)
          (membersTokens ((next, other) :: members) ++ rest)
      _ = run? (.object (some ((name, value) :: done)) (some next) :: frames, .value)
          (other.tokens ++ (membersTokens members ++ rest)) := by
        rw [membersTokens, List.cons_append, List.cons_append, List.cons_append, List.append_assoc]
        rw [run?_of_step? _ rfl, run?_of_step? _ (step?_name _ _ _),
          run?_of_step? _ (step?_colon _ _ _)]
        rfl
      _ = run? (frames,
          .after (.object (((name, value) :: done).reverse ++ (next, other) :: members))) rest := by
        rw [run?_tokens other, run?_membersTokens members]
      _ = run? (frames,
          .after (.object (done.reverse ++ (name, value) :: (next, other) :: members))) rest := by
        rw [List.reverse_cons, List.append_assoc, List.singleton_append]

end

/-- Every well-formed value is read back from its printed form. -/
theorem parse?_print {json : Json} (h : json.WellFormed) : parse? json.print = some json := by
  have htokens := tokens?_chars json h [] (by simp [Numeral.Ends])
  have hrun := run?_tokens json [] []
  simp only [List.append_nil, Token.tokens?_nil, Option.map_some] at htokens hrun
  rw [parse?, print, String.toList_ofList, htokens]
  exact hrun

end Json

end BraceTemplate
