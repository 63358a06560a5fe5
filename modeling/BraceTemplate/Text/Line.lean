import BraceTemplate.Text.Blank

/-!
# Lines

Documents are processed line by line. A line is a list of characters that keeps its terminator, so
that the lines of a text put together again are the text. Offsets are counted in bytes of the UTF-8
encoding.
-/

namespace BraceTemplate

/-- One physical line, terminator included. -/
abbrev Line := List Char

/-- The length of a text in bytes of UTF-8. -/
def byteSize : List Char → Nat
  | [] => 0
  | c :: cs => c.utf8Size + byteSize cs

/-- Cuts a text behind every line feed. Only the last line may lack one, and no line is empty. -/
def splitLines : List Char → List Line
  | [] => []
  | c :: cs =>
    if c = '\n' then [c] :: splitLines cs
    else
      match splitLines cs with
      | [] => [[c]]
      | line :: lines => (c :: line) :: lines

/-- Whether `needle` stands somewhere in the text. -/
def occursIn (needle : List Char) : List Char → Bool
  | [] => needle.isEmpty
  | c :: cs => needle.isPrefixOf (c :: cs) || occursIn needle cs

/-- What follows `word` in a text that begins with it. -/
def afterPrefix? : (word : List Char) → List Char → Option (List Char)
  | [], cs => some cs
  | _ :: _, [] => none
  | w :: word, c :: cs => if w = c then afterPrefix? word cs else none

/-- What stands before and behind the first occurrence of `mark`, if there is one. -/
def splitFirst? (mark : Char) : List Char → Option (List Char × List Char)
  | [] => none
  | c :: cs =>
    if c = mark then some ([], cs)
    else (splitFirst? mark cs).map fun (before, after) => (c :: before, after)

/-- What stands before and behind the last occurrence of `mark`, if there is one. -/
def splitLast? (mark : Char) : List Char → Option (List Char × List Char)
  | [] => none
  | c :: cs =>
    match splitLast? mark cs with
    | some (before, after) => some (c :: before, after)
    | none => if c = mark then some ([], cs) else none

/-- The empty text takes no bytes. -/
@[simp] theorem byteSize_nil : byteSize [] = 0 := rfl

/-- The bytes of the first character come on top of those of the others. -/
@[simp] theorem byteSize_cons (c : Char) (cs : List Char) :
    byteSize (c :: cs) = c.utf8Size + byteSize cs := rfl

/-- Sizes in bytes add up. -/
@[simp] theorem byteSize_append (cs ds : List Char) :
    byteSize (cs ++ ds) = byteSize cs + byteSize ds := by
  induction cs with
  | nil => simp
  | cons c cs ih => simp [ih, Nat.add_assoc]

/-- The bytes of a list of characters are those of the string made of it. -/
theorem byteSize_eq_utf8ByteSize (cs : List Char) :
    byteSize cs = (String.ofList cs).utf8ByteSize := by
  induction cs with
  | nil => simp
  | cons c cs ih =>
    have hcons : String.ofList (c :: cs) = String.singleton c ++ String.ofList cs := by
      rw [String.singleton_eq_ofList, ← String.ofList_append]
      rfl
    rw [byteSize_cons, ih, hcons, String.utf8ByteSize_append, String.utf8ByteSize_singleton]

/-- The characters of a string take the bytes of the string. -/
@[simp] theorem byteSize_toList (s : String) : byteSize s.toList = s.utf8ByteSize := by
  rw [byteSize_eq_utf8ByteSize, String.ofList_toList]

/-- Cutting a text into lines loses nothing. -/
theorem flatten_splitLines (cs : List Char) : (splitLines cs).flatten = cs := by
  induction cs with
  | nil => rfl
  | cons c cs ih =>
    unfold splitLines
    split
    · simp [ih]
    · split
      · next h => simp [h] at ih; simp [← ih]
      · next h => simp [h] at ih; simp [← ih]

/-- A text is its prefix and what is left behind it. -/
theorem eq_of_afterPrefix? {word cs rest : List Char} (h : afterPrefix? word cs = some rest) :
    cs = word ++ rest := by
  fun_induction afterPrefix? word cs with
  | case1 => simpa using h
  | case2 => simp at h
  | case3 w word cs ih => simp [ih h]
  | case4 => simp at h

/-- A text that is split at a mark is made of the two parts and the mark. -/
theorem eq_of_splitFirst? {mark : Char} {cs before after : List Char}
    (h : splitFirst? mark cs = some (before, after)) : cs = before ++ mark :: after := by
  induction cs generalizing before with
  | nil => simp [splitFirst?] at h
  | cons c cs ih =>
    unfold splitFirst? at h
    split at h
    · next hc =>
      cases h
      simp [hc]
    · obtain ⟨⟨first, last⟩, hsplit, heq⟩ := Option.map_eq_some_iff.1 h
      cases heq
      simp [ih hsplit]

/-- A text that is split at a mark is made of the two parts and the mark. -/
theorem eq_of_splitLast? {mark : Char} {cs before after : List Char}
    (h : splitLast? mark cs = some (before, after)) : cs = before ++ mark :: after := by
  induction cs generalizing before with
  | nil => simp [splitLast?] at h
  | cons c cs ih =>
    unfold splitLast? at h
    split at h
    · next hsplit =>
      cases h
      simp [ih hsplit]
    · split at h
      · next hc =>
        cases h
        simp [hc]
      · simp at h

end BraceTemplate
