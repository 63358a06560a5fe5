import Mathlib.Order.Bounds.Basic
import BraceTemplate.Proofs.Template.Comments

/-!
# What is cut out of a document

A block ends on the first line up to which as many lines close a block of its kind as open one. What
is cut out then, and which lines are left empty, can be told by line indexes and byte offsets. All
of them are in range and none is inside a character.
-/

namespace BraceTemplate

/-! ### Byte offsets -/

/-- What stands in front of a byte offset and from it on; `none` if the offset is behind the text or
inside a character. -/
def splitAtByte? : (offset : Nat) → List Char → Option (List Char × List Char)
  | 0, cs => some ([], cs)
  | _ + 1, [] => none
  | offset + 1, c :: cs =>
    if c.utf8Size ≤ offset + 1 then
      (splitAtByte? (offset + 1 - c.utf8Size) cs).map fun (before, after) => (c :: before, after)
    else none

/-- The part of a line between two byte offsets; `none` if they come in the wrong order, or if one
of them is behind the line or inside a character. -/
def slice? (start stop : Nat) (line : Line) : Option Line := do
  let (before, _) ← splitAtByte? stop line
  let (_, part) ← splitAtByte? start before
  return part

/-- The byte offset of the first occurrence of a character. -/
def firstOffset? (mark : Char) : List Char → Option Nat
  | [] => none
  | c :: cs => if c = mark then some 0 else (firstOffset? mark cs).map (c.utf8Size + ·)

/-- The byte offset of the last occurrence of a character. -/
def lastOffset? (mark : Char) : List Char → Option Nat
  | [] => none
  | c :: cs =>
    match lastOffset? mark cs with
    | some offset => some (c.utf8Size + offset)
    | none => if c = mark then some 0 else none

/-- A text is split at a byte offset exactly if it is made of two texts of which the first one takes
as many bytes. -/
theorem splitAtByte?_eq_some_iff {offset : Nat} {cs before after : List Char} :
    splitAtByte? offset cs = some (before, after) ↔
      cs = before ++ after ∧ byteSize before = offset := by
  fun_induction splitAtByte? offset cs generalizing before with
  | case1 cs =>
    cases before with
    | nil => simp [eq_comm]
    | cons c before =>
      have hpos := c.utf8Size_pos
      simp
      omega
  | case2 offset =>
    cases before with
    | nil => simp
    | cons c before => simp
  | case3 offset c cs hle ih =>
    cases before with
    | nil => simp
    | cons d before =>
      rw [Option.map_eq_some_iff]
      constructor
      · rintro ⟨⟨before, after⟩, hsplit, heq⟩
        cases heq
        obtain ⟨rfl, hsize⟩ := ih.1 hsplit
        exact ⟨rfl, by rw [byteSize_cons]; omega⟩
      · rintro ⟨hcons, hsize⟩
        obtain ⟨rfl, rfl⟩ := List.cons.inj hcons
        rw [byteSize_cons] at hsize
        exact ⟨(before, after), ih.2 ⟨rfl, by omega⟩, rfl⟩
  | case4 offset c cs hlt =>
    cases before with
    | nil => simp
    | cons d before =>
      refine iff_of_false (by simp) ?_
      rintro ⟨hcons, hsize⟩
      obtain ⟨rfl, -⟩ := List.cons.inj hcons
      rw [byteSize_cons] at hsize
      omega

/-- A part of a line lies between the offsets of its ends. -/
theorem slice?_append (before part after : Line) :
    slice? (byteSize before) (byteSize (before ++ part)) (before ++ part ++ after) = some part := by
  have hstop := splitAtByte?_eq_some_iff.2 ⟨(rfl : before ++ part ++ after = _), rfl⟩
  have hstart := splitAtByte?_eq_some_iff.2 ⟨(rfl : before ++ part = _), rfl⟩
  rw [slice?, hstop]
  simp only [bind, Option.bind, hstart]
  rfl

/-- The offset of the first mark is the size of what stands in front of it. -/
theorem firstOffset?_eq (mark : Char) (cs : List Char) :
    firstOffset? mark cs = (splitFirst? mark cs).map fun split => byteSize split.1 := by
  induction cs with
  | nil => rfl
  | cons c cs ih =>
    rw [firstOffset?, splitFirst?]
    split
    · rfl
    · rw [ih, Option.map_map, Option.map_map]
      rfl

/-- The offset of the last mark is the size of what stands in front of it. -/
theorem lastOffset?_eq (mark : Char) (cs : List Char) :
    lastOffset? mark cs = (splitLast? mark cs).map fun split => byteSize split.1 := by
  induction cs with
  | nil => rfl
  | cons c cs ih =>
    rw [lastOffset?, splitLast?, ih]
    cases splitLast? mark cs with
    | none =>
      simp only [Option.map_none]
      split <;> rfl
    | some split => rfl

/-- The last mark is sought in the second of two texts, and in the first one only if it is not
there. -/
theorem lastOffset?_append (mark : Char) (before cs : List Char) :
    lastOffset? mark (before ++ cs) =
      match lastOffset? mark cs with
      | some offset => some (byteSize before + offset)
      | none => lastOffset? mark before := by
  induction before with
  | nil =>
    rw [List.nil_append]
    cases lastOffset? mark cs <;> simp [lastOffset?]
  | cons c before ih =>
    rw [List.cons_append, lastOffset?, ih]
    cases lastOffset? mark cs with
    | none => rw [lastOffset?]
    | some offset => simp only [byteSize_cons, Nat.add_assoc]

/-- A mark that is found stands in the text. -/
theorem lastOffset?_lt {mark : Char} {cs : List Char} {offset : Nat}
    (h : lastOffset? mark cs = some offset) : offset < byteSize cs := by
  rw [lastOffset?_eq] at h
  obtain ⟨⟨before, after⟩, hsplit, rfl⟩ := Option.map_eq_some_iff.1 h
  have hpos := mark.utf8Size_pos
  rw [eq_of_splitLast? hsplit, byteSize_append, byteSize_cons]
  dsimp only
  omega

/-! ### Bodies that are parts of a line -/

/-- The body of a block that ends on the line on which it opens, by byte offsets: what stands
between the first closing and the last opening brace, if they come in this order. -/
def inlineSlice? (line : Line) : Option (List Line) :=
  match firstOffset? '\x7d' line, lastOffset? '\x7b' line with
  | some opening, some closing =>
    if opening < closing then (slice? (opening + 1) closing line).map fun body => [body]
    else some []
  | _, _ => some []

/-- The part of a closing line that belongs to the body, by byte offsets: what stands in front of
its last opening brace. -/
def closingSlice? (line : Line) : Option Line :=
  slice? 0 ((lastOffset? '\x7b' line).getD 0) line

/-- The body within a line, cut out by byte offsets, is the one cut out by characters, and no offset
is ever out of range or inside a character. -/
theorem inlineSlice?_eq (line : Line) : inlineSlice? line = some (inlineBody line) := by
  rw [inlineSlice?, inlineBody, firstOffset?_eq]
  cases hfirst : splitFirst? '\x7d' line with
  | none => rfl
  | some split =>
    obtain ⟨before, rest⟩ := split
    have hline : line = before ++ ['\x7d'] ++ rest := by
      rw [List.append_assoc]
      exact eq_of_splitFirst? hfirst
    have hopening : byteSize before + 1 = byteSize (before ++ ['\x7d']) := by
      rw [byteSize_append]
      rfl
    simp only [Option.map_some]
    cases hlast : splitLast? '\x7b' rest with
    | some split =>
      obtain ⟨body, after⟩ := split
      have hclosing : lastOffset? '\x7b' line = some (byteSize (before ++ ['\x7d'] ++ body)) := by
        rw [hline, lastOffset?_append, lastOffset?_eq, hlast, byteSize_append _ body]
        rfl
      have hslice := slice?_append (before ++ ['\x7d']) body ('\x7b' :: after)
      rw [List.append_assoc _ body, ← eq_of_splitLast? hlast, ← hline, ← hopening] at hslice
      have hlt : byteSize before < byteSize (before ++ ['\x7d'] ++ body) := by
        rw [byteSize_append, ← hopening]
        omega
      simp only [hclosing, if_pos hlt, hslice, Option.map_some]
    | none =>
      have hclosing : lastOffset? '\x7b' line = lastOffset? '\x7b' (before ++ ['\x7d']) := by
        rw [hline, lastOffset?_append, lastOffset?_eq _ rest, hlast]
        rfl
      rw [hclosing]
      cases hoffset : lastOffset? '\x7b' (before ++ ['\x7d']) with
      | none => rfl
      | some closing =>
        have hlt := lastOffset?_lt hoffset
        rw [← hopening] at hlt
        exact if_neg (by omega)

/-- The part of a closing line, cut out by byte offsets, is the one cut out by characters. -/
theorem closingSlice?_eq (line : Line) : closingSlice? line = some (closingPart line) := by
  rw [closingSlice?, closingPart, lastOffset?_eq]
  cases hlast : splitLast? '\x7b' line with
  | none => exact slice?_append [] [] line
  | some split =>
    obtain ⟨body, after⟩ := split
    have hslice := slice?_append [] body ('\x7b' :: after)
    rwa [List.nil_append, ← eq_of_splitLast? hlast] at hslice

/-! ### The end of a block -/

/-- Up to line `n` as many lines close a block of a kind as open one, if blocks are open in front of
the first line. -/
def CountsMeet (kind : BlockKind) (depth : Nat) (lines : List Line) (n : Nat) : Prop :=
  n < lines.length ∧
    (lines.take (n + 1)).countP (closes kind) = depth + (lines.take (n + 1)).countP (opens kind)

/-- The block that opens on line `start` ends on line `last`: it is the first one such that among
the lines from `start` to it as many contain a close marker of the kind as contain an open
marker. -/
def EndsOn (kind : BlockKind) (lines : List Line) (start last : Nat) : Prop :=
  IsLeast {n | start ≤ n ∧ n < lines.length ∧
    ((lines.take (n + 1)).drop start).countP (closes kind) =
      ((lines.take (n + 1)).drop start).countP (opens kind)} last

/-- A count over the first lines is that of the first one and that of the others. -/
theorem countP_take_succ (p : Line → Bool) (line : Line) (rest : List Line) (n : Nat) :
    ((line :: rest).take (n + 1)).countP p = (p line).toNat + (rest.take n).countP p := by
  rw [List.take_succ_cons, List.countP_cons, Nat.add_comm]
  cases p line <;> rfl

/-- The counts meet on the first line if it closes as many blocks as are open with it. -/
theorem countsMeet_zero {kind : BlockKind} {depth : Nat} {line : Line} {rest : List Line} :
    CountsMeet kind depth (line :: rest) 0 ↔
      (closes kind line).toNat = depth + (opens kind line).toNat := by
  rw [CountsMeet, countP_take_succ, countP_take_succ]
  simp

/-- Behind the first line the counts go on with what it leaves open. -/
theorem countsMeet_succ {kind : BlockKind} {depth next n : Nat} {line : Line} {rest : List Line}
    (h : next + (closes kind line).toNat = depth + (opens kind line).toNat) :
    CountsMeet kind depth (line :: rest) (n + 1) ↔ CountsMeet kind next rest n := by
  rw [CountsMeet, CountsMeet, countP_take_succ, countP_take_succ, List.length_cons]
  omega

/-- A block is open behind a line unless the counts meet there. -/
theorem depthAfter?_cases {kind : BlockKind} {depth : Nat} {line : Line}
    (hopen : depth = 0 → opens kind line = true) :
    (depthAfter? kind depth line = none ∧
      (closes kind line).toNat = depth + (opens kind line).toNat) ∨
      ∃ next, depthAfter? kind depth line = some next ∧ 0 < next ∧
        next + (closes kind line).toNat = depth + (opens kind line).toNat := by
  unfold depthAfter?
  dsimp only
  cases hcloses : closes kind line <;> cases hopens : opens kind line
  · have hdepth : depth ≠ 0 := fun hzero => by simp [hopen hzero] at hopens
    exact .inr ⟨depth, rfl, by omega, rfl⟩
  · exact .inr ⟨depth + 1, rfl, by omega, rfl⟩
  · have hdepth : depth ≠ 0 := fun hzero => by simp [hopen hzero] at hopens
    by_cases hle : depth ≤ 1
    · exact .inl ⟨by simp [hle], by simp; omega⟩
    · exact .inr ⟨depth - 1, by simp [hle], by omega, by simp; omega⟩
  · by_cases hle : depth = 0
    · exact .inl ⟨by simp [hle], by simp [hle]⟩
    · exact .inr ⟨depth, by simp [hle], by omega, rfl⟩

/-- The scan for the end of a block finds the first line at which the counts meet. -/
theorem endDistance?_isLeast {kind : BlockKind} {depth : Nat} {lines : List Line}
    (hopen : depth = 0 → ∀ line ∈ lines.head?, opens kind line = true) :
    (∀ distance, endDistance? kind depth lines = some distance →
      IsLeast {n | CountsMeet kind depth lines n} distance) ∧
    (endDistance? kind depth lines = none → ∀ n, ¬CountsMeet kind depth lines n) := by
  induction lines generalizing depth with
  | nil =>
    exact ⟨fun distance h => by simp [endDistance?] at h, fun _ n h => by simp [CountsMeet] at h⟩
  | cons line rest ih =>
    rw [endDistance?_cons]
    rcases depthAfter?_cases fun hzero => hopen hzero line rfl with
      ⟨hnone, hmeet⟩ | ⟨next, hnext, hpos, hcount⟩
    · rw [hnone]
      refine ⟨fun distance h => ?_, fun h => by cases h⟩
      cases h
      exact ⟨countsMeet_zero.2 hmeet, fun n _ => Nat.zero_le n⟩
    · rw [hnext]
      obtain ⟨hsome, hnone⟩ := ih fun hzero => absurd hzero (Nat.ne_of_gt hpos)
      have hfirst : ¬CountsMeet kind depth (line :: rest) 0 := by
        rw [countsMeet_zero]
        omega
      refine ⟨fun distance h => ?_, fun h n hmeet => ?_⟩
      · obtain ⟨further, hfurther, rfl⟩ := Option.map_eq_some_iff.1 h
        obtain ⟨hmeet, hleast⟩ := hsome further hfurther
        refine ⟨(countsMeet_succ hcount).2 hmeet, fun n hn => ?_⟩
        cases n with
        | zero => exact absurd hn hfirst
        | succ n => exact Nat.succ_le_succ (hleast ((countsMeet_succ hcount).1 hn))
      · cases n with
        | zero => exact hfirst hmeet
        | succ n =>
          exact hnone (Option.map_eq_none_iff.1 h) n ((countsMeet_succ hcount).1 hmeet)

/-! ### Blocks in a document -/

/-- The lines from one index up to another one; `none` if they come in the wrong order or if one of
them is out of range. -/
def linesBetween? (start stop : Nat) (lines : List Line) : Option (List Line) :=
  if start ≤ stop ∧ stop ≤ lines.length then some ((lines.take stop).drop start) else none

/-- The lines with those from one index to another one left empty; `none` if the indexes come in the
wrong order or if one of them is out of range. -/
def emptied? (first last : Nat) (lines : List Line) : Option (List Line) :=
  if first ≤ last ∧ last < lines.length then
    some (lines.take first ++ List.replicate (last + 1 - first) [] ++ lines.drop (last + 1))
  else none

/-- The body of a block that opens on line `start` and ends on line `last`: a part of the line, a
part of the next line, or all lines strictly between. There is none if an index or an offset is out
of range or inside a character. -/
def bodyOf? (lines : List Line) (start last : Nat) : Option (List Line) :=
  if last = start then lines[start]?.bind inlineSlice?
  else if last = start + 1 then (lines[last]?.bind closingSlice?).map fun body => [body]
  else linesBetween? (start + 1) last lines

section Document

variable {kind : BlockKind} {lines : List Line} {start : Nat} {line : Line}

/-- From a line on, the lines are that line and those behind it. -/
theorem drop_eq_cons (hline : lines[start]? = some line) :
    lines.drop start = line :: lines.drop (start + 1) := by
  obtain ⟨hlt, rfl⟩ := List.getElem?_eq_some_iff.1 hline
  exact List.drop_eq_getElem_cons hlt

/-- The counts meet in a document where they meet in the lines from the opening one on. -/
theorem countsMeet_drop (distance : Nat) :
    CountsMeet kind 0 (lines.drop start) distance ↔
      start ≤ start + distance ∧ start + distance < lines.length ∧
        ((lines.take (start + distance + 1)).drop start).countP (closes kind) =
          ((lines.take (start + distance + 1)).drop start).countP (opens kind) := by
  have htake : (lines.take (start + distance + 1)).drop start =
      (lines.drop start).take (distance + 1) := by
    rw [List.drop_take]
    congr 1
    omega
  rw [CountsMeet, htake, List.length_drop, Nat.zero_add]
  simp only [Nat.le_add_right, true_and]
  exact and_congr_left' (by omega)

/-- A block ends so many lines further on as the counts need at least to meet. -/
theorem endsOn_add_iff (distance : Nat) :
    EndsOn kind lines start (start + distance) ↔
      IsLeast {n | CountsMeet kind 0 (lines.drop start) n} distance := by
  constructor
  · rintro ⟨hmeet, hleast⟩
    refine ⟨(countsMeet_drop distance).2 hmeet, fun n hn => ?_⟩
    exact Nat.le_of_add_le_add_left (hleast ((countsMeet_drop n).1 hn))
  · rintro ⟨hmeet, hleast⟩
    refine ⟨(countsMeet_drop distance).1 hmeet, fun n hn => ?_⟩
    obtain ⟨further, rfl⟩ := Nat.exists_eq_add_of_le hn.1
    exact Nat.add_le_add_left (hleast ((countsMeet_drop further).2 hn)) start

/-- Whether a block has an end, and on which line, is what the scan from its opening line on
tells. -/
theorem endsOn_iff (hline : lines[start]? = some line) (hopens : opens kind line = true)
    (last : Nat) :
    EndsOn kind lines start last ↔
      ∃ distance, endDistance? kind 0 (line :: lines.drop (start + 1)) = some distance ∧
        last = start + distance := by
  rw [← drop_eq_cons hline]
  have hhead : (0 = 0 → ∀ first ∈ (lines.drop start).head?, opens kind first = true) := by
    intro _ first hfirst
    rw [drop_eq_cons hline, List.head?_cons, Option.mem_some_iff] at hfirst
    rwa [← hfirst]
  obtain ⟨hsome, hnone⟩ := endDistance?_isLeast hhead
  constructor
  · intro hends
    obtain ⟨distance, rfl⟩ := Nat.exists_eq_add_of_le hends.1.1
    have hleast := (endsOn_add_iff distance).1 hends
    cases hdistance : endDistance? kind 0 (lines.drop start) with
    | none => exact absurd hleast.1 (hnone hdistance distance)
    | some found => exact ⟨found, rfl, by rw [hleast.unique (hsome found hdistance)]⟩
  · rintro ⟨distance, hdistance, rfl⟩
    exact (endsOn_add_iff distance).2 (hsome distance hdistance)

/-- The body is where the end of the block says. -/
theorem bodyOf?_eq_body {distance : Nat} (hline : lines[start]? = some line)
    (hdistance : endDistance? kind 0 (line :: lines.drop (start + 1)) = some distance) :
    bodyOf? lines start (start + distance) =
      some (cutBlock kind line (lines.drop (start + 1))).body := by
  have hlt := endDistance?_lt_length hdistance
  rw [List.length_cons, List.length_drop] at hlt
  have hstart := (List.getElem?_eq_some_iff.1 hline).1
  unfold bodyOf? cutBlock
  match distance with
  | 0 =>
    rw [if_pos (Nat.add_zero start), hline, Option.bind_some, inlineSlice?_eq]
    simp only [hdistance]
  | 1 =>
    have hnext : lines[start + 1]? = (lines.drop (start + 1)).head? := by
      rw [List.head?_drop]
    obtain ⟨next, rest, hrest⟩ := List.exists_cons_of_length_pos
      (by rw [List.length_drop]; omega : 0 < (lines.drop (start + 1)).length)
    rw [if_neg (by omega), if_pos rfl, hnext]
    simp only [hdistance]
    rw [hrest, List.head?_cons, Option.bind_some, closingSlice?_eq]
    rfl
  | further + 2 =>
    rw [if_neg (by omega), if_neg (by omega), linesBetween?, if_pos (by omega), List.drop_take]
    simp only [hdistance]
    congr 2
    omega

/-- The lines of the block are left empty, and no others are changed. -/
theorem emptied?_eq_rest {distance : Nat} (hline : lines[start]? = some line)
    (hdistance : endDistance? kind 0 (line :: lines.drop (start + 1)) = some distance) :
    emptied? start (start + distance) lines =
      some (lines.take start ++ [] :: (cutBlock kind line (lines.drop (start + 1))).rest) := by
  have hlt := endDistance?_lt_length hdistance
  rw [List.length_cons, List.length_drop] at hlt
  have hstart := (List.getElem?_eq_some_iff.1 hline).1
  have hcount : start + distance + 1 - start = distance + 1 := by omega
  have hrest : (cutBlock kind line (lines.drop (start + 1))).rest =
      List.replicate distance [] ++ (lines.drop (start + 1)).drop distance := by
    unfold cutBlock
    match distance with
    | 0 | 1 | further + 2 => simp [hdistance]
  rw [emptied?, if_pos (by omega), hrest, hcount, List.replicate_succ, List.append_assoc,
    List.drop_drop, List.cons_append]
  congr 5
  omega

/-- A block without an end takes the lines up to the end of the document. -/
theorem emptied?_eq_rest_of_none (hline : lines[start]? = some line)
    (hdistance : endDistance? kind 0 (line :: lines.drop (start + 1)) = none) :
    emptied? start (lines.length - 1) lines =
      some (lines.take start ++ [] :: (cutBlock kind line (lines.drop (start + 1))).rest) := by
  have hstart := (List.getElem?_eq_some_iff.1 hline).1
  have hcount : lines.length - 1 + 1 - start = lines.length - (start + 1) + 1 := by omega
  have hrest : (cutBlock kind line (lines.drop (start + 1))).rest =
      List.replicate (lines.length - (start + 1)) [] := by
    simp [cutBlock, hdistance]
  rw [emptied?, if_pos (by omega), hrest, hcount, List.replicate_succ,
    List.drop_eq_nil_of_le (by omega), List.append_nil]

/-- Cutting out the block that opens on line `start`. If it ends on line `last`, its body is the one
that the indexes and offsets tell, which are all in range and between characters; the lines from
`start` to `last` are left empty, all others stay, and there is no warning. If it has no end, its
body is all lines behind `start`, all lines from `start` on are left empty, the others stay, and
there is one warning more, which names the line. -/
theorem cutBlock_exact (hline : lines[start]? = some line) (hopens : opens kind line = true)
    (template : Template) :
    let cut := cutBlock kind line (lines.drop (start + 1))
    let left := lines.take start ++ [] :: cut.rest
    let noted := template.noteCut kind (start + 1) cut
    (∀ last, EndsOn kind lines start last →
      bodyOf? lines start last = some cut.body ∧ emptied? start last lines = some left ∧
        noted = template) ∧
    ((∀ last, ¬EndsOn kind lines start last) →
      linesBetween? (start + 1) lines.length lines = some cut.body ∧
        emptied? start (lines.length - 1) lines = some left ∧
        noted = { template with
          ownWarnings := template.ownWarnings ++ [.unclosedBlock kind (start + 1)] }) := by
  intro cut left noted
  refine ⟨fun last hends => ?_, fun hnever => ?_⟩
  · obtain ⟨distance, hdistance, rfl⟩ := (endsOn_iff hline hopens last).1 hends
    refine ⟨bodyOf?_eq_body hline hdistance, emptied?_eq_rest hline hdistance, ?_⟩
    have hclosed : cut.closed = true := by
      simp only [cut, cutBlock, hdistance]
      split <;> first | rfl | contradiction
    simp only [noted, Template.noteCut, hclosed, if_true]
  · have hnone : endDistance? kind 0 (line :: lines.drop (start + 1)) = none := by
      rw [Option.eq_none_iff_forall_ne_some]
      exact fun distance hdistance =>
        hnever _ ((endsOn_iff hline hopens _).2 ⟨distance, hdistance, rfl⟩)
    have hstart := (List.getElem?_eq_some_iff.1 hline).1
    refine ⟨?_, emptied?_eq_rest_of_none hline hnone, ?_⟩
    · rw [linesBetween?, if_pos (by omega), List.take_length]
      simp only [cut, cutBlock, hnone]
    · have hclosed : cut.closed = false := by simp only [cut, cutBlock, hnone]
      simp only [noted, Template.noteCut, hclosed, Bool.false_eq_true, if_false]

end Document

/-- A document with a conditional around another one, a repetition on one line between characters of
several bytes, and a comment without an end. -/
theorem cutBlock_exact_nested :
    let lines : List Line :=
      ["\x7bif a\x7dü\n".toList, "\x7bif b\x7d\n".toList, "ß\x7b/if\x7d\n".toList,
      "\x7b/if\x7d\n".toList, "é\x7bforeach c\x7d—\x7b/foreach\x7d\n".toList, "\x7b* œ\n".toList]
    (EndsOn .conditional lines 0 3 ∧
      bodyOf? lines 0 3 = some (cutBlock .conditional lines[0] (lines.drop 1)).body ∧
      (cutBlock .conditional lines[0] (lines.drop 1)).body = [lines[1], lines[2]]) ∧
    (EndsOn .repetition lines 4 4 ∧
      bodyOf? lines 4 4 = some (cutBlock .repetition lines[4] (lines.drop 5)).body ∧
      (cutBlock .repetition lines[4] (lines.drop 5)).body = ["—".toList]) ∧
    (∀ last, ¬EndsOn .comment lines 5 last) ∧
      ((Template.empty "page").noteCut .comment 6 (cutBlock .comment lines[5] [])).ownWarnings =
        [.unclosedBlock .comment 6] := by
  intro lines
  have houter : EndsOn .conditional lines 0 3 :=
    (endsOn_iff rfl (by decide) 3).2 ⟨3, by decide, rfl⟩
  have hsingle : EndsOn .repetition lines 4 4 :=
    (endsOn_iff rfl (by decide) 4).2 ⟨0, by decide, rfl⟩
  have hnever : ∀ last, ¬EndsOn .comment lines 5 last := by
    intro last hends
    obtain ⟨distance, hdistance, -⟩ := (endsOn_iff rfl (by decide) last).1 hends
    have hnone : endDistance? .comment 0 (lines[5] :: lines.drop 6) = none := by decide
    exact absurd (hnone.symm.trans hdistance) (by simp)
  have hopens : opens .conditional lines[0] = true ∧ opens .repetition lines[4] = true ∧
      opens .comment lines[5] = true := by decide
  refine ⟨⟨houter, ?_, by decide⟩, ⟨hsingle, ?_, by decide⟩, hnever, ?_⟩
  · exact ((cutBlock_exact rfl hopens.1 (.empty "page")).1 3 houter).1
  · exact ((cutBlock_exact rfl hopens.2.1 (.empty "page")).1 4 hsingle).1
  · exact congrArg (fun template => template.ownWarnings)
      ((cutBlock_exact rfl hopens.2.2 (.empty "page")).2 hnever).2.2

end BraceTemplate
