import Mathlib.Data.String.Basic
import BraceTemplate.Proofs.Expr.Pointing

/-!
# Scans tile a source

Scanning goes through a source from its beginning to its end. Each scan begins at the offset at
which the one before it stops and takes up some more of the text, a run that is no literal included;
trimmed, what it takes up is the text of its lexeme. Where scanning ends only blanks are left.
-/

namespace BraceTemplate

/-! ### Offsets in a string -/

/-- The part of a source between two byte offsets. -/
def slice (source : String) (start stop : Nat) : List Char :=
  (String.Pos.Raw.extract source ⟨start⟩ ⟨stop⟩).toList

/-- The size of a text in bytes is that of the characters it is made of. -/
theorem utf8Len_eq_byteSize (cs : List Char) : String.utf8Len cs = byteSize cs := by
  rw [byteSize_eq_utf8ByteSize, String.utf8ByteSize_ofList]

/-- What stands between two texts is the slice from the end of the first one to the beginning of the
other. -/
theorem slice_eq {source : String} {front middle back : List Char}
    (h : source.toList = front ++ middle ++ back) :
    slice source (byteSize front) (byteSize (front ++ middle)) = middle := by
  have hvalid := String.extract_of_valid front middle back
  rw [← h, String.ofList_toList] at hvalid
  rw [slice, byteSize_append, ← utf8Len_eq_byteSize, ← utf8Len_eq_byteSize, hvalid,
    String.toList_ofList]

/-- A source can be cut at an offset that is the size of a text in front. -/
theorem isValid_byteSize {source : String} {front back : List Char}
    (h : source.toList = front ++ back) : String.Pos.Raw.IsValid source ⟨byteSize front⟩ := by
  refine String.Pos.Raw.isValid_iff_exists_append.2
    ⟨String.ofList front, String.ofList back, ?_, ?_⟩
  · rw [← String.ofList_append, ← h, String.ofList_toList]
  · rw [String.rawEndPos_ofList, utf8Len_eq_byteSize]

/-! ### Tilings -/

/-- A text is one of those in which a lexeme is written: a spelling of a token, or the run that is
reported. -/
def Lexeme.IsWritten : Lexeme → List Char → Prop
  | .token found, text => text ∈ found.spellings
  | .invalid run _, text => text = run.toList

/-- What a lexeme is read from is, without blanks around it, one of its spellings or its run. -/
theorem Lexeme.ReadFrom.isWritten_trim {lexeme : Lexeme} {text : List Char}
    (h : lexeme.ReadFrom text) : lexeme.IsWritten (trim text) := by
  cases h with
  | @symbol token blanks spelling hblanks hspelling hliteral =>
    have hsolid : ∀ c ∈ spelling, isBlank c = false := fun c hc =>
      Token.isBlank_eq_false_of_isSymbolChar
        ((Token.isSymbolChar_of_mem_spellings hspelling hliteral).2 c hc)
    have htrim := @Token.trim_append blanks spelling [] hblanks (by simp) hsolid
    rw [List.append_nil] at htrim
    rw [htrim]
    exact hspelling
  | literal hword => simp [IsWritten, Token.spellings]
  | invalid hnonempty hword => simp [IsWritten]

namespace Token

/-- Scans that follow each other behind a text without gaps: each one takes up some more of what is
behind that text, and `rest` is left. -/
inductive Tiles (rest : List Char) : (front cs : List Char) → List Scanned → Prop
  | done (front : List Char) : Tiles rest front rest []
  | step {front middle cs : List Char} {scanned : List Scanned} (lexeme : Lexeme)
      (hne : middle ≠ [])
      (htail : Tiles rest (front ++ middle) cs scanned) :
    Tiles rest front (middle ++ cs)
      (⟨byteSize front, lexeme, byteSize (front ++ middle)⟩ :: scanned)

/-- The offsets between scans, that of the first one's beginning included. -/
def offsets (start : Nat) (scanned : List Scanned) : List Nat :=
  start :: scanned.map Scanned.stop

/-- A scan ends at the end of its text. -/
theorem snd_scanFrom (start : Nat) (cs : List Char) :
    (scanFrom start cs).2 = start + byteSize cs := by
  induction hlength : cs.length using Nat.strongRecOn generalizing cs start with
  | ind n ih =>
    subst hlength
    rw [scanFrom]
    split
    · rfl
    · next lexeme rest hread =>
      obtain ⟨middle, -, rfl, -⟩ := exists_readFrom_of_lexeme? hread
      have hrest := ih rest.length (length_lexeme?_lt hread)
        (start + (byteSize (middle ++ rest) - byteSize rest)) rest rfl
      rw [byteSize_append] at hrest ⊢
      simp only [hrest]
      omega

/-- Scanning behind a text stops where only blanks are left. -/
theorem exists_tiles_scanFrom (front cs : List Char) :
    ∃ rest, (∀ c ∈ rest, isBlank c = true) ∧
      Tiles rest front cs (scanFrom (byteSize front) cs).1 := by
  induction hlength : cs.length using Nat.strongRecOn generalizing front cs with
  | ind n ih =>
    subst hlength
    rcases lexeme?_cases cs with ⟨hnone, hblank⟩ | ⟨lexeme, behind, hread, -⟩
    · rw [scanFrom_of_none hnone]
      exact ⟨cs, hblank, .done front⟩
    · obtain ⟨middle, hne, rfl, -⟩ := exists_readFrom_of_lexeme? hread
      obtain ⟨rest, hblank, htail⟩ :=
        ih behind.length (length_lexeme?_lt hread) (front ++ middle) behind rfl
      have hstop : byteSize front + (byteSize (middle ++ behind) - byteSize behind) =
          byteSize (front ++ middle) := by
        rw [byteSize_append, byteSize_append]
        omega
      rw [scanFrom_of_some hread, hstop]
      exact ⟨rest, hblank, .step lexeme hne htail⟩

namespace Tiles

variable {rest front cs : List Char} {scanned : List Scanned}

/-- Every scan ends behind its beginning. -/
theorem isChain_offsets (h : Tiles rest front cs scanned) :
    (offsets (byteSize front) scanned).IsChain (· < ·) := by
  induction h with
  | done front => simp [offsets]
  | @step front middle cs scanned lexeme hne htail ih =>
    refine List.isChain_cons_cons.2 ⟨?_, ih⟩
    have hpos : byteSize middle ≠ 0 := fun hzero => hne (byteSize_eq_zero_iff.1 hzero)
    show byteSize front < byteSize (front ++ middle)
    rw [byteSize_append]
    omega

/-- Every scan begins where the one before it ends. -/
theorem map_start (h : Tiles rest front cs scanned) :
    scanned.map Scanned.start = (offsets (byteSize front) scanned).dropLast := by
  induction h with
  | done front => rfl
  | step lexeme hne htail ih =>
    rw [offsets, List.map_cons, List.map_cons, List.dropLast_cons_cons]
    exact congrArg _ ih

/-- At every offset between scans the text can be cut, and at the last one `rest` is cut off. -/
theorem exists_eq_append (h : Tiles rest front cs scanned) :
    (∀ offset ∈ offsets (byteSize front) scanned,
      ∃ before after, front ++ cs = before ++ after ∧ offset = byteSize before) ∧
    ∃ before, front ++ cs = before ++ rest ∧
      (offsets (byteSize front) scanned).getLast? = byteSize before := by
  induction h with
  | done front =>
    refine ⟨fun offset hoffset => ⟨front, rest, rfl, ?_⟩, front, rfl, rfl⟩
    simpa [offsets] using hoffset
  | @step front middle cs scanned lexeme hne htail ih =>
    obtain ⟨hoffsets, before, hbefore, hlast⟩ := ih
    rw [List.append_assoc] at hoffsets hbefore
    refine ⟨?_, before, hbefore, ?_⟩
    · rintro offset (- | ⟨-, hoffset⟩)
      · exact ⟨front, middle ++ cs, rfl, rfl⟩
      · exact hoffsets offset hoffset
    · rw [← hlast, offsets, List.map_cons, List.getLast?_cons_cons]
      rfl

/-- There are no more scans than bytes, because every scan takes up one at least. -/
theorem length_add_le (h : Tiles rest front cs scanned) :
    scanned.length + byteSize rest ≤ byteSize cs := by
  induction h with
  | done front => simp
  | @step front middle cs scanned lexeme hne htail ih =>
    have hpos : byteSize middle ≠ 0 := fun hzero => hne (byteSize_eq_zero_iff.1 hzero)
    rw [List.length_cons, byteSize_append]
    omega

end Tiles

/-- Scanning loses nothing and comes to an end. There are no more scans than bytes; the offsets
between them ascend, each scan leads from one to the next, and the source can be cut at all of them.
Cut out and trimmed, the text of a scan is the literal, the symbol or the run that is found there.
Behind the last scan there are only blanks, and scanning ends at the end of the source. -/
theorem scan_lossless (source : String) :
    (scan source).length ≤ source.utf8ByteSize ∧ (offsets 0 (scan source)).IsChain (· < ·) ∧
      (scan source).map Scanned.start = (offsets 0 (scan source)).dropLast ∧
      (∀ offset ∈ offsets 0 (scan source), String.Pos.Raw.IsValid source ⟨offset⟩) ∧
      (∀ found ∈ scan source, found.lexeme.IsWritten (trim (slice source found.start found.stop))) ∧
      (∃ last ∈ (offsets 0 (scan source)).getLast?,
        ∀ c ∈ slice source last source.utf8ByteSize, isBlank c = true) ∧
      (scanFrom 0 source.toList).2 = source.utf8ByteSize := by
  obtain ⟨rest, hblank, htiles⟩ := exists_tiles_scanFrom [] source.toList
  obtain ⟨hcut, before, hbefore, hlast⟩ := htiles.exists_eq_append
  rw [List.nil_append] at hcut hbefore
  have hlength := htiles.length_add_le
  rw [byteSize_toList] at hlength
  refine ⟨Nat.le_of_add_right_le hlength, htiles.isChain_offsets, htiles.map_start,
    fun offset hoffset => ?_, fun found hfound => ?_, ⟨byteSize before, hlast, ?_⟩, ?_⟩
  · obtain ⟨front, back, hsource, rfl⟩ := hcut offset hoffset
    exact isValid_byteSize hsource
  · obtain ⟨front, middle, back, hplace⟩ := exists_inPlace_of_mem_scan hfound
    rw [hplace.start_eq, hplace.stop_eq, slice_eq hplace.source_eq]
    exact hplace.readFrom.isWritten_trim
  · have hsource : source.toList = before ++ rest ++ [] := by rw [hbefore, List.append_nil]
    have hsize := congrArg byteSize hbefore
    rw [byteSize_toList] at hsize
    rw [hsize, slice_eq hsource]
    exact hblank
  · rw [snd_scanFrom, byteSize_toList, Nat.zero_add]

end Token

end BraceTemplate
