/-! The characters with the Unicode property White_Space, and the removal of blank margins. -/

namespace HeaderCodec.Text

/-- First and last code point of every run of white space, in order. -/
def blankRanges : List (Nat × Nat) :=
  [(0x0009, 0x000D), (0x0020, 0x0020), (0x0085, 0x0085), (0x00A0, 0x00A0), (0x1680, 0x1680),
   (0x2000, 0x200A), (0x2028, 0x2029), (0x202F, 0x202F), (0x205F, 0x205F), (0x3000, 0x3000)]

def isBlank (character : Char) : Bool :=
  blankRanges.any fun (first, last) => first ≤ character.toNat && character.toNat ≤ last

def trimChars (characters : List Char) : List Char :=
  ((characters.dropWhile isBlank).reverse.dropWhile isBlank).reverse

def trim (text : String) : String :=
  ((text.dropWhile isBlank).dropEndWhile isBlank).copy

theorem dropWhile_of_run {α : Type} {test : α → Bool} {run rest : List α}
    (inside : run.all test = true) (outside : rest.head?.any test = false) :
    (run ++ rest).dropWhile test = rest := by
  induction run with
  | nil => cases rest <;> simp_all
  | cons first run ih => simp_all

theorem toList_dropWhile (slice : String.Slice) :
    (slice.dropWhile isBlank).copy.toList = slice.copy.toList.dropWhile isBlank := by
  have whole : (slice.takeWhile isBlank).copy ++ (slice.dropWhile isBlank).copy = slice.copy :=
    String.Slice.takeWhile_append_dropWhile
  have run : (slice.takeWhile isBlank).all isBlank = true := String.Slice.all_takeWhile
  have stop : (slice.dropWhile isBlank).startsWith isBlank = false :=
    String.Slice.startsWith_dropWhile
  rw [String.Slice.all_bool_eq] at run
  rw [String.Slice.startsWith_bool_eq_head?] at stop
  rw [← whole, String.toList_append, dropWhile_of_run run stop]

theorem toList_dropEndWhile (slice : String.Slice) :
    (slice.dropEndWhile isBlank).copy.toList =
      (slice.copy.toList.reverse.dropWhile isBlank).reverse := by
  have whole : (slice.dropEndWhile isBlank).copy ++ (slice.takeEndWhile isBlank).copy =
      slice.copy := String.Slice.dropEndWhile_append_takeEndWhile
  have run : (slice.takeEndWhile isBlank).revAll isBlank = true :=
    String.Slice.revAll_takeEndWhile
  have stop : (slice.dropEndWhile isBlank).endsWith isBlank = false :=
    String.Slice.endsWith_dropEndWhile
  rw [String.Slice.revAll_bool_eq, ← List.all_reverse] at run
  rw [String.Slice.endsWith_bool_eq_getLast?, ← List.head?_reverse] at stop
  rw [← whole, String.toList_append, List.reverse_append, dropWhile_of_run run stop,
    List.reverse_reverse]

theorem toList_trim (text : String) : (trim text).toList = trimChars text.toList := by
  have start : text.dropWhile isBlank = text.toSlice.dropWhile isBlank := rfl
  rw [trim, toList_dropEndWhile, start, toList_dropWhile, String.copy_toSlice, trimChars]

theorem trim_eq (text : String) : trim text = String.ofList (trimChars text.toList) := by
  rw [← toList_trim, String.ofList_toList]

end HeaderCodec.Text
