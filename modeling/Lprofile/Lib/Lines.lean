import Lprofile.Lib.Text

/-!
# Text of lines and fields

`readNat` reads back what `decimal` prints, `linesOf` takes a text apart at its
newlines. A line is made of fields with a separator between them, and comes apart
again with `List.splitOn` (`List.splitOn_intercalate`).
-/

namespace Lprofile.Lib

/-- The number a field spells. -/
def readNat (s : CStr) : Nat := Nat.ofDigitChars 10 s 0

/-- The lines of a text; each ends with a newline. -/
def linesOf (text : CStr) : List CStr := (text.splitOn '\n').dropLast

theorem readNat_decimal (n : Nat) : readNat (decimal n) = n := Nat.ofDigitChars_ten_toDigits

/-- There are only digits in a number. -/
theorem notMem_decimal {c : Char} (hc : c.isDigit = false) (n : Nat) : c ∉ decimal n := by
  intro h
  rw [Nat.isDigit_of_mem_toDigits (by decide) (by decide) h] at hc
  cases hc

theorem notMem_intercalate {c sep : Char} (hc : c ≠ sep) : ∀ {ls : List CStr},
    (∀ l ∈ ls, c ∉ l) → c ∉ [sep].intercalate ls
  | [], _ => by simp
  | [l], h => by simpa using h
  | l :: l' :: ls, h => by
    obtain ⟨hl, hls⟩ := List.forall_mem_cons.1 h
    rw [List.intercalate_cons_cons]
    simp [hl, hc, notMem_intercalate hc hls]

/-- Lines without a newline in them come apart again. -/
theorem linesOf_flatMap {ls : List CStr} (h : ∀ l ∈ ls, '\n' ∉ l) :
    linesOf (ls.flatMap (· ++ ['\n'])) = ls := by
  have hsplit : (ls.flatMap (· ++ ['\n'])).splitOn '\n' = ls ++ [[]] := by
    induction ls with
    | nil => rfl
    | cons l ls ih =>
      obtain ⟨hl, hls⟩ := List.forall_mem_cons.1 h
      rw [List.flatMap_cons, List.append_assoc, List.singleton_append,
        List.splitOn_append_cons_self_of_not_mem hl, ih hls]
      rfl
  rw [linesOf, hsplit, List.dropLast_concat]

/-- A reader that undoes a printer undoes it on a list. -/
theorem mapM_map_of_inverse {α β : Type} {print : α → β} {read : β → Option α}
    (h : ∀ a, read (print a) = some a) (as : List α) : (as.map print).mapM read = some as := by
  induction as with
  | nil => rfl
  | cons a as ih =>
    rw [List.map_cons, List.mapM_cons, h, ih]
    rfl

end Lprofile.Lib
