import Mathlib.Algebra.Group.Int.Defs
import Mathlib.Algebra.Group.Nat.Defs
import Mathlib.Data.List.Basic

/-!
# C strings and numbers in text

A C string is the list of its characters, one `Char` for each byte, without the
terminating NUL. `strchr`, `atoi` and `snprintf` follow the C library; `decimal`
is what `%u` prints.
-/

namespace Lprofile.Lib

abbrev CStr := List Char

instance : LawfulBEq CStr := inferInstance

/-- The offset of the first `c` in `s`; `none` is the NULL result. -/
def strchr (s : CStr) (c : Char) : Option Nat := s.idxOf? c

/-- `string::find` of one character, from `pos` on; `none` is `npos`. -/
def find (s : CStr) (c : Char) (pos : Nat) : Option Nat :=
  ((s.drop pos).idxOf? c).map (pos + ·)

/-- `string::substr`. -/
def substr (s : CStr) (pos n : Nat) : CStr := (s.drop pos).take n

/-- `isspace` in the C locale. -/
def isSpace (c : Char) : Bool :=
  c == ' ' || c == '\t' || c == '\n' || c == '\x0b' || c == '\x0c' || c == '\r'

/-- The value of the leading decimal digits, on top of `acc`. -/
def digitsVal (acc : Nat) : CStr → Nat
  | [] => acc
  | c :: cs => if c.isDigit then digitsVal (10 * acc + (c.toNat - '0'.toNat)) cs else acc

/-- `strtol` in base 10: white space, a sign, digits; out of range values saturate. -/
def strtol (s : CStr) : Int :=
  match s.dropWhile isSpace with
  | '-' :: ds => max (-2 ^ 63) (-(digitsVal 0 ds : Int))
  | '+' :: ds => min (2 ^ 63 - 1) (digitsVal 0 ds : Int)
  | ds => min (2 ^ 63 - 1) (digitsVal 0 ds : Int)

/-- `atoi` is `strtol` cut down to an `int`. -/
def atoi (s : CStr) : Int := Int.bmod (strtol s) (2 ^ 32)

/-- What `%u` prints for `n`. -/
def decimal (n : Nat) : CStr := Nat.toDigits 10 n

/-- `strncmp(s, t, n) == 0`. -/
def strncmpEq : Nat → CStr → CStr → Bool
  | 0, _, _ => true
  | _ + 1, [], [] => true
  | n + 1, c :: s, d :: t => c == d && strncmpEq n s t
  | _ + 1, _, _ => false

/-- With room for the terminating NUL of `t`, only `t` itself is equal. -/
theorem strncmpEq_iff {n : Nat} {s t : CStr} (h : t.length < n) :
    strncmpEq n s t = true ↔ s = t := by
  induction n generalizing s t with
  | zero => omega
  | succ n ih =>
    cases s with
    | nil => cases t <;> simp [strncmpEq]
    | cons c s =>
      cases t with
      | nil => simp [strncmpEq]
      | cons d t => simp [strncmpEq, ih (Nat.lt_of_succ_lt_succ h)]

/-- `snprintf` into a buffer of `size` bytes keeps `size - 1` characters. -/
def snprintf (size : Nat) (s : CStr) : CStr := s.take (size - 1)

theorem find_bounds {s : CStr} {c : Char} {pos i : Nat} (h : find s c pos = some i) :
    pos ≤ i ∧ i < s.length := by
  obtain ⟨j, hj, rfl⟩ := Option.map_eq_some_iff.1 h
  have hlt : j < (s.drop pos).length := (List.idxOf?_eq_some_iff.1 hj).1
  rw [List.length_drop] at hlt
  omega

/-- The text around the first `c`. -/
theorem strchr_eq_some {s : CStr} {c : Char} {k : Nat} (h : strchr s c = some k) :
    c ∉ s.take k ∧ s = s.take k ++ c :: s.drop (k + 1) := by
  obtain ⟨hk, hc, hfirst⟩ := List.idxOf?_eq_some_iff.1 h
  refine ⟨fun hmem => ?_, ?_⟩
  · obtain ⟨i, hi, hic⟩ := List.getElem_of_mem hmem
    rw [List.length_take] at hi
    rw [List.getElem_take] at hic
    exact hfirst i (by omega) hic
  · rw [← hc, List.getElem_cons_drop, List.take_append_drop]

theorem decimal_injective : Function.Injective decimal := by
  intro m n h
  have h' := congrArg (fun l => Nat.ofDigitChars 10 l 0) h
  simpa [decimal, Nat.ofDigitChars_ten_toDigits] using h'

theorem length_decimal_le {n k : Nat} (hk : 0 < k) (hn : n < 10 ^ k) : (decimal n).length ≤ k :=
  (Nat.length_toDigits_le_iff (by decide) hk).2 hn

theorem snprintf_of_length_lt {size : Nat} {s : CStr} (h : s.length < size) :
    snprintf size s = s :=
  List.take_of_length_le (by omega)

example : atoi "  -12x".toList = -12 := by decide

end Lprofile.Lib
