import Lprofile.Lib.Bytes
import Lprofile.Lib.Text

/-!
# Files read and written through stdio

`InFile` is a file open for reading: what is left of it, and the end-of-file
indicator, which a call sets only when it asks for more than is there. `fgets`
and `fread` follow the C library. `fgetsAll` collects what the usual
`while (!feof(f))` loop sees; its fuel is the file's length plus one
(`fgetsLoop_fuel`: more changes nothing).

`writeAt` is a write through a descriptor opened without `O_APPEND`.
-/

namespace Lprofile.Lib

structure InFile (α : Type) where
  rest : List α
  eof : Bool
  deriving DecidableEq, Repr

/-- Characters taken by `fgets`, what remains, and whether the end was hit. -/
def takeLine : Nat → CStr → CStr × CStr × Bool
  | 0, cs => ([], cs, false)
  | _ + 1, [] => ([], [], true)
  | k + 1, c :: cs =>
    if c = '\n' then ([c], cs, false)
    else
      let r := takeLine k cs
      (c :: r.1, r.2.1, r.2.2)

/-- `fgets` with a buffer of `size` bytes; `none` is the NULL result. -/
def fgets (size : Nat) (f : InFile Char) : Option CStr × InFile Char :=
  let r := takeLine (size - 1) f.rest
  (if r.1 = [] then none else some r.1, ⟨r.2.1, f.eof || r.2.2⟩)

/-- The strings a `while (!feof(f)) if (fgets(..)) ..` loop gets to see. -/
def fgetsLoop (size : Nat) : Nat → InFile Char → List CStr
  | 0, _ => []
  | fuel + 1, f =>
    if f.eof then []
    else
      match fgets size f with
      | (none, f') => fgetsLoop size fuel f'
      | (some l, f') => l :: fgetsLoop size fuel f'

def fgetsAll (size : Nat) (text : CStr) : List CStr :=
  fgetsLoop size (text.length + 1) ⟨text, false⟩

/-- `fread` of one item of `size` bytes; a short item is consumed and lost. -/
def fread {α : Type} (size : Nat) (f : InFile α) : Option (List α) × InFile α :=
  if size ≤ f.rest.length then (some (f.rest.take size), ⟨f.rest.drop size, f.eof⟩)
  else (none, ⟨[], true⟩)

/-- The bytes of a file after `data` is written at offset `pos`. -/
def writeAt (file : List Byte) (pos : Nat) (data : List Byte) : List Byte :=
  file.take pos ++ List.replicate (pos - file.length) 0 ++ data ++ file.drop (pos + data.length)

theorem writeAt_end (file data : List Byte) : writeAt file file.length data = file ++ data := by
  simp [writeAt]

/-! ## Lines -/

theorem takeLine_line {k : Nat} {l rest : CStr} (hl : '\n' ∉ l) (hk : l.length < k) :
    takeLine k (l ++ '\n' :: rest) = (l ++ ['\n'], rest, false) := by
  induction l generalizing k with
  | nil =>
    obtain ⟨k, rfl⟩ : ∃ j, k = j + 1 := ⟨k - 1, by simp at hk; omega⟩
    simp [takeLine]
  | cons c l ih =>
    obtain ⟨k, rfl⟩ : ∃ j, k = j + 1 := ⟨k - 1, by simp at hk; omega⟩
    simp only [List.mem_cons, not_or] at hl
    have hc : c ≠ '\n' := fun e => hl.1 e.symm
    simp only [List.cons_append, takeLine, hc, ↓reduceIte,
      ih hl.2 (by simp at hk; omega)]

theorem takeLine_full {l rest : CStr} (hl : '\n' ∉ l) :
    takeLine l.length (l ++ rest) = (l, rest, false) := by
  induction l with
  | nil => cases rest <;> rfl
  | cons c l ih =>
    simp only [List.mem_cons, not_or] at hl
    have hc : c ≠ '\n' := fun e => hl.1 e.symm
    simp only [List.length_cons, List.cons_append, takeLine, hc, ↓reduceIte, ih hl.2]

/-- `fgets` splits what is left of the file, and takes something unless it hits the end. -/
theorem takeLine_spec (k : Nat) (cs : CStr) :
    (takeLine k cs).1 ++ (takeLine k cs).2.1 = cs ∧
      ((takeLine k cs).1 = [] → k = 0 ∨ (takeLine k cs).2.2 = true) := by
  induction k generalizing cs with
  | zero => simp [takeLine]
  | succ k ih =>
    cases cs with
    | nil => simp [takeLine]
    | cons c cs =>
      simp only [takeLine]
      split
      · simp
      · simp [(ih cs).1]

theorem length_takeLine_le (k : Nat) (cs : CStr) : (takeLine k cs).1.length ≤ k := by
  induction k generalizing cs with
  | zero => simp [takeLine]
  | succ k ih =>
    cases cs with
    | nil => simp [takeLine]
    | cons c cs =>
      simp only [takeLine]
      split
      · simp
      · simpa using ih cs

theorem fgetsLoop_eof (size fuel : Nat) (cs : CStr) : fgetsLoop size fuel ⟨cs, true⟩ = [] := by
  cases fuel with
  | zero => rfl
  | succ fuel => simp [fgetsLoop]

theorem fgetsLoop_fuel {size : Nat} (hs : 2 ≤ size) :
    ∀ {fuel : Nat} {cs : CStr}, cs.length < fuel →
      fgetsLoop size fuel ⟨cs, false⟩ = fgetsAll size cs := by
  have key : ∀ (fuel fuel' : Nat) (cs : CStr), cs.length < fuel → cs.length < fuel' →
      fgetsLoop size fuel ⟨cs, false⟩ = fgetsLoop size fuel' ⟨cs, false⟩ := by
    intro fuel
    induction fuel with
    | zero => intro _ _ h; omega
    | succ fuel ih =>
      intro fuel' cs h h'
      obtain ⟨fuel', rfl⟩ : ∃ j, fuel' = j + 1 := ⟨fuel' - 1, by omega⟩
      obtain ⟨hsplit, hnil⟩ := takeLine_spec (size - 1) cs
      simp only [fgetsLoop, fgets, Bool.false_eq_true, ↓reduceIte, Bool.false_or]
      generalize takeLine (size - 1) cs = r at hsplit hnil
      obtain ⟨l, cs', e⟩ := r
      simp only at hsplit hnil ⊢
      cases e with
      | true => by_cases hl : l = [] <;> simp [hl, fgetsLoop_eof]
      | false =>
        have hl : l ≠ [] := fun e => by
          rcases hnil e with h0 | h0
          · omega
          · cases h0
        have hlen : 0 < l.length := List.length_pos_iff.2 hl
        have hcs : cs.length = l.length + cs'.length := by rw [← hsplit, List.length_append]
        simp only [hl, ↓reduceIte]
        rw [ih fuel' cs' (by omega) (by omega)]
  intro fuel cs h
  exact key fuel (cs.length + 1) cs h (Nat.lt_succ_self _)

theorem fgetsAll_nil (size : Nat) : fgetsAll size [] = [] := by
  cases hk : size - 1 with
  | zero => simp [fgetsAll, fgetsLoop, fgets, takeLine, hk]
  | succ k => simp [fgetsAll, fgetsLoop, fgets, takeLine, hk]

/-- A line that fits the buffer with its newline is read whole. -/
theorem fgetsAll_line {size : Nat} {l rest : CStr} (hl : '\n' ∉ l) (hs : l.length + 2 ≤ size) :
    fgetsAll size (l ++ '\n' :: rest) = (l ++ ['\n']) :: fgetsAll size rest := by
  have ht : takeLine (size - 1) (l ++ '\n' :: rest) = (l ++ ['\n'], rest, false) :=
    takeLine_line hl (by omega)
  rw [fgetsAll, fgetsLoop]
  simp only [fgets, ht, Bool.false_eq_true, ↓reduceIte, Bool.or_self, List.append_eq_nil_iff,
    List.cons_ne_nil, and_false]
  rw [fgetsLoop_fuel (by omega) (by simp; omega)]

/-- A longer line comes in pieces of `size - 1` characters. -/
theorem fgetsAll_piece {size : Nat} {l rest : CStr} (hl : '\n' ∉ l) (hs : l.length + 1 = size)
    (h0 : l ≠ []) : fgetsAll size (l ++ rest) = l :: fgetsAll size rest := by
  have hpos : 0 < l.length := List.length_pos_iff.2 h0
  have ht : takeLine (size - 1) (l ++ rest) = (l, rest, false) := by
    rw [← hs, Nat.add_sub_cancel]; exact takeLine_full hl
  rw [fgetsAll, fgetsLoop]
  simp only [fgets, ht, Bool.false_eq_true, ↓reduceIte, Bool.or_self, h0]
  rw [fgetsLoop_fuel (by omega) (by simp; omega)]

/-- No string the loop sees is longer than the buffer. -/
theorem length_le_of_mem_fgetsAll {size : Nat} {text l : CStr} (h : l ∈ fgetsAll size text) :
    l.length ≤ size - 1 := by
  rw [fgetsAll] at h
  generalize text.length + 1 = fuel at h
  generalize (⟨text, false⟩ : InFile Char) = f at h
  induction fuel generalizing f with
  | zero => cases h
  | succ fuel ih =>
    have hlen := length_takeLine_le (size - 1) f.rest
    simp only [fgetsLoop, fgets] at h
    by_cases he : f.eof
    · simp [he] at h
    · by_cases hl : (takeLine (size - 1) f.rest).1 = []
      · simp only [he, hl, Bool.false_eq_true, ↓reduceIte] at h
        exact ih _ h
      · simp only [he, hl, Bool.false_eq_true, ↓reduceIte, List.mem_cons] at h
        rcases h with rfl | h
        · exact hlen
        · exact ih _ h

end Lprofile.Lib
