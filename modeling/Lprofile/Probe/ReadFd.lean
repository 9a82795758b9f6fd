import Lprofile.Probe.ReadSelf

/-!
# Reading a counter through its descriptor

`prof_evsel__read` reads eight bytes with `readn`, which repeats `read` until it has
them all (`util.h`). The kernel is a script of answers; `data` is what the
uninitialised variable holds before.

`readn` has three exits: all bytes, end of file, an error (`readn_cases`). At end of
file it returns 0, and `prof_evsel__read` takes only negative values for failures, so
it then returns a variable that was not filled: what is returned was delivered exactly
where no `read` returns 0 (`read_delivered_iff`).
-/

namespace Lprofile.Probe

open Lprofile.Lib

def EINTR : Errno := ⟨4, by decide⟩

/-- What one `read` returns; no bytes at all is end of file. -/
inductive ReadRet where
  | bytes (bs : List Byte)
  | fail (err : Errno)
  deriving DecidableEq

def ReadRet.eof : ReadRet := .bytes []

def ReadRet.delivered : ReadRet → List Byte
  | .bytes bs => bs
  | .fail _ => []

/-- The bytes of a script, in order. -/
def delivered (script : List ReadRet) : List Byte := script.flatMap ReadRet.delivered

/-- The answers to the calls of one `readn` for `n` bytes: no `read` returns more than it is asked
for. -/
structure ReadScript (n : Nat) where
  answers : List ReadRet
  fits : (delivered answers).length ≤ n

/-- The loop of `readn`: `left` bytes are missing, and `buf` has moved on by `off`. The result is
the return value, the buffer, and the answers not used; `none`: the script is used up first. -/
def readnLoop (n : Nat) : Nat → List Byte → Nat → List ReadRet →
    Option (Int × List Byte × List ReadRet)
  | 0, buf, _, script => some (n, buf, script)
  | _ + 1, _, _, [] => none
  | left + 1, buf, off, .fail err :: script =>
    if err = EINTR then readnLoop n (left + 1) buf off script
    else some (-1, buf, script)
  | left + 1, buf, off, .bytes bs :: script =>
    if bs.length = 0 then some (0, buf, script)
    else readnLoop n (left + 1 - bs.length) (writeAt buf off bs) (off + bs.length) script

def readn (buf : List Byte) (n : Nat) (script : List ReadRet) :
    Option (Int × List Byte × List ReadRet) :=
  readnLoop n n buf 0 script

/-- The value, and the answers not used. -/
def profEvselRead (e : ProfEvsel) (data : BitVec 64) (script : List ReadRet) :
    Option (BitVec 64 × List ReadRet) :=
  if !e.isEnable then some (0, script)
  else if e.fd < 0 then some (BitVec.allOnes 64, script)
  else
    match readn (leBytes 8 data.toNat) 8 script with
    | none => none
    | some (ret, buf, script) =>
      if ret < 0 then some (BitVec.allOnes 64, script)
      else some (BitVec.ofNat 64 (leVal buf), script)

/-! ## The three exits of `readn` -/

@[simp] theorem delivered_nil : delivered [] = [] := rfl

@[simp] theorem delivered_bytes (bs : List Byte) (script : List ReadRet) :
    delivered (.bytes bs :: script) = bs ++ delivered script := rfl

@[simp] theorem delivered_append (script script' : List ReadRet) :
    delivered (script ++ script') = delivered script ++ delivered script' :=
  List.flatMap_append

@[simp] theorem delivered_fail (err : Errno) (script : List ReadRet) :
    delivered (.fail err :: script) = delivered script := rfl

/-- The buffer after the first bytes are there: the others are as before. -/
def filled (buf bs : List Byte) : List Byte := bs ++ buf.drop bs.length

theorem writeAt_filled (buf bs cs : List Byte) :
    writeAt (filled buf bs) bs.length cs = filled buf (bs ++ cs) := by
  have hlen : bs.length - (filled buf bs).length = 0 := by
    rw [filled, List.length_append]
    omega
  rw [writeAt, hlen, filled, filled, List.take_left, List.length_append, List.drop_append,
    List.drop_eq_nil_of_le (Nat.le_add_right _ _), Nat.add_sub_cancel_left, List.drop_drop]
  simp

/-- How `readn` ends on a script it uses up. -/
inductive ReadnExit (n : Nat) (buf : List Byte) (script : List ReadRet) :
    Int → List Byte → Prop where
  | full (heof : .eof ∉ script) (hlen : (delivered script).length = n) :
      ReadnExit n buf script n (filled buf (delivered script))
  | eof (heof : .eof ∈ script) (hlen : (delivered script).length < n) :
      ReadnExit n buf script 0 (filled buf (delivered script))
  | error (heof : .eof ∉ script) (buf' : List Byte) : ReadnExit n buf script (-1) buf'

/-- `got` are the answers used so far, and the buffer holds their bytes. -/
theorem readnLoop_cases (n : Nat) (buf : List Byte) {ret : Int} {buf' : List Byte} :
    ∀ (rest got : List ReadRet) (left : Nat), .eof ∉ got → (delivered got).length + left = n →
      (delivered (got ++ rest)).length ≤ n →
      readnLoop n left (filled buf (delivered got)) (delivered got).length rest =
        some (ret, buf', []) →
      ReadnExit n buf (got ++ rest) ret buf'
  | rest, got, 0, heof, hleft, _, h => by
    obtain ⟨rfl, rfl, rfl⟩ : (n : Int) = ret ∧ filled buf (delivered got) = buf' ∧ rest = [] := by
      simpa [readnLoop] using h
    rw [List.append_nil]
    exact .full heof (by omega)
  | [], _, _ + 1, _, _, _, h => by
    simp only [readnLoop] at h
    cases h
  | .fail err :: rest, got, left + 1, heof, hleft, hfits, h => by
    have heof' : .eof ∉ got ++ [.fail err] := by simpa [ReadRet.eof] using heof
    simp only [readnLoop] at h
    split at h
    · -- `EINTR`: nothing moves
      have hrec := readnLoop_cases n buf rest (got ++ [.fail err]) (left + 1) heof'
        (by simpa using hleft) (by simpa using hfits) (by simpa using h)
      simpa using hrec
    · obtain ⟨rfl, -, rfl⟩ : -1 = ret ∧ _ ∧ rest = [] := by simpa using h
      exact .error heof' _
  | .bytes bs :: rest, got, left + 1, heof, hleft, hfits, h => by
    simp only [readnLoop] at h
    split at h
    case isTrue hnil =>
      obtain rfl : bs = [] := List.eq_nil_of_length_eq_zero hnil
      obtain ⟨rfl, rfl, rfl⟩ : 0 = ret ∧ filled buf (delivered got) = buf' ∧ rest = [] := by
        simpa using h
      have hsame : delivered (got ++ [.bytes []]) = delivered got := by simp
      rw [← hsame]
      exact .eof (by simp [ReadRet.eof]) (by rw [hsame]; omega)
    case isFalse hne =>
      have heof' : .eof ∉ got ++ [.bytes bs] := by
        simp only [ReadRet.eof, List.mem_append, List.mem_singleton, ReadRet.bytes.injEq, not_or]
        exact ⟨heof, fun e => hne (by rw [← e]; rfl)⟩
      have hgot : delivered (got ++ [.bytes bs]) = delivered got ++ bs := by simp
      have hlen : bs.length ≤ left + 1 := by
        simp only [delivered_append, delivered_bytes, List.length_append] at hfits
        omega
      rw [writeAt_filled, ← List.length_append, ← hgot] at h
      have hrec := readnLoop_cases n buf rest (got ++ [.bytes bs]) (left + 1 - bs.length) heof'
        (by rw [hgot, List.length_append]; omega) (by simpa using hfits) h
      simpa using hrec

theorem readn_cases {n : Nat} {buf buf' : List Byte} {ret : Int} (script : ReadScript n)
    (h : readn buf n script.answers = some (ret, buf', [])) :
    ReadnExit n buf script.answers ret buf' :=
  readnLoop_cases n buf script.answers [] n (fun hmem => (by cases hmem)) (Nat.zero_add n)
    script.fits h

/-! ## The value -/

/-- `readn` uses up the script, whatever was in the variable. -/
def Consumed (e : ProfEvsel) (script : List ReadRet) : Prop :=
  ∀ data, ∃ v, profEvselRead e data script = some (v, [])

/-- What is returned is `UINT64_MAX`, or the eight bytes delivered as a number. -/
def ReturnsDelivered (e : ProfEvsel) (script : List ReadRet) : Prop :=
  ∀ data v, profEvselRead e data script = some (v, []) → v ≠ BitVec.allOnes 64 →
    (delivered script).length = 8 ∧ v.toNat = leVal (delivered script)

theorem filled_of_length {buf bs : List Byte} (h : bs.length = buf.length) :
    filled buf bs = bs := by
  rw [filled, h, List.drop_length, List.append_nil]

/-- A short script leaves the last byte of a zero variable alone. -/
theorem leVal_filled_zero {bs : List Byte} (h : bs.length < 8) :
    leVal (filled (leBytes 8 0) bs) < 2 ^ 64 - 1 := by
  have hzero : ∀ k < 8, leVal ((leBytes 8 0).drop k) = 0 := by decide
  have hle : 256 ^ bs.length ≤ 256 ^ 7 := Nat.pow_le_pow_right (by decide) (by omega)
  calc leVal (filled (leBytes 8 0) bs)
      = leVal bs := by rw [filled, leVal_append, hzero _ h, Nat.mul_zero, Nat.add_zero]
    _ < 256 ^ bs.length := leVal_lt bs
    _ ≤ 256 ^ 7 := hle
    _ < 2 ^ 64 - 1 := by decide

/-- The value, by the exit of `readn`. -/
theorem profEvselRead_cases {e : ProfEvsel} (hen : e.isEnable = true) (hfd : 0 ≤ e.fd)
    (script : ReadScript 8) {data v : BitVec 64}
    (h : profEvselRead e data script.answers = some (v, [])) :
    (.eof ∉ script.answers ∧ (delivered script.answers).length = 8 ∧
      v = BitVec.ofNat 64 (leVal (delivered script.answers))) ∨
    (.eof ∈ script.answers ∧ (delivered script.answers).length < 8 ∧
      v = BitVec.ofNat 64 (leVal (filled (leBytes 8 data.toNat) (delivered script.answers)))) ∨
    (.eof ∉ script.answers ∧ v = BitVec.allOnes 64) := by
  have hneg : ¬ e.fd < 0 := by omega
  simp only [profEvselRead, hen, Bool.not_true, Bool.false_eq_true, ↓reduceIte, hneg] at h
  rcases hread : readn (leBytes 8 data.toNat) 8 script.answers with _ | ⟨ret, buf, rest⟩
  · rw [hread] at h
    cases h
  · rw [hread] at h
    dsimp only at h
    obtain rfl : rest = [] := by
      split at h <;> exact (Prod.mk.inj (Option.some.inj h)).2
    cases readn_cases script hread with
    | full heof hlen =>
      rw [filled_of_length (by rw [hlen, length_leBytes])] at h
      exact .inl ⟨heof, hlen, (Prod.mk.inj (Option.some.inj h)).1.symm⟩
    | eof heof hlen => exact .inr (.inl ⟨heof, hlen, (Prod.mk.inj (Option.some.inj h)).1.symm⟩)
    | error heof => exact .inr (.inr ⟨heof, (Prod.mk.inj (Option.some.inj h)).1.symm⟩)

/-- **What is returned was delivered exactly where no `read` returns 0.** -/
theorem read_delivered_iff (e : ProfEvsel) (hen : e.isEnable = true) (hfd : 0 ≤ e.fd)
    (script : ReadScript 8) (hrun : Consumed e script.answers) :
    ReturnsDelivered e script.answers ↔ .eof ∉ script.answers := by
  constructor
  · intro h heof
    obtain ⟨v, hv⟩ := hrun 0#64
    rcases profEvselRead_cases hen hfd script hv with ⟨hno, -⟩ | ⟨-, hlen, hval⟩ | ⟨hno, -⟩
    · exact hno heof
    · have hlt := leVal_filled_zero hlen
      have hne : v ≠ BitVec.allOnes 64 := by
        intro hall
        have hnat := congrArg BitVec.toNat (hval.symm.trans hall)
        rw [BitVec.toNat_zero, BitVec.toNat_ofNat, BitVec.toNat_allOnes] at hnat
        omega
      have hfull := (h _ v hv hne).1
      omega
    · exact hno heof
  · intro hno data v hv hne
    rcases profEvselRead_cases hen hfd script hv with ⟨-, hlen, rfl⟩ | ⟨heof, -⟩ | ⟨-, rfl⟩
    · have hlt := leVal_lt (delivered script.answers)
      rw [hlen, show (256 : Nat) ^ 8 = 2 ^ 64 from rfl] at hlt
      exact ⟨hlen, by rw [BitVec.toNat_ofNat, Nat.mod_eq_of_lt hlt]⟩
    · exact absurd heof hno
    · exact absurd rfl hne

/-- The count 513 in two pieces, around an interrupted call. -/
def piecewise : ReadScript 8 where
  answers := [.bytes [1, 2], .fail EINTR, .bytes [0, 0, 0, 0, 0, 0]]
  fits := by decide

theorem read_delivered_iff_piecewise : ReturnsDelivered enabledEvsel piecewise.answers := by
  have hrun : Consumed enabledEvsel piecewise.answers := fun _ => ⟨_, rfl⟩
  exact (read_delivered_iff enabledEvsel rfl (by decide) piecewise hrun).2 (by decide)

/-- After two bytes the file ends. The other six are those of the variable. -/
theorem eof_returns_stale_bytes :
    Consumed enabledEvsel [.bytes [1, 2], .eof] ∧
      profEvselRead enabledEvsel 0xdeadbeef0000 [.bytes [1, 2], .eof] =
        some (0xdeadbeef0201, []) ∧
      ¬ ReturnsDelivered enabledEvsel [.bytes [1, 2], .eof] := by
  have hread : profEvselRead enabledEvsel 0xdeadbeef0000 [.bytes [1, 2], .eof] =
      some (0xdeadbeef0201, []) := by decide
  refine ⟨fun _ => ⟨_, rfl⟩, hread, fun h => ?_⟩
  exact absurd (h _ _ hread (by decide)).1 (by decide)

end Lprofile.Probe
