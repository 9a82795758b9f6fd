import Lprofile.Probe.Records

/-!
# The report tool

`ReportTest::process` reads a data file record by record and prints each record
on a line (`report.cc`); its arguments are parsed in `CountReport`. Messages are
kept without the file and line number in front of them.

`process_take` is its meaning on what the probe library writes: on the bytes of
a list of records, cut off anywhere, it prints the records that are there in
full, one line each, and returns true.
-/

namespace Lprofile.Utils

open Lprofile.Lib Lprofile.Probe

/-- What a command wrote: its standard output and its messages on standard error. -/
structure Output where
  stdout : CStr
  stderr : List CStr
  deriving DecidableEq

namespace Output

def none : Output := ⟨[], []⟩

def error (msg : CStr) : Output := ⟨[], [msg]⟩

def append (a b : Output) : Output := ⟨a.stdout ++ b.stdout, a.stderr ++ b.stderr⟩

end Output

/-- `"%lu %u %u %u %lu\n"`. -/
def recordLine (r : ProfRecord) : CStr :=
  decimal r.ts.toNat ++ ' ' :: decimal r.funcIdx.toNat ++ ' ' :: decimal r.pos.toNat ++
    ' ' :: decimal r.evIdx.toNat ++ ' ' :: decimal r.count.toNat ++ ['\n']

/-- `ReportTest::processRecord`. Its stack is local to the call, so in count mode an exit record
never finds its entry. -/
def processRecord (isCount : Bool) (r : ProfRecord) : Bool × Output :=
  if isCount then
    if r.pos = 0 then (true, .none)
    else (false, .error "Cannot find previous record".toList)
  else (true, ⟨recordLine r, []⟩)

/-- The loop of `ReportTest::process`: the output, and `nrecord`. Every round takes a record off
the file, so the file's length is enough fuel. -/
def processLoop (isCount : Bool) (datafile : CStr) : Nat → InFile Byte → Output × Nat
  | 0, _ => (.none, 0)
  | fuel + 1, fp =>
    if fp.eof then (.none, 0)
    else
      match fread profRecordSize fp with
      | (none, fp) =>
        (if fp.eof then .none else .error ("Failed to read record from ".toList ++ datafile), 0)
      | (some bytes, fp) =>
        let p := processRecord isCount (.ofBytes bytes)
        if p.1 then
          let q := processLoop isCount datafile fuel fp
          (p.2.append q.1, q.2 + 1)
        else (p.2.append (.error "Failed to process 1-nd record".toList), 0)

/-- `ReportTest::process`; `none` is a file that cannot be opened. -/
def process (isCount : Bool) (datafile : CStr) : Option (List Byte) → Bool × Output
  | none => (false, .error ("Failed to open datafile ".toList ++ datafile))
  | some bytes =>
    let q := processLoop isCount datafile (bytes.length + 1) ⟨bytes, false⟩
    let total := "Total ".toList ++ decimal q.2 ++ " records".toList
    (true, q.1.append (.error total))

/-! ## Reading records back -/

theorem ofBytes_bytes (r : ProfRecord) : ProfRecord.ofBytes r.bytes = r := by
  have h1 := leVal_leBytes_toNat (n := 8) rfl r.ts
  have h2 := leVal_leBytes_toNat (n := 2) rfl r.funcIdx
  have h3 := leVal_leBytes_toNat (n := 1) rfl r.pos
  have h4 := leVal_leBytes_toNat (n := 1) rfl r.evIdx
  have h5 := leVal_leBytes_toNat (n := 8) rfl r.count
  simp [ProfRecord.ofBytes, ProfRecord.bytes, List.drop_append, h1, h2, h3, h4, h5]

theorem fread_record (r : ProfRecord) (rest : List Byte) :
    fread profRecordSize ⟨r.bytes ++ rest, false⟩ = (some r.bytes, ⟨rest, false⟩) := by
  have hle : profRecordSize ≤ (r.bytes ++ rest).length := by
    rw [List.length_append, length_bytes]
    omega
  simp only [fread, hle, ↓reduceIte]
  rw [List.take_left' (length_bytes r), List.drop_left' (length_bytes r)]

theorem fread_short {bytes : List Byte} (h : bytes.length < profRecordSize) :
    fread profRecordSize ⟨bytes, false⟩ = (none, ⟨[], true⟩) := by
  simp only [fread, Nat.not_le.2 h, ↓reduceIte]

/-- The loop on a file of records that is cut off after `k` bytes. -/
theorem processLoop_take (datafile : CStr) : ∀ {rs : List ProfRecord} {k fuel : Nat},
    ((recordBytes rs).take k).length < fuel →
      processLoop false datafile fuel ⟨(recordBytes rs).take k, false⟩ =
        (⟨(rs.take (k / profRecordSize)).flatMap recordLine, []⟩,
          (rs.take (k / profRecordSize)).length)
  | [], k, fuel, hf => by
    obtain ⟨fuel, rfl⟩ : ∃ n, fuel = n + 1 := ⟨fuel - 1, by omega⟩
    have hshort : ([] : List Byte).length < profRecordSize := by decide
    simp [processLoop, fread_short hshort, Output.none]
  | r :: rs, k, fuel, hf => by
    obtain ⟨fuel, rfl⟩ : ∃ n, fuel = n + 1 := ⟨fuel - 1, by omega⟩
    have hlen := length_bytes r
    have hbytes : recordBytes (r :: rs) = r.bytes ++ recordBytes rs := List.flatMap_cons
    by_cases hk : k < profRecordSize
    · have hshort : ((recordBytes (r :: rs)).take k).length < profRecordSize := by
        rw [List.length_take]
        omega
      simp [processLoop, fread_short hshort, Output.none, Nat.div_eq_of_lt hk]
    · obtain ⟨j, rfl⟩ : ∃ j, k = j + profRecordSize := ⟨k - profRecordSize, by omega⟩
      have htake : (recordBytes (r :: rs)).take (j + profRecordSize) =
          r.bytes ++ (recordBytes rs).take j := by
        rw [hbytes, List.take_append, hlen, Nat.add_sub_cancel,
          List.take_of_length_le (by omega)]
      have hsize : profRecordSize = 24 := rfl
      rw [htake, List.length_append, hlen] at hf
      have hdiv : (j + profRecordSize) / profRecordSize = j / profRecordSize + 1 :=
        Nat.add_div_right j (by decide)
      rw [htake, hdiv]
      simp only [processLoop, Bool.false_eq_true, ↓reduceIte, fread_record, processRecord,
        ofBytes_bytes]
      have hrest : ((recordBytes rs).take j).length < fuel := by omega
      rw [processLoop_take datafile hrest]
      simp [Output.append]

/-- **The report of a data file**, whole or cut off after `k` bytes: one line for each record that
is there in full, in order. -/
theorem process_take (datafile : CStr) (rs : List ProfRecord) (k : Nat) :
    process false datafile (some ((recordBytes rs).take k)) =
      (true, ⟨(rs.take (k / profRecordSize)).flatMap recordLine,
        ["Total ".toList ++ decimal (rs.take (k / profRecordSize)).length ++
          " records".toList]⟩) := by
  simp only [process, processLoop_take datafile (Nat.lt_succ_self _), Output.append, Output.error,
    List.append_nil, List.nil_append]

end Lprofile.Utils
